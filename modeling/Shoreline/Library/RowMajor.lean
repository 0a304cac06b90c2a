import Mathlib.Data.Nat.Basic
import Mathlib.Tactic.Common
import Mathlib.Tactic.Linarith

/-!
# Row-major addressing

A table of a given width laid out row after row. The number of a place
determines its column and row, the numbers below width times height are
exactly the places of the table, and a stretch that starts in a column stays
in its row as long as it ends there.
-/

namespace RowMajor

/-- The number of a place. -/
def index (width x y : ℕ) : ℕ := y*width+x

/-- A place of the table has a number below the size of the table. -/
theorem index_lt {width height x y : ℕ} (hx : x<width) (hy : y<height) :
    index width x y<width*height := by
  have hrow : (y+1)*width≤height*width := Nat.mul_le_mul_right width hy
  rw [index,Nat.mul_comm width height]
  linarith

/-- The column of a number. -/
theorem index_mod {width x : ℕ} (y : ℕ) (hx : x<width) : index width x y%width=x := by
  rw [index,Nat.mul_comm,Nat.mul_add_mod,Nat.mod_eq_of_lt hx]

/-- The row of a number. -/
theorem index_div {width x : ℕ} (y : ℕ) (hx : x<width) : index width x y/width=y := by
  have hw : 0 < width := Nat.lt_of_le_of_lt (Nat.zero_le x) hx
  rw [index,Nat.mul_comm,Nat.mul_add_div hw,Nat.div_eq_of_lt hx,Nat.add_zero]

/-- Places are told apart by their numbers. -/
theorem index_inj {width x y x' y' : ℕ} (hx : x<width) (hx' : x'<width)
    (h : index width x y=index width x' y') : x=x' ∧ y=y' := by
  constructor
  · have hmod := congrArg (fun i => i%width) h
    simpa only [index_mod _ hx,index_mod _ hx'] using hmod
  · have hdiv := congrArg (fun i => i/width) h
    simpa only [index_div _ hx,index_div _ hx'] using hdiv

/-- Every number below the size of the table is the number of a place. -/
theorem exists_index {width height i : ℕ} (h : i<width*height) :
    ∃ x y, x<width ∧ y<height ∧ index width x y=i := by
  have hw : 0 < width := Nat.pos_of_mul_pos_right (Nat.zero_lt_of_lt h)
  refine ⟨i%width,i/width,Nat.mod_lt i hw,Nat.div_lt_of_lt_mul h,?_⟩
  rw [index,Nat.mul_comm]
  exact Nat.div_add_mod i width

/-- A place whose number lies in a stretch of one row is in that row, and in
the columns of the stretch. -/
theorem place_of_between {width x y row first last : ℕ} (hx : x<width) (hlast : last≤width)
    (hlo : row*width+first ≤ index width x y) (hhi : index width x y<row*width+last) :
    y=row ∧ first≤x ∧ x<last := by
  rw [index] at hlo hhi
  have hrow : y=row := by
    by_contra hne
    rcases Nat.lt_or_gt_of_ne hne with hlt|hgt
    · have hle := Nat.mul_le_mul_right width hlt
      rw [Nat.succ_mul] at hle
      omega
    · have hle := Nat.mul_le_mul_right width hgt
      rw [Nat.succ_mul] at hle
      omega
  subst hrow
  exact ⟨rfl,by omega,by omega⟩

end RowMajor
