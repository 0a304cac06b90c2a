import Mathlib.Data.List.GetD
import Mathlib.Tactic.Ring

/-!
# Flat memory and circular windows over it

A memory is a total map from integer addresses. Blocks are loaded and
stored contiguously; a circular window reads cells of a fixed region
`[0,n)` in order, wrapping at its end at most once. Every cell type and
every region size is allowed, and a store names exactly the cells it changes.
-/

namespace CircularMemory

/-- A total memory, addressed relative to the start of the region studied. -/
abbrev Memory (α : Type*) := ℤ → α

variable {α : Type*}

/-- The contiguous block of the given length. -/
def load (mem : Memory α) (start : ℤ) (len : ℕ) : List α :=
  (List.range len).map fun i : ℕ => mem (start+i)

/-- Overwrite a contiguous block by the given cells. -/
def store [Inhabited α] (mem : Memory α) (start : ℤ) (cells : List α) : Memory α :=
  fun a => if start≤a ∧ a<start+cells.length then cells.getD (a-start).toNat default else mem a

/-- Address of the `i`-th cell of a window of the region `[0,n)`. -/
def cell (n : ℕ) (start : ℤ) (i : ℕ) : ℤ :=
  if start+i<n then start+i else start+i-n

/-- The `len` cells of the circular window that begins at `start`. -/
def window (mem : Memory α) (n : ℕ) (start : ℤ) (len : ℕ) : List α :=
  (List.range len).map fun i : ℕ => mem (cell n start i)

@[simp] theorem load_length (mem : Memory α) (start : ℤ) (len : ℕ) :
    (load mem start len).length=len := by
  simp only [load,List.length_map,List.length_range]

@[simp] theorem window_length (mem : Memory α) (n : ℕ) (start : ℤ) (len : ℕ) :
    (window mem n start len).length=len := by
  simp only [window,List.length_map,List.length_range]

@[simp] theorem getElem_load (mem : Memory α) (start : ℤ) (len i : ℕ)
    (h : i<(load mem start len).length) : (load mem start len)[i]=mem (start+i) := by
  simp only [load,List.getElem_map,List.getElem_range]

@[simp] theorem getElem_window (mem : Memory α) (n : ℕ) (start : ℤ) (len i : ℕ)
    (h : i<(window mem n start len).length) :
    (window mem n start len)[i]=mem (cell n start i) := by
  simp only [window,List.getElem_map,List.getElem_range]

/-- Windows stay inside the region, from any start and any offset up to
one full turn. -/
theorem cell_bounds {n i : ℕ} {start : ℤ} (h0 : 0 ≤ start) (hn : start<n) (hi : i≤n) :
    0≤cell n start i ∧ cell n start i<n := by
  unfold cell
  split <;> omega

/-- The first cell of a window is its start. -/
theorem cell_zero {n : ℕ} {start : ℤ} (hn : start<n) : cell n start 0=start := by
  simp only [cell,Nat.cast_zero,add_zero,if_pos hn]

/-- Moving the start forward composes with the offset, up to one turn. -/
theorem cell_cell {n i j : ℕ} {start : ℤ} (hn : start<n) (hij : i+j≤n) :
    cell n (cell n start i) j=cell n start (i+j) := by
  unfold cell
  push_cast
  split <;> split <;> split <;> omega

/-- Offsets below one turn name different cells. -/
theorem cell_injective {n i j : ℕ} {start : ℤ} (hi : i<n) (hj : j<n) :
    cell n start i=cell n start j ↔ i=j := by
  unfold cell
  split <;> split <;> omega

/-- Loading is a window wherever the block does not cross the end. -/
theorem window_eq_load {mem : Memory α} {n len : ℕ} {start : ℤ} (h : start+len≤n) :
    window mem n start len=load mem start len := by
  refine List.ext_getElem (by simp) fun i hi _ => ?_
  rw [window_length] at hi
  rw [getElem_window,getElem_load,cell,if_pos (by omega)]

/-- A window that crosses the end is the block up to the end followed by
the block at the start of the region. -/
theorem window_eq_load_append {mem : Memory α} {n first rest : ℕ} {start : ℤ}
    (hfirst : start+first=n) :
    window mem n start (first+rest)=load mem start first++load mem 0 rest := by
  refine List.ext_getElem (by simp) fun i hi _ => ?_
  rw [window_length] at hi
  rw [getElem_window,List.getElem_append]
  simp only [load_length,getElem_load]
  by_cases h : i<first
  · rw [dif_pos h,cell,if_pos (by omega)]
  · rw [dif_neg h,cell,if_neg (by omega)]
    congr 1
    omega

/-- Dropping cells moves the start of the window. -/
theorem window_drop {mem : Memory α} {n k len : ℕ} {start : ℤ}
    (hn : start<n) (hk : k≤len) (hlen : len≤n) :
    (window mem n start len).drop k=window mem n (cell n start k) (len-k) := by
  refine List.ext_getElem (by simp) fun i hi _ => ?_
  rw [List.length_drop,window_length] at hi
  rw [List.getElem_drop,getElem_window,getElem_window,cell_cell hn (by omega)]

/-- Taking cells shortens the window. -/
theorem window_take {mem : Memory α} {n k len : ℕ} {start : ℤ} (hk : k≤len) :
    (window mem n start len).take k=window mem n start k := by
  refine List.ext_getElem (by simp [hk]) fun i _ _ => ?_
  rw [List.getElem_take,getElem_window,getElem_window]

/-- The second memory is the first with the given cells put into the
window of the region `[0,n)` that begins at `start`. -/
structure Stores (mem mem' : Memory α) (n : ℕ) (start : ℤ) (cells : List α) : Prop where
  /-- The window holds the new cells in order. -/
  inside : ∀ (i : ℕ) (h : i<cells.length), mem' (cell n start i)=cells[i]
  /-- Every address outside the window keeps its value. -/
  outside : ∀ a, (∀ i<cells.length, a≠cell n start i) → mem' a=mem a

/-- Filling the window behind the cells already there appends to them. -/
theorem window_append_of_stores {mem mem' : Memory α} {n len : ℕ} {start : ℤ} {cells : List α}
    (hs : start<n) (hlen : len+cells.length≤n) (h : Stores mem mem' n (cell n start len) cells) :
    window mem' n start (len+cells.length)=window mem n start len++cells := by
  refine List.ext_getElem (by simp) fun i hi _ => ?_
  rw [window_length] at hi
  rw [getElem_window,List.getElem_append]
  simp only [window_length,getElem_window]
  by_cases hold : i<len
  · rw [dif_pos hold]
    refine h.outside _ fun j hj he => ?_
    rw [cell_cell hs (by omega),cell_injective (by omega) (by omega)] at he
    omega
  · rw [dif_neg hold]
    have hin := h.inside (i-len) (by omega)
    rw [cell_cell hs (by omega),Nat.add_sub_cancel' (by omega)] at hin
    exact hin

variable [Inhabited α]

/-- A store leaves every address outside its block alone. -/
theorem store_outside (mem : Memory α) {start a : ℤ} {cells : List α}
    (h : a<start ∨ start+cells.length≤a) : store mem start cells a=mem a := by
  rw [store,if_neg (by omega)]

/-- A store puts its cells in order. -/
theorem store_inside (mem : Memory α) {start : ℤ} {cells : List α} {i : ℕ}
    (h : i<cells.length) : store mem start cells (start+i)=cells[i] := by
  have hi : (start+i-start).toNat=i := by omega
  rw [store,if_pos (by omega),hi,List.getD_eq_getElem _ _ h]

/-- Storing no cell changes nothing. -/
@[simp] theorem store_nil (mem : Memory α) (start : ℤ) : store mem start []=mem := by
  funext a
  rw [store_outside]
  simp only [List.length_nil,Nat.cast_zero,add_zero]
  exact lt_or_ge a start

/-- One store fills a window that does not cross the end. -/
theorem stores_contiguous (mem : Memory α) {n : ℕ} {start : ℤ} {cells : List α}
    (h : start+cells.length≤n) : Stores mem (store mem start cells) n start cells where
  inside i hi := by rw [cell,if_pos (by omega),store_inside mem hi]
  outside a ha := by
    refine store_outside mem (by_contra fun hin => ?_)
    have hi : (a-start).toNat<cells.length := by omega
    refine ha _ hi ?_
    rw [cell,if_pos (by omega)]
    omega

/-- Two stores fill a window that crosses the end. -/
theorem stores_wrapped (mem : Memory α) {n first : ℕ} {start : ℤ} {cells : List α}
    (hfirst : start+first=n) (hlen : first≤cells.length) (hn : cells.length≤n) :
    Stores mem (store (store mem start (cells.take first)) 0 (cells.drop first)) n start cells where
  inside i hi := by
    by_cases h : i<first
    · have hout : store (store mem start (cells.take first)) 0 (cells.drop first) (start+i)=
          store mem start (cells.take first) (start+i) :=
        store_outside _ (Or.inr (by rw [List.length_drop]; omega))
      have hi' : i<(cells.take first).length := by rw [List.length_take]; omega
      have hin : store mem start (cells.take first) (start+i)=(cells.take first)[i] :=
        store_inside mem hi'
      rw [cell,if_pos (by omega),hout,hin,List.getElem_take]
    · have he : start+i-n=0+((i-first : ℕ) : ℤ) := by omega
      have hi' : i-first<(cells.drop first).length := by rw [List.length_drop]; omega
      have hin : store (store mem start (cells.take first)) 0 (cells.drop first)
          (0+((i-first : ℕ) : ℤ))=(cells.drop first)[i-first] := store_inside _ hi'
      rw [cell,if_neg (by omega),he,hin,List.getElem_drop]
      congr 1
      omega
  outside a ha := by
    have hfar : ∀ i<first, a≠start+i := fun i hi he =>
      ha i (by omega) (by rw [cell,if_pos (by omega),he])
    have hnear : ∀ i<cells.length-first, a≠i := fun i hi he =>
      ha (first+i) (by omega) (by rw [cell,if_neg (by omega)]; push_cast; omega)
    rw [store_outside,store_outside]
    · by_contra hin
      rw [List.length_take] at hin
      exact hfar (a-start).toNat (by omega) (by omega)
    · by_contra hin
      rw [List.length_drop] at hin
      exact hnear a.toNat (by omega) (by omega)

end CircularMemory
