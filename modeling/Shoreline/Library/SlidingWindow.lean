import Mathlib.Data.List.FinRange
import Mathlib.Data.List.Perm.Basic
import Mathlib.Data.List.Rotate
import Mathlib.Tactic.Common

/-!
# The last values of a history

A window of fixed size in which every new value overwrites the oldest one. Read
from the cell that is overwritten next, it holds the last values of all that were
pushed, with blanks before the first ones. What is summed up over the cells does
not depend on where the window stands.
-/

namespace SlidingWindow

variable {α β : Type*} {n : ℕ}

/-- The last `n` values of a history that has only blanks before it. -/
def lastOf (n : ℕ) (blank : α) (history : List α) : List α :=
  (List.replicate n blank++history).drop history.length

/-- There are `n` of them. -/
@[simp] theorem length_lastOf (n : ℕ) (blank : α) (history : List α) :
    (lastOf n blank history).length=n := by
  rw [lastOf,List.length_drop,List.length_append,List.length_replicate]
  omega

/-- Before any value all are blank. -/
@[simp] theorem lastOf_nil (n : ℕ) (blank : α) : lastOf n blank []=List.replicate n blank := by
  simp [lastOf]

/-- A new value takes the place of the oldest one. -/
theorem lastOf_concat (hn : 0<n) (blank : α) (history : List α) (x : α) :
    lastOf n blank (history++[x])=(lastOf n blank history).tail++[x] := by
  rw [lastOf,lastOf,List.tail_drop,List.length_append,List.length_singleton,←List.append_assoc]
  refine List.drop_append_of_le_length ?_
  rw [List.length_append,List.length_replicate]
  omega

/-- The cells in the order in which they were written. -/
def fromOldest (cells : Fin n → α) (next : Fin n) : List α := (List.ofFn cells).rotate next

/-- Nothing but blanks. -/
theorem fromOldest_const (blank : α) (next : Fin n) :
    fromOldest (fun _ => blank) next=List.replicate n blank := by
  rw [fromOldest,List.ofFn_const,List.rotate_replicate]

/-- To overwrite one element of a list, and to start behind it. -/
theorem rotate_set {l : List α} {i : ℕ} (hi : i<l.length) (x : α) :
    (l.set i x).rotate (i+1)=(l.rotate i).tail++[x] := by
  have hset : i+1≤(l.set i x).length := by
    rw [List.length_set]
    exact hi
  have htake : (l.take (i+1)).set i x=l.take i++[x] := by
    rw [List.take_add_one,List.getElem?_eq_getElem hi,Option.toList_some,
      List.set_append_right (h := List.length_take_le i l),List.length_take,Nat.min_eq_left hi.le,
      Nat.sub_self,List.set_cons_zero]
  rw [List.rotate_eq_drop_append_take hset,List.rotate_eq_drop_append_take hi.le,
    List.drop_set_of_lt (Nat.lt_succ_self i),List.take_set,htake,List.drop_eq_getElem_cons hi,
    List.cons_append,List.tail_cons,List.append_assoc]

/-- The cell that is overwritten next is the oldest one. -/
theorem fromOldest_update (cells : Fin n → α) {next after : Fin n}
    (hafter : after.val=(next.val+1)%n) (x : α) :
    fromOldest (Function.update cells next x) after=(fromOldest cells next).tail++[x] := by
  have hcells : List.ofFn (Function.update cells next x)=(List.ofFn cells).set next x := by
    refine List.ext_getElem (by simp) fun i h _ => ?_
    rw [List.getElem_ofFn,List.getElem_set,List.getElem_ofFn,Function.update_apply]
    simp only [Fin.ext_iff,eq_comm]
  have hnext : (List.ofFn (Function.update cells next x)).rotate after=
      (List.ofFn (Function.update cells next x)).rotate (next.val+1) := by
    conv_rhs => rw [←List.rotate_mod,List.length_ofFn]
    rw [hafter]
  rw [fromOldest,hnext,hcells,rotate_set (by rw [List.length_ofFn]; exact next.isLt),fromOldest]

/-- A window that holds the last values holds them when one more is pushed. -/
theorem push {cells : Fin n → α} {next after : Fin n} {blank : α} {history : List α}
    (h : fromOldest cells next=lastOf n blank history) (hafter : after.val=(next.val+1)%n) (x : α) :
    fromOldest (Function.update cells next x) after=lastOf n blank (history++[x]) := by
  rw [fromOldest_update cells hafter,h,lastOf_concat next.pos]

/-- What is added up over the cells does not depend on which one is the oldest. -/
theorem foldl_cells {f : β → α → β} [RightCommutative f] (cells : Fin n → α) (next : Fin n)
    (init : β) :
    (List.finRange n).foldl (fun acc i => f acc (cells i)) init=
      (fromOldest cells next).foldl f init := by
  rw [fromOldest,(List.rotate_perm _ _).foldl_eq,List.ofFn_eq_map,List.foldl_map]

end SlidingWindow
