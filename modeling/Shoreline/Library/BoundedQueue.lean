import Mathlib.Data.List.Basic
import Mathlib.Tactic.Common

/-!
# Bounded first-in first-out queues

A queue carries the proof that it respects its bound, so that an overfull
queue cannot be built. The operations are those of a bounded channel whose
writer adds blocks and whose reader takes blocks from the front.
-/

/-- A list of at most `bound` elements, oldest first. -/
structure BoundedQueue (α : Type*) (bound : ℕ) where
  /-- The queued elements, oldest first. -/
  items : List α
  /-- The bound is respected. -/
  fits : items.length≤bound

namespace BoundedQueue

variable {α : Type*} {bound : ℕ}

/-- Add a block at the back, if all of it fits. -/
def push (q : BoundedQueue α bound) (block : List α) : Option (BoundedQueue α bound) :=
  if h : (q.items++block).length≤bound then some ⟨q.items++block,h⟩ else none

/-- Remove up to `k` elements from the front. -/
def drop (q : BoundedQueue α bound) (k : ℕ) : BoundedQueue α bound :=
  ⟨q.items.drop k,by have h := q.fits; rw [List.length_drop]; omega⟩

@[simp] theorem drop_items (q : BoundedQueue α bound) (k : ℕ) :
    (q.drop k).items=q.items.drop k := rfl

/-- A block that fits is appended. -/
theorem push_of_le {q : BoundedQueue α bound} {block : List α}
    (h : (q.items++block).length≤bound) : q.push block=some ⟨q.items++block,h⟩ :=
  dif_pos h

/-- A block that does not fit is refused. -/
theorem push_of_lt {q : BoundedQueue α bound} {block : List α}
    (h : bound<(q.items++block).length) : q.push block=none :=
  dif_neg (by omega)

end BoundedQueue
