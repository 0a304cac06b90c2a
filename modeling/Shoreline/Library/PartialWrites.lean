import Mathlib.Data.List.Basic
import Mathlib.Tactic.Common

/-!
# Writing a buffer in pieces

A writer offers what is left of a buffer again and again, and every call takes
some of it or fails. What has arrived is a prefix of the buffer at any time,
and the buffer as a whole exactly if the loop has come to its end, however the
calls have cut it.
-/

namespace PartialWrites

variable {Elem Err : Type*}

/-- How the loop ends. -/
inductive Ending (Err : Type*) where
  /-- All was taken. -/
  | done
  /-- A call has failed. -/
  | failed (err : Err)
  /-- There were no more calls. -/
  | waiting
  deriving DecidableEq

/-- What arrives of a buffer by the given calls, and how that ends. -/
def sendAll : List Elem → List (Except Err ℕ) → List Elem×Ending Err
  | [],_ => ([],.done)
  | _::_,[] => ([],.waiting)
  | _::_,.error err::_ => ([],.failed err)
  | e::rest,.ok taken::calls =>
    let out := sendAll ((e::rest).drop taken) calls
    ((e::rest).take taken++out.1,out.2)

/-- Nothing is left to be sent. -/
@[simp] theorem sendAll_nil (calls : List (Except Err ℕ)) :
    sendAll ([] : List Elem) calls=([],.done) := by
  cases calls <;> rfl

/-- A call that takes something. -/
theorem sendAll_ok {buffer : List Elem} (h : buffer≠[]) (taken : ℕ) (calls : List (Except Err ℕ)) :
    sendAll buffer (.ok taken::calls)=
      (buffer.take taken++(sendAll (buffer.drop taken) calls).1,
        (sendAll (buffer.drop taken) calls).2) := by
  cases buffer with
  | nil => exact absurd rfl h
  | cons e rest => rfl

/-- The loop comes to its end exactly if the whole buffer arrives. -/
theorem sendAll_done_iff (buffer : List Elem) (calls : List (Except Err ℕ)) :
    (sendAll buffer calls).2=.done ↔ (sendAll buffer calls).1=buffer := by
  induction calls generalizing buffer with
  | nil => cases buffer <;> simp [sendAll]
  | cons call calls ih =>
    by_cases hnil : buffer=[]
    · simp [hnil]
    · cases call with
      | error err =>
        cases buffer with
        | nil => exact absurd rfl hnil
        | cons e rest => simp [sendAll]
      | ok taken =>
        rw [sendAll_ok hnil,ih]
        constructor
        · intro hrest
          rw [hrest,List.take_append_drop]
        · intro hall
          refine List.append_cancel_left (hall.trans ?_)
          rw [List.take_append_drop]

/-- It fails where a call does. -/
theorem mem_of_sendAll_failed {buffer : List Elem} {calls : List (Except Err ℕ)} {err : Err}
    (h : (sendAll buffer calls).2=.failed err) : .error err∈calls := by
  induction calls generalizing buffer with
  | nil => cases buffer <;> cases h
  | cons call calls ih =>
    cases buffer with
    | nil => cases h
    | cons e rest =>
      cases call with
      | error err' =>
        cases h
        exact List.mem_cons_self
      | ok taken => exact List.mem_cons_of_mem _ (ih h)

end PartialWrites
