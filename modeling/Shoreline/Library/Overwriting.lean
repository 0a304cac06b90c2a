import Mathlib.Data.List.Basic
import Mathlib.Logic.Function.Iterate

/-!
# Overwriting fixed places

A change of a memory that leaves fixed values at fixed places and keeps all the
others. Such changes can be composed, and to make one again changes nothing.
-/

namespace Overwriting

variable {Address Value ι : Type*} {f g : (Address → Value) → Address → Value}

/-- At every address the change leaves a value that does not depend on the memory,
or it leaves the address alone. -/
def Overwrites (f : (Address → Value) → Address → Value) : Prop :=
  ∀ address, (∃ value, ∀ memory, f memory address=value) ∨
    ∀ memory, f memory address=memory address

/-- To change nothing. -/
theorem Overwrites.id : Overwrites (fun memory : Address → Value => memory) :=
  fun _ => Or.inr fun _ => rfl

/-- One change behind another. -/
theorem Overwrites.comp (hg : Overwrites g) (hf : Overwrites f) :
    Overwrites fun memory => g (f memory) := by
  intro address
  rcases hg address with ⟨value,hvalue⟩ | hkeep
  · exact Or.inl ⟨value,fun memory => hvalue (f memory)⟩
  · rcases hf address with ⟨value,hvalue⟩ | hkeep'
    · exact Or.inl ⟨value,fun memory => (hkeep _).trans (hvalue memory)⟩
    · exact Or.inr fun memory => (hkeep _).trans (hkeep' memory)

/-- Given values at the places of a condition. -/
theorem Overwrites.ite (covered : Address → Prop) [DecidablePred covered] (value : Address → Value) :
    Overwrites fun memory address => if covered address then value address else memory address := by
  intro address
  by_cases hcovered : covered address
  · exact Or.inl ⟨value address,fun memory => if_pos hcovered⟩
  · exact Or.inr fun memory => if_neg hcovered

/-- Several changes, one for each element of a list. -/
theorem Overwrites.foldl {change : (Address → Value) → ι → Address → Value} {items : List ι}
    (h : ∀ item∈items,Overwrites fun memory => change memory item) :
    Overwrites fun memory => items.foldl change memory := by
  induction items with
  | nil => exact Overwrites.id
  | cons item items ih =>
    obtain ⟨hitem,hitems⟩ := List.forall_mem_cons.mp h
    exact (ih hitems).comp hitem

/-- What a change leaves at an address depends on this address only. -/
theorem Overwrites.congr_at (h : Overwrites f) {memory memory' : Address → Value} {address : Address}
    (heq : memory address=memory' address) : f memory address=f memory' address := by
  rcases h address with ⟨value,hvalue⟩ | hkeep
  · rw [hvalue,hvalue]
  · rw [hkeep,hkeep,heq]

/-- To make a change again changes nothing. -/
theorem Overwrites.again (h : Overwrites f) (memory : Address → Value) : f (f memory)=f memory := by
  funext address
  rcases h address with ⟨value,hvalue⟩ | hkeep
  · rw [hvalue,hvalue]
  · exact hkeep _

/-- However often it is made. -/
theorem Overwrites.iterate (h : Overwrites f) (n : ℕ) (memory : Address → Value) :
    Nat.iterate f (n+1) memory=f memory := by
  induction n with
  | zero => rfl
  | succ n ih => rw [Function.iterate_succ_apply',ih,h.again]

/-- The places and the values of a change. -/
theorem Overwrites.exists_places (h : Overwrites f) :
    ∃ places : Address → Option Value, ∀ memory address,
      f memory address=(places address).getD (memory address) := by
  classical
  refine ⟨fun address => if hvalue : ∃ value, ∀ memory, f memory address=value then
    some hvalue.choose else none,fun memory address => ?_⟩
  dsimp only
  by_cases hvalue : ∃ value, ∀ memory, f memory address=value
  · rw [dif_pos hvalue,Option.getD_some]
    exact hvalue.choose_spec memory
  · rw [dif_neg hvalue,Option.getD_none]
    exact (h address).resolve_left hvalue memory

end Overwriting
