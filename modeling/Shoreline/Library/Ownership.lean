import Mathlib.Data.Multiset.AddSub
import Mathlib.Algebra.BigOperators.Group.Multiset.Basic
import Mathlib.Tactic.Abel

/-!
# Programs that hold resources

A program asks its surroundings for resources, uses them and gives them back.
The surroundings answer every call as they like at each time. Using or giving
back what is not held ends the program at once, without a result. A triple
states what a program holds before and after, next to anything else that is
held, and that it ends with a result.
-/

namespace Ownership

/-- The time and what is held. -/
structure World (κ : Type*) where
  clock : ℕ
  held : Multiset κ

/-- What a call returns at a time. -/
abbrev Surroundings (ι : Type*) := ι → ℕ → ℤ

/-- A program, given its surroundings. -/
def Program (ι κ α : Type) : Type := Surroundings ι → World κ → Option (α×World κ)

variable {ι κ α β σ : Type}

instance : Monad (Program ι κ) where
  pure a := fun _ w => some (a,w)
  bind m f := fun env w => (m env w).bind fun (a,w) => f a env w

/-- What a program followed by another does. -/
theorem bind_eq (m : Program ι κ α) (f : α → Program ι κ β) (env : Surroundings ι)
    (w : World κ) : (m >>= f) env w=(m env w).bind fun (a,w) => f a env w := rfl

/-- Programs one after another, in either grouping. -/
theorem bind_bind (m : Program ι κ α) (f : α → Program ι κ β) (g : β → Program ι κ σ) :
    m >>= f >>= g=m >>= fun a => f a >>= g := by
  funext env w
  rw [bind_eq,bind_eq,bind_eq,Option.bind_assoc]
  rfl

/-- The program crashes. -/
def fault : Program ι κ α := fun _ _ => none

/-- A call of the surroundings. -/
def call (i : ι) : Program ι κ ℤ := fun env w => some (env i w.clock,{w with clock := w.clock+1})

/-- A resource that was not there before, told apart by a number. -/
def take (r : ℕ → κ) : Program ι κ ℕ := fun _ w =>
  some (w.clock,⟨w.clock+1,r w.clock ::ₘ w.held⟩)

/-- A resource with a name of its own is held from now on. -/
def hold (r : κ) : Program ι κ Unit := fun _ w => some ((),{w with held := r ::ₘ w.held})

section Held

variable [DecidableEq κ]

/-- A resource is used. -/
def touch (r : κ) : Program ι κ Unit := fun _ w => if r∈w.held then some ((),w) else none

/-- A resource is given back. -/
def release (r : κ) : Program ι κ Unit := fun _ w =>
  if r∈w.held then some ((),{w with held := w.held.erase r}) else none

/-- Resources are given back in order. -/
def releaseAll : List κ → Program ι κ Unit
  | [] => pure ()
  | r::rs => do
    release r
    releaseAll rs

/-- Resources are used in order. -/
def touchAll : List κ → Program ι κ Unit
  | [] => pure ()
  | r::rs => do
    touch r
    touchAll rs

end Held

/-- A program that starts with what is held before, whatever else is held, ends;
the result and what it then holds are as stated, and the rest is still held. -/
def Triple (env : Surroundings ι) (before : Multiset κ) (m : Program ι κ α)
    (after : α → Multiset κ → Prop) : Prop :=
  ∀ clock frame, ∃ a later left, m env ⟨clock,before+frame⟩=some (a,⟨later,left+frame⟩) ∧
    after a left

section Rules

variable {env : Surroundings ι} {before rest : Multiset κ} {m : Program ι κ α}
  {f : α → Program ι κ β} {after : α → Multiset κ → Prop} {final : β → Multiset κ → Prop}

/-- A result needs nothing. -/
theorem Triple.pure {a : α} (h : after a before) :
    Triple env before (pure a : Program ι κ α) after :=
  fun clock _ => ⟨a,clock,before,rfl,h⟩

/-- Less may be said of the end. -/
theorem Triple.mono {weaker : α → Multiset κ → Prop} (h : Triple env before m after)
    (himp : ∀ a left, after a left → weaker a left) : Triple env before m weaker := by
  intro clock frame
  obtain ⟨a,later,left,heq,hafter⟩ := h clock frame
  exact ⟨a,later,left,heq,himp a left hafter⟩

/-- What is held besides stays held. -/
theorem Triple.frame (h : Triple env before m after) (rest : Multiset κ) :
    Triple env (before+rest) m fun a left => ∃ own, left=own+rest ∧ after a own := by
  intro clock frame
  obtain ⟨a,later,left,heq,hafter⟩ := h clock (rest+frame)
  rw [← add_assoc,← add_assoc] at heq
  exact ⟨a,later,left+rest,heq,left,rfl,hafter⟩

/-- One program after another. -/
theorem Triple.bind {whole : Multiset κ} (h : Triple env before m after)
    (hwhole : whole=before+rest)
    (hnext : ∀ a left, after a left → Triple env (left+rest) (f a) final) :
    Triple env whole (m >>= f) final := by
  intro clock frame
  obtain ⟨a,later,left,heq,hafter⟩ := h clock (rest+frame)
  obtain ⟨b,last,kept,hstep,hfinal⟩ := hnext a left hafter later frame
  refine ⟨b,last,kept,?_,hfinal⟩
  rw [bind_eq,hwhole,add_assoc,heq,Option.bind_some,← add_assoc]
  exact hstep

/-- A program that needs nothing, before another. -/
theorem Triple.gain_bind (h : Triple env 0 m after)
    (hnext : ∀ a left, after a left → Triple env (left+before) (f a) final) :
    Triple env before (m >>= f) final :=
  h.bind (zero_add before).symm hnext

/-- A program that leaves nothing, before another. -/
theorem Triple.spend_bind {whole : Multiset κ} (h : Triple env before m fun _ left => left=0)
    (hwhole : whole=before+rest) (hnext : ∀ a, Triple env rest (f a) final) :
    Triple env whole (m >>= f) final := by
  refine h.bind hwhole fun a left hleft => ?_
  rw [hleft,zero_add]
  exact hnext a

/-- A call, whatever it returns. -/
theorem Triple.call_bind {i : ι} {f : ℤ → Program ι κ β}
    (h : ∀ t, Triple env before (f (env i t)) final) :
    Triple env before (call i >>= f) final :=
  fun clock frame => h clock (clock+1) frame

/-- A new resource. -/
theorem Triple.take_bind {r : ℕ → κ} {f : ℕ → Program ι κ β}
    (h : ∀ n, Triple env ({r n}+before) (f n) final) :
    Triple env before (take r >>= f) final := by
  intro clock frame
  obtain ⟨b,later,left,heq,hfinal⟩ := h clock (clock+1) frame
  rw [add_assoc,Multiset.singleton_add] at heq
  exact ⟨b,later,left,heq,hfinal⟩

/-- A resource with a name. -/
theorem Triple.hold_bind {r : κ} {f : Unit → Program ι κ β}
    (h : Triple env ({r}+before) (f ()) final) : Triple env before (hold r >>= f) final := by
  intro clock frame
  obtain ⟨b,later,left,heq,hfinal⟩ := h clock frame
  rw [add_assoc,Multiset.singleton_add] at heq
  exact ⟨b,later,left,heq,hfinal⟩

variable [DecidableEq κ]

/-- Giving back takes what is held. -/
theorem Triple.release {r : κ} {whole : Multiset κ} (hwhole : whole={r}+rest) :
    Triple env whole (release r) fun _ left => left=rest := by
  intro clock frame
  refine ⟨(),clock,rest,?_,rfl⟩
  have hheld : whole+frame=r ::ₘ (rest+frame) := by
    rw [hwhole,add_assoc,Multiset.singleton_add]
  simp only [Ownership.release,hheld,Multiset.mem_cons_self,if_true,Multiset.erase_cons_head]

/-- A program after a resource is given back. -/
theorem Triple.release_bind {r : κ} {whole : Multiset κ} {f : Unit → Program ι κ β}
    (hwhole : whole={r}+rest) (h : Triple env rest (f ()) final) :
    Triple env whole (Ownership.release r >>= f) final := by
  refine Triple.bind (Triple.release hwhole) (add_zero whole).symm fun _ left hleft => ?_
  rw [hleft,add_zero]
  exact h

/-- A program after a resource is used. -/
theorem Triple.touch_bind {r : κ} {f : Unit → Program ι κ β} (hr : r∈before)
    (h : Triple env before (f ()) final) : Triple env before (touch r >>= f) final := by
  intro clock frame
  obtain ⟨b,later,left,heq,hfinal⟩ := h clock frame
  refine ⟨b,later,left,?_,hfinal⟩
  have huse : (touch r : Program ι κ Unit) env ⟨clock,before+frame⟩=some ((),⟨clock,before+frame⟩) :=
    if_pos (Multiset.mem_add.mpr (Or.inl hr))
  rw [bind_eq,huse,Option.bind_some]
  exact heq

/-- All of a list is given back. -/
theorem Triple.releaseAll (rs : List κ) :
    Triple env (rs : Multiset κ) (releaseAll rs) fun _ left => left=0 := by
  induction rs with
  | nil => exact Triple.pure Multiset.coe_nil
  | cons r rs ih =>
    refine Triple.release_bind ?_ ih
    rw [Multiset.singleton_add,Multiset.cons_coe]

/-- A program after a list is given back. -/
theorem Triple.releaseAll_bind {rs : List κ} {whole : Multiset κ} {f : Unit → Program ι κ β}
    (hwhole : whole=rs+rest) (h : Triple env rest (f ()) final) :
    Triple env whole (Ownership.releaseAll rs >>= f) final :=
  (Triple.releaseAll rs).spend_bind hwhole fun _ => h

/-- All of a list is used. -/
theorem Triple.touchAll {rs : List κ} (hrs : ∀ r∈rs,r∈before) :
    Triple env before (touchAll rs) fun _ left => left=before := by
  induction rs with
  | nil => exact Triple.pure rfl
  | cons r rs ih =>
    exact Triple.touch_bind (hrs r List.mem_cons_self)
      (ih fun r hr => hrs r (List.mem_cons_of_mem _ hr))

/-- A program after a list is used. -/
theorem Triple.touchAll_bind {rs : List κ} {f : Unit → Program ι κ β} (hrs : ∀ r∈rs,r∈before)
    (h : Triple env before (f ()) final) :
    Triple env before (Ownership.touchAll rs >>= f) final := by
  refine (Triple.touchAll hrs).bind (add_zero before).symm fun _ left hleft => ?_
  rw [hleft,add_zero]
  exact h

end Rules

end Ownership
