import Shoreline.Library.StateMachine

/-!
# Forward simulation

One machine simulates another when each step of that one is a run of it, of
any length, over related states. The steps of the runs are collected along a
run of the simulated machine, and the simulation is lifted to runs once.
-/

namespace Simulation

open StateMachine

variable {ι ι' ρ ρ' σ τ : Type*}

/-- What the inputs of a run stand for, in the states in which they are issued. -/
def trace (step : Step ι ρ σ) (moves : σ → ι → List ι') : σ → List ι → List ι'
  | _,[] => []
  | s,i::is => moves s i++(step s i).elim [] fun out => trace step moves out.2 is

/-- Inputs that are admitted one list after the other are admitted together. -/
theorem admitted_append {pre : τ → ι' → Prop} {spec : Step ι' ρ' τ} {t : τ} {is js : List ι'}
    (his : Admitted pre spec t is)
    (hjs : ∀ rs t', run spec t is=some (rs,t') → Admitted pre spec t' js) :
    Admitted pre spec t (is++js) := by
  induction is generalizing t with
  | nil => exact hjs [] t rfl
  | cons i is ih =>
    refine ⟨his.1,fun r t' hi => ih (his.2 r t' hi) fun rs u hrun => hjs (r::rs) u ?_⟩
    rw [run_cons is hi,hrun,Option.map_some]

/-- A run over two lists gets stuck where the first or the second part does. -/
theorem run_append_none {spec : Step ι' ρ' τ} {t : τ} {is : List ι'} (js : List ι')
    (h : run spec t is=none) : run spec t (is++js)=none := by
  induction is generalizing t with
  | nil => cases h
  | cons i is ih =>
    cases hi : spec t i with
    | none => rw [List.cons_append,run,hi]
    | some out =>
      rw [run_cons is hi,Option.map_eq_none_iff] at h
      rw [List.cons_append,run_cons (is++js) hi,ih h,Option.map_none]

section Forward

variable {pre : σ → ι → Prop} {step : Step ι ρ σ} {pre' : τ → ι' → Prop} {spec : Step ι' ρ' τ}
  {rel : σ → τ → Prop} {moves : σ → ι → List ι'}

/-- What is required of one step: what it stands for is admitted, goes through
when the step does, leads to related states, and gets stuck otherwise. -/
structure Simulates (pre : σ → ι → Prop) (step : Step ι ρ σ) (pre' : τ → ι' → Prop)
    (spec : Step ι' ρ' τ) (rel : σ → τ → Prop) (moves : σ → ι → List ι') : Prop where
  /-- It is admitted. -/
  admitted : ∀ s t i, rel s t → pre s i → Admitted pre' spec t (moves s i)
  /-- It follows a step that goes through. -/
  follows : ∀ s t i r s', rel s t → pre s i → step s i=some (r,s') →
    ∃ rs t', run spec t (moves s i)=some (rs,t') ∧ rel s' t'
  /-- It is stuck where the step is. -/
  stuck : ∀ s t i, rel s t → pre s i → step s i=none → run spec t (moves s i)=none

/-- A run that goes through stands for a run over related states. -/
theorem Simulates.run (h : Simulates pre step pre' spec rel moves) {s s' : σ} {t : τ}
    {is : List ι} {rs : List ρ} (hrel : rel s t) (hadm : Admitted pre step s is)
    (hrun : StateMachine.run step s is=some (rs,s')) :
    Admitted pre' spec t (trace step moves s is) ∧
      ∃ rs' t', StateMachine.run spec t (trace step moves s is)=some (rs',t') ∧ rel s' t' := by
  induction is generalizing s t rs with
  | nil =>
    cases hrun
    exact ⟨trivial,[],t,rfl,hrel⟩
  | cons i is ih =>
    obtain ⟨r,u,rest,hi,hrest,rfl⟩ := of_run_cons hrun
    obtain ⟨rs₁,v,hfirst,huv⟩ := h.follows s t i r u hrel hadm.1 hi
    obtain ⟨hadm',rs₂,t',hsecond,hend⟩ := ih huv (hadm.2 r u hi) hrest
    rw [trace,hi]
    refine ⟨admitted_append (h.admitted s t i hrel hadm.1) fun rs w hw => ?_,rs₁++rs₂,t',?_,hend⟩
    · rw [hfirst] at hw
      cases hw
      exact hadm'
    · rw [run_append hfirst]
      exact congrArg (Option.map _) hsecond

/-- A run that gets stuck stands for one that gets stuck. -/
theorem Simulates.run_stuck (h : Simulates pre step pre' spec rel moves) {s : σ} {t : τ}
    {is : List ι} (hrel : rel s t) (hadm : Admitted pre step s is)
    (hrun : StateMachine.run step s is=none) :
    StateMachine.run spec t (trace step moves s is)=none := by
  induction is generalizing s t with
  | nil => cases hrun
  | cons i is ih =>
    cases hi : step s i with
    | none =>
      rw [trace]
      exact run_append_none _ (h.stuck s t i hrel hadm.1 hi)
    | some out =>
      obtain ⟨rs₁,v,hfirst,huv⟩ := h.follows s t i out.1 out.2 hrel hadm.1 hi
      rw [run_cons is hi,Option.map_eq_none_iff] at hrun
      rw [trace,hi,run_append hfirst,Option.elim,ih huv (hadm.2 _ _ hi) hrun,Option.map_none]

end Forward

end Simulation
