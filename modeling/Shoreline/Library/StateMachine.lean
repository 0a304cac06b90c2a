import Mathlib.Data.List.Basic
import Mathlib.Tactic.Common

/-!
# Runs of partial state machines

A machine answers an input by a reply and a successor state, or gets stuck.
Inputs may be subject to a caller's contract that is checked in the state
in which they are issued. Invariants and step-wise refinements are lifted
once from one step to whole runs, for arbitrary inputs, replies and states.
-/

namespace StateMachine

variable {ι ρ σ τ ω : Type*}

/-- One partial step: reply and successor state, or `none` when stuck. -/
abbrev Step (ι ρ σ : Type*) := σ → ι → Option (ρ×σ)

/-- Answer a list of inputs in order; a stuck step makes the run stuck. -/
def run (step : Step ι ρ σ) : σ → List ι → Option (List ρ×σ)
  | s,[] => some ([],s)
  | s,i::is =>
    match step s i with
    | none => none
    | some (r,s') =>
      match run step s' is with
      | none => none
      | some (rs,t) => some (r::rs,t)

/-- Every input meets the contract in the state in which it is issued. -/
def Admitted (pre : σ → ι → Prop) (step : Step ι ρ σ) : σ → List ι → Prop
  | _,[] => True
  | s,i::is => pre s i ∧ ∀ r s', step s i=some (r,s') → Admitted pre step s' is

/-- Decidable contracts make admission decidable. -/
instance decidableAdmitted (pre : σ → ι → Prop) [∀ s i, Decidable (pre s i)]
    (step : Step ι ρ σ) : ∀ s is, Decidable (Admitted pre step s is)
  | _,[] => isTrue trivial
  | s,i::is =>
    match h : step s i with
    | none => decidable_of_iff (pre s i)
        ⟨fun hp => ⟨hp,fun _ _ he => by rw [h] at he; cases he⟩,And.left⟩
    | some (r,s') =>
      have := decidableAdmitted pre step s' is
      decidable_of_iff (pre s i ∧ Admitted pre step s' is)
        ⟨fun hp => ⟨hp.1,fun _ _ he => by rw [h] at he; cases he; exact hp.2⟩,
          fun hp => ⟨hp.1,hp.2 r s' h⟩⟩

/-- The first inputs of an admitted list are admitted. -/
theorem Admitted.append_left {pre : σ → ι → Prop} {step : Step ι ρ σ} {s : σ} {is js : List ι}
    (h : Admitted pre step s (is++js)) : Admitted pre step s is := by
  induction is generalizing s with
  | nil => trivial
  | cons i is ih => exact ⟨h.1,fun r s' hs => ih (h.2 r s' hs)⟩

/-- A condition on the inputs alone can join the contract. -/
theorem Admitted.and_forall {pre : σ → ι → Prop} {step : Step ι ρ σ} {good : ι → Prop} {s : σ}
    {is : List ι} (h : Admitted pre step s is) (hgood : ∀ i∈is,good i) :
    Admitted (fun s i => good i ∧ pre s i) step s is := by
  induction is generalizing s with
  | nil => trivial
  | cons i is ih =>
    obtain ⟨hi,his⟩ := List.forall_mem_cons.mp hgood
    exact ⟨⟨hi,h.1⟩,fun r s' hs => ih (h.2 r s' hs) his⟩

/-- A weaker contract admits more. -/
theorem Admitted.mono {pre pre' : σ → ι → Prop} {step : Step ι ρ σ} {s : σ} {is : List ι}
    (hmono : ∀ s i, pre s i → pre' s i) (h : Admitted pre step s is) : Admitted pre' step s is := by
  induction is generalizing s with
  | nil => trivial
  | cons i is ih => exact ⟨hmono s i h.1,fun r s' hs => ih (h.2 r s' hs)⟩

/-- A run answers its first input, then the others. -/
theorem run_cons {step : Step ι ρ σ} {s s' : σ} {i : ι} {r : ρ} (is : List ι)
    (h : step s i=some (r,s')) :
    run step s (i::is)=(run step s' is).map fun out => (r::out.1,out.2) := by
  rw [run,h]
  dsimp only
  cases run step s' is <;> rfl

/-- A run that goes through is its first step, and the run of the others. -/
theorem of_run_cons {step : Step ι ρ σ} {s t : σ} {i : ι} {is : List ι} {rs : List ρ}
    (h : run step s (i::is)=some (rs,t)) :
    ∃ r s' rs', step s i=some (r,s') ∧ run step s' is=some (rs',t) ∧ rs=r::rs' := by
  cases hi : step s i with
  | none => simp only [run,hi,reduceCtorEq] at h
  | some out =>
    rw [run_cons is hi,Option.map_eq_some_iff] at h
    obtain ⟨rest,hrest,hout⟩ := h
    cases hout
    exact ⟨out.1,out.2,rest.1,rfl,hrest,rfl⟩

/-- Behind an admitted run the further inputs are admitted. -/
theorem Admitted.append_right {pre : σ → ι → Prop} {step : Step ι ρ σ} {s t : σ} {is js : List ι}
    {rs : List ρ} (h : Admitted pre step s (is++js)) (hrun : run step s is=some (rs,t)) :
    Admitted pre step t js := by
  induction is generalizing s rs with
  | nil =>
    cases hrun
    exact h
  | cons i is ih =>
    obtain ⟨r,s',rs',hi,hrest,rfl⟩ := of_run_cons hrun
    exact ih (h.2 r s' hi) hrest

/-- A run goes on behind another one. -/
theorem run_append {step : Step ι ρ σ} {s t : σ} {is : List ι} {rs : List ρ}
    (h : run step s is=some (rs,t)) (js : List ι) :
    run step s (is++js)=(run step t js).map fun out => (rs++out.1,out.2) := by
  induction is generalizing s rs with
  | nil =>
    cases h
    simp
  | cons i is ih =>
    obtain ⟨r,s',rs',hi,hrest,rfl⟩ := of_run_cons h
    rw [List.cons_append,run_cons (is++js) hi,ih hrest,Option.map_map]
    rfl

/-- A run over two lists is one over the first and one over the second. -/
theorem run_append_split {step : Step ι ρ σ} {s t : σ} {is js : List ι} {rs : List ρ}
    (h : run step s (is++js)=some (rs,t)) :
    ∃ rs₁ u rs₂, run step s is=some (rs₁,u) ∧ run step u js=some (rs₂,t) := by
  induction is generalizing s rs with
  | nil => exact ⟨[],s,rs,rfl,h⟩
  | cons i is ih =>
    rw [List.cons_append] at h
    obtain ⟨r,s',rs',hi,hrest,rfl⟩ := of_run_cons h
    obtain ⟨rs₁,u,rs₂,hfirst,hsecond⟩ := ih hrest
    exact ⟨r::rs₁,u,rs₂,by rw [run_cons is hi,hfirst,Option.map_some],hsecond⟩

/-- A list of inputs is admitted when each input meets the contract in every
state in which it is issued. -/
theorem admitted_iff {pre : σ → ι → Prop} {step : Step ι ρ σ} {s : σ} {is : List ι} :
    Admitted pre step s is ↔ ∀ before i after rs t, is=before++i::after →
      run step s before=some (rs,t) → pre t i := by
  constructor
  · rintro h before i after rs t rfl hrun
    exact (h.append_right hrun).1
  · induction is generalizing s with
    | nil => exact fun _ => trivial
    | cons i is ih =>
      intro h
      refine ⟨h [] i is [] s rfl rfl,fun r s' hi => ih fun before j after rs t he hrun => ?_⟩
      refine h (i::before) j after (r::rs) t (by rw [he,List.cons_append]) ?_
      rw [run_cons before hi,hrun,Option.map_some]

/-- Where every admitted step succeeds and keeps an invariant, so does every
run whose inputs are all admitted. -/
theorem run_total {pre : σ → ι → Prop} {step : Step ι ρ σ} {inv : σ → Prop}
    (hstep : ∀ s i, inv s → pre s i → ∃ r s', step s i=some (r,s') ∧ inv s')
    {s : σ} {is : List ι} (hs : inv s) (hadm : Admitted pre step s is) :
    ∃ rs t, run step s is=some (rs,t) ∧ inv t := by
  induction is generalizing s with
  | nil => exact ⟨[],s,rfl,hs⟩
  | cons i is ih =>
    obtain ⟨r,s',hi,hinv⟩ := hstep s i hs hadm.1
    obtain ⟨rs,t,hrun,hend⟩ := ih hinv (hadm.2 r s' hi)
    exact ⟨r::rs,t,by rw [run_cons is hi,hrun,Option.map_some],hend⟩

/-- Where a step makes something happen exactly for some inputs, it has
happened in a run exactly when one of them was among its inputs. -/
theorem run_happened {pre : σ → ι → Prop} {step : Step ι ρ σ} {inv happened : σ → Prop}
    {event : ι → Prop}
    (hstep : ∀ s i, inv s → pre s i → ∃ r s', step s i=some (r,s') ∧ inv s' ∧
      (happened s' ↔ happened s ∨ event i))
    {s : σ} {is : List ι} (hs : inv s) (hadm : Admitted pre step s is) :
    ∃ rs t, run step s is=some (rs,t) ∧ inv t ∧ (happened t ↔ happened s ∨ ∃ i∈is,event i) := by
  induction is generalizing s with
  | nil => exact ⟨[],s,rfl,hs,by simp⟩
  | cons i is ih =>
    obtain ⟨r,s',hi,hinv,hone⟩ := hstep s i hs hadm.1
    obtain ⟨rs,t,hrun,hend,hall⟩ := ih hinv (hadm.2 r s' hi)
    refine ⟨r::rs,t,by rw [run_cons is hi,hrun,Option.map_some],hend,?_⟩
    rw [hall,hone,List.exists_mem_cons_iff,or_assoc]

/-- What every admitted step keeps holds at the end of every admitted run. -/
theorem run_invariant {pre : σ → ι → Prop} {step : Step ι ρ σ} {inv : σ → Prop}
    (hkeep : ∀ s i r s', inv s → pre s i → step s i=some (r,s') → inv s')
    {s t : σ} {is : List ι} {rs : List ρ} (hs : inv s) (hadm : Admitted pre step s is)
    (hrun : run step s is=some (rs,t)) : inv t := by
  induction is generalizing s rs with
  | nil =>
    cases hrun
    exact hs
  | cons i is ih =>
    obtain ⟨r,s',rs',hi,hrest,rfl⟩ := of_run_cons hrun
    exact ih (hkeep s i r s' hs hadm.1 hi) (hadm.2 r s' hi) hrest

/-- Where a step makes something happen exactly at some inputs, it has happened
in a run exactly when one of its inputs was issued so. -/
theorem run_occurred {pre : σ → ι → Prop} {step : Step ι ρ σ} {inv happened : σ → Prop}
    {event : σ → ι → Prop}
    (hstep : ∀ s i r s', inv s → pre s i → step s i=some (r,s') →
      inv s' ∧ (happened s' ↔ happened s ∨ event s i))
    {s t : σ} {is : List ι} {rs : List ρ} (hs : inv s) (hadm : Admitted pre step s is)
    (hrun : run step s is=some (rs,t)) :
    happened t ↔ happened s ∨ ∃ before i after rs' u, is=before++i::after ∧
      run step s before=some (rs',u) ∧ event u i := by
  induction is generalizing s rs with
  | nil =>
    cases hrun
    simp
  | cons i is ih =>
    obtain ⟨r,s',rest,hi,hrest,rfl⟩ := of_run_cons hrun
    obtain ⟨hinv,hone⟩ := hstep s i r s' hs hadm.1 hi
    rw [ih hinv (hadm.2 r s' hi) hrest,hone,or_assoc]
    refine or_congr_right ⟨?_,?_⟩
    · rintro (hevent | ⟨before,j,after,rs',u,he,hbefore,hevent⟩)
      · exact ⟨[],i,is,[],s,rfl,rfl,hevent⟩
      · refine ⟨i::before,j,after,r::rs',u,by rw [he,List.cons_append],?_,hevent⟩
        rw [run_cons before hi,hbefore,Option.map_some]
    · rintro ⟨before,j,after,rs',u,he,hbefore,hevent⟩
      cases before with
      | nil =>
        cases he
        cases hbefore
        exact Or.inl hevent
      | cons i' before =>
        rw [List.cons_append,List.cons.injEq] at he
        obtain ⟨rfl,he⟩ := he
        rw [run_cons before hi,Option.map_eq_some_iff] at hbefore
        obtain ⟨out',hbefore,hout⟩ := hbefore
        cases hout
        exact Or.inr ⟨before,j,after,out'.1,out'.2,he,hbefore,hevent⟩

/-- What is observed in a run, in order. -/
def trace (observe : σ → ι → List ω) (step : Step ι ρ σ) : σ → List ι → List ω
  | _,[] => []
  | s,i::is =>
    match step s i with
    | none => []
    | some (_,s') => observe s i++trace observe step s' is

/-- A run has observed something at its first input, then at the others. -/
theorem trace_cons {observe : σ → ι → List ω} {step : Step ι ρ σ} {s s' : σ} {i : ι} {r : ρ}
    (is : List ι) (h : step s i=some (r,s')) :
    trace observe step s (i::is)=observe s i++trace observe step s' is := by
  rw [trace,h]

/-- What every admitted step keeps, of the state and of all that was observed
before, holds at the end of every admitted run. -/
theorem run_trace {pre : σ → ι → Prop} {step : Step ι ρ σ} {observe : σ → ι → List ω}
    {inv : σ → List ω → Prop}
    (hkeep : ∀ s past i r s', inv s past → pre s i → step s i=some (r,s') →
      inv s' (past++observe s i))
    {s t : σ} {past : List ω} {is : List ι} {rs : List ρ} (hs : inv s past)
    (hadm : Admitted pre step s is) (hrun : run step s is=some (rs,t)) :
    inv t (past++trace observe step s is) := by
  induction is generalizing s past rs with
  | nil =>
    cases hrun
    rwa [trace,List.append_nil]
  | cons i is ih =>
    obtain ⟨r,s',rs',hi,hrest,rfl⟩ := of_run_cons hrun
    rw [trace_cons is hi,←List.append_assoc]
    exact ih (hkeep s past i r s' hs hadm.1 hi) (hadm.2 r s' hi) hrest

/-- Where an invariant tells the inputs at which a step gets stuck, a run
gets stuck exactly at the first of them. -/
theorem run_eq_none_iff {pre : σ → ι → Prop} {step : Step ι ρ σ} {inv : σ → Prop}
    {bad : σ → ι → Prop}
    (hkeep : ∀ s i r s', inv s → pre s i → step s i=some (r,s') → inv s')
    (hbad : ∀ s i, inv s → pre s i → (step s i=none ↔ bad s i))
    {s : σ} {is : List ι} (hs : inv s) (hadm : Admitted pre step s is) :
    run step s is=none ↔ ∃ before i after rs t, is=before++i::after ∧
      run step s before=some (rs,t) ∧ bad t i := by
  induction is generalizing s with
  | nil =>
    constructor
    · intro h
      cases h
    · rintro ⟨before,i,after,_,_,he,_⟩
      exact absurd he.symm (List.append_ne_nil_of_right_ne_nil before (List.cons_ne_nil i after))
  | cons i is ih =>
    cases hi : step s i with
    | none =>
      constructor
      · intro _
        exact ⟨[],i,is,[],s,rfl,rfl,(hbad s i hs hadm.1).mp hi⟩
      · intro _
        simp only [run,hi]
    | some out =>
      rw [run_cons is hi,Option.map_eq_none_iff,ih (hkeep s i out.1 out.2 hs hadm.1 hi) (hadm.2 _ _ hi)]
      constructor
      · rintro ⟨before,j,after,rs,t,he,hrun,hj⟩
        refine ⟨i::before,j,after,out.1::rs,t,by rw [he,List.cons_append],?_,hj⟩
        rw [run_cons before hi,hrun,Option.map_some]
      · rintro ⟨before,j,after,rs,t,he,hrun,hj⟩
        cases before with
        | nil =>
          cases he
          cases hrun
          rw [(hbad s i hs hadm.1).mpr hj] at hi
          cases hi
        | cons i' before =>
          rw [List.cons_append,List.cons.injEq] at he
          obtain ⟨rfl,he⟩ := he
          rw [run_cons before hi,Option.map_eq_some_iff] at hrun
          obtain ⟨out',hrun,hout⟩ := hrun
          cases hout
          exact ⟨before,j,after,out'.1,out'.2,he,hrun,hj⟩

/-- Step-wise refinement, lifted to runs: related states answer admitted
inputs alike, never get stuck, and stay related. -/
theorem run_refines {pre : σ → ι → Prop} {step : Step ι ρ σ} {spec : Step ι ρ τ}
    {rel : σ → τ → Prop}
    (hstep : ∀ s t i, rel s t → pre s i →
      ∃ r s' t', step s i=some (r,s') ∧ spec t i=some (r,t') ∧ rel s' t')
    {s : σ} {t : τ} {is : List ι} (hrel : rel s t) (hadm : Admitted pre step s is) :
    ∃ rs s' t', run step s is=some (rs,s') ∧ run spec t is=some (rs,t') ∧ rel s' t' := by
  induction is generalizing s t with
  | nil => exact ⟨[],s,t,rfl,rfl,hrel⟩
  | cons i is ih =>
    obtain ⟨r,s',t',hs,ht,hrel'⟩ := hstep s t i hrel hadm.1
    obtain ⟨rs,s'',t'',hrs,hrt,hend⟩ := ih hrel' (hadm.2 r s' hs)
    refine ⟨r::rs,s'',t'',?_,?_,hend⟩
    · rw [run_cons is hs,hrs,Option.map_some]
    · rw [run_cons is ht,hrt,Option.map_some]

/-- Where every state that is not done has an admitted step which keeps an
invariant and comes closer by some measure, every state has an admitted run to
one that is done. -/
theorem exists_completing {pre : σ → ι → Prop} {step : Step ι ρ σ} {inv done : σ → Prop}
    (measure : σ → ℕ)
    (hstep : ∀ s, inv s → ¬done s → ∃ i r s', pre s i ∧ step s i=some (r,s') ∧ inv s' ∧
      measure s' < measure s) {s : σ} (hs : inv s) :
    ∃ is rs t, Admitted pre step s is ∧ run step s is=some (rs,t) ∧ inv t ∧ done t := by
  induction hn : measure s using Nat.strongRecOn generalizing s with
  | ind n ih =>
    by_cases hdone : done s
    · exact ⟨[],[],s,trivial,rfl,hs,hdone⟩
    · obtain ⟨i,r,s',hpre,hi,hinv,hlt⟩ := hstep s hs hdone
      obtain ⟨is,rs,t,hadm,hrun,hend⟩ := ih (measure s') (hn▸hlt) hinv rfl
      refine ⟨i::is,r::rs,t,⟨hpre,fun r' u hu => ?_⟩,?_,hend⟩
      · rw [hi] at hu
        cases hu
        exact hadm
      · rw [run_cons is hi,hrun,Option.map_some]

end StateMachine
