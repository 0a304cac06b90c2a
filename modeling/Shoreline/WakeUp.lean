import Shoreline.WorkQueue

/-!
# Waiting workers

The worker waits before it looks for entries, and `do_exit` is set without
the mutex. So a broadcast may come before the wait that it should end: when
something was queued before the first wait, or when the queue is stopped
between the test and the wait. Other waits begin with an empty list.
-/

namespace Shoreline.WakeUp

open StateMachine LinkedList WorkQueue

/-- A broadcast is still to come. -/
def Outstanding (s : Queue) : Prop := (∃ call∈s.calls,call.pc≠.returned) ∨ s.stop=.exiting

/-- A worker that waits without a broadcast to come has nothing to do. -/
def NoneMissed (s : Queue) : Prop :=
  s.worker=.waiting → ¬Outstanding s → llistIsEmpty s.heap 0=true ∧ s.doExit=false

/-- A wait that begins in this state misses nothing: a broadcast is still to
come, or the queue is not being stopped, and if it is the first wait nothing
is queued yet. -/
def Timely (s : Queue) : Prop :=
  Outstanding s ∨ s.doExit=false ∧ (s.waited=false → llistIsEmpty s.heap 0=true)

instance (s : Queue) : Decidable (Outstanding s) := inferInstanceAs (Decidable (_ ∨ _))

instance (s : Queue) : Decidable (Timely s) := inferInstanceAs (Decidable (_ ∨ _ ∧ (_ → _)))

/-- The worker holds the mutex. -/
def locks : WorkerPc → Bool
  | .testing => true
  | .atWait => true
  | .draining => true
  | .holding _ => true
  | .freeing _ => true
  | _ => false

/-- What the mutex protects. -/
structure LockInv (s : Queue) : Prop where
  /-- The worker is the holder where it has the mutex. -/
  worker : locks s.worker=true → s.lock=some .worker
  /-- So is a call. -/
  call : ∀ n, pcOf s.calls n=some .locked ∨ pcOf s.calls n=some .appended → s.lock=some (.call n)
  /-- The worker has ended when the rest is removed. -/
  joined : s.stop=.draining ∨ s.stop=.stopped → s.worker=.ended
  /-- The worker has not waited before it starts. -/
  fresh : s.worker=.starting → s.waited=false
  /-- Behind a wait, the worker leaves the inner loop for one of its reasons. -/
  testing : s.worker=.testing → s.waited=true → llistIsEmpty s.heap 0=true ∨ s.doExit=true
  /-- Behind a wait, the next one begins with an empty list. -/
  atWait : s.worker=.atWait → s.waited=true → llistIsEmpty s.heap 0=true

variable {s s' : Queue}

/-- The calls once one of them has gone on. -/
theorem getElem?_setPc (calls : List Call) (n m : ℕ) (pc : CallPc) :
    (setPc calls n pc)[m]?=
      if n=m then calls[m]?.map fun call => {call with pc := pc} else calls[m]? := by
  unfold setPc
  rw [List.getElem?_modify]
  cases calls[m]? <;> by_cases h : n=m <;> simp [h]

/-- The calls once one more has begun. -/
theorem getElem?_concat (calls : List Call) (call : Call) (m : ℕ) :
    (calls++[call])[m]?=if m=calls.length then some call else calls[m]? := by
  rcases Nat.lt_trichotomy m calls.length with h | h | h
  · rw [List.getElem?_append_left h,if_neg (by omega)]
  · rw [h,List.getElem?_append_right (Nat.le_refl _),if_pos rfl,Nat.sub_self]
    rfl
  · rw [List.getElem?_append_right (by omega),if_neg (by omega),
      List.getElem?_eq_none (by simp; omega),List.getElem?_eq_none (by omega)]

/-- How far a call is once another one, or it, has gone on. -/
theorem pcOf_setPc (calls : List Call) (n m : ℕ) (pc : CallPc) :
    pcOf (setPc calls n pc) m=if n=m then (pcOf calls m).map fun _ => pc else pcOf calls m := by
  unfold pcOf
  rw [getElem?_setPc]
  split <;> simp [Function.comp_def]

/-- How far calls are once one more has begun. -/
theorem pcOf_append (calls : List Call) (call : Call) (m : ℕ) :
    pcOf (calls++[call]) m=if m=calls.length then some call.pc else pcOf calls m := by
  unfold pcOf
  rw [getElem?_concat]
  split <;> rfl

/-- While the worker holds the mutex no call does. -/
theorem LockInv.no_call (h : LockInv s) (hlock : s.lock=some .worker ∨ s.lock=none) (n : ℕ) :
    pcOf s.calls n≠some .locked ∧ pcOf s.calls n≠some .appended := by
  constructor
  · intro hc
    have hl := h.call n (Or.inl hc)
    rcases hlock with hlock | hlock <;> simp [hlock] at hl
  · intro hc
    have hl := h.call n (Or.inr hc)
    rcases hlock with hlock | hlock <;> simp [hlock] at hl

/-- While a call holds the mutex the worker does not. -/
theorem LockInv.not_locks (h : LockInv s) (hlock : s.lock≠some .worker) : locks s.worker=false :=
  eq_false_of_ne_true fun hc => hlock (h.worker hc)

/-- It holds at the start. -/
theorem lockInv_fresh : LockInv freshQueue where
  worker h := by cases h
  call n h := by rcases h with h | h <;> cases h
  joined h := by rcases h with h | h <;> cases h
  fresh _ := rfl
  testing h := by cases h
  atWait h := by cases h

/-- Where the worker is past its test and not about to wait, the mutex is all
there is to it. -/
theorem LockInv.of_busy (hworker : locks s.worker=true → s.lock=some .worker)
    (hcall : ∀ n, pcOf s.calls n=some .locked ∨ pcOf s.calls n=some .appended →
      s.lock=some (.call n))
    (hjoined : s.stop=.draining ∨ s.stop=.stopped → s.worker=.ended)
    (hpc : s.worker≠.starting ∧ s.worker≠.testing ∧ s.worker≠.atWait) : LockInv s where
  worker := hworker
  call := hcall
  joined := hjoined
  fresh h := absurd h hpc.1
  testing h := absurd h hpc.2.1
  atWait h := absurd h hpc.2.2

/-- A broadcast keeps it. -/
theorem LockInv.broadcast (h : LockInv s) : LockInv {s with worker := broadcast s.worker} := by
  cases hs : s.worker with
  | waiting =>
    refine .of_busy (fun hw => by cases hw) h.call (fun hj => ?_)
      ⟨by simp [WorkQueue.broadcast],by simp [WorkQueue.broadcast],by simp [WorkQueue.broadcast]⟩
    have hended := h.joined hj
    rw [hs] at hended
    cases hended
  | _ =>
    rw [show WorkQueue.broadcast _=s.worker by rw [hs]; rfl]
    exact h

/-- A worker that has not ended is not joined. -/
theorem LockInv.not_joined (h : LockInv s) (hpc : s.worker≠.ended) :
    ¬(s.stop=.draining ∨ s.stop=.stopped) := fun hj => hpc (h.joined hj)

/-- The callback of an entry leaves the worker with the entry to give back,
still with the mutex or without it. -/
theorem workerRun_frame (s : Queue) (entry : ℕ) (err handled : ℤ) :
    (workerRun s entry err handled).heap=s.heap ∧ (workerRun s entry err handled).calls=s.calls ∧
    (workerRun s entry err handled).stop=s.stop ∧
    ((workerRun s entry err handled).worker=.freeing entry ∧
        (workerRun s entry err handled).lock=s.lock ∨
      (workerRun s entry err handled).worker=.leaving entry ∧
        (workerRun s entry err handled).lock=none) := by
  unfold workerRun
  dsimp only
  split
  · exact ⟨rfl,rfl,rfl,Or.inl ⟨rfl,rfl⟩⟩
  · split
    · split
      · exact ⟨rfl,rfl,rfl,Or.inl ⟨rfl,rfl⟩⟩
      · exact ⟨rfl,rfl,rfl,Or.inr ⟨rfl,rfl⟩⟩
    · exact ⟨rfl,rfl,rfl,Or.inl ⟨rfl,rfl⟩⟩

/-- A call takes the mutex. -/
theorem LockInv.lockCall (h : LockInv s) {n : ℕ} (hlock : s.lock=none) :
    LockInv {s with lock := some (.call n), calls := setPc s.calls n .locked} := by
  have hfree := h.not_locks (by simp [hlock])
  refine ⟨fun hw => ?_,fun m hm => ?_,h.joined,h.fresh,h.testing,h.atWait⟩
  · rw [hfree] at hw
    cases hw
  · rw [pcOf_setPc] at hm
    split at hm
    · rename_i hnm
      rw [hnm]
    · have hno := h.no_call (Or.inr hlock) m
      exact absurd hm (not_or.mpr hno)

/-- It appends its entry, and keeps the mutex. -/
theorem LockInv.appendCall (h : LockInv s) {n : ℕ} (hpc : pcOf s.calls n=some .locked) (heap : Heap)
    (appended : List ℕ) : LockInv {s with
      heap := heap
      calls := setPc s.calls n .appended
      appended := appended} := by
  have hlock := h.call n (Or.inl hpc)
  have hfree := h.not_locks (by simp [hlock])
  refine ⟨h.worker,fun m hm => ?_,h.joined,h.fresh,fun ht => ?_,fun ht => ?_⟩
  · rw [pcOf_setPc] at hm
    split at hm
    · rename_i hnm
      rw [←hnm]
      exact hlock
    · exact h.call m hm
  · rw [show s.worker=.testing from ht] at hfree
    cases hfree
  · rw [show s.worker=.atWait from ht] at hfree
    cases hfree

/-- It gives the mutex back. -/
theorem LockInv.unlockCall (h : LockInv s) {n : ℕ} (hpc : pcOf s.calls n=some .appended) :
    LockInv {s with lock := none, calls := setPc s.calls n .unlocked} := by
  have hlock := h.call n (Or.inr hpc)
  have hfree := h.not_locks (by simp [hlock])
  refine ⟨fun hw => ?_,fun m hm => ?_,h.joined,h.fresh,h.testing,h.atWait⟩
  · rw [hfree] at hw
    cases hw
  · rw [pcOf_setPc] at hm
    split at hm
    · cases hc : pcOf s.calls m <;> simp [hc] at hm
    · rename_i hnm
      have hl := (h.call m hm).symm.trans hlock
      cases hl
      exact absurd rfl hnm

/-- The worker takes the mutex, at its start or behind a wait. -/
theorem LockInv.lockWorker (h : LockInv s) (hpc : s.worker=.starting ∨ s.worker=.waking)
    (hlock : s.lock=none) : LockInv {s with
      lock := some .worker
      worker := if s.worker=.starting then .testing else .draining} := by
  refine ⟨fun _ => rfl,fun m hm => absurd hm (not_or.mpr (h.no_call (Or.inr hlock) m)),
    fun hj => ?_,fun hf => ?_,fun ht hwaited => ?_,fun ht => ?_⟩
  · have hended := h.joined hj
    rcases hpc with hpc | hpc <;> simp [hended] at hpc
  · dsimp only at hf
    split at hf <;> cases hf
  · rcases hpc with hpc | hpc
    · simp [h.fresh hpc] at hwaited
    · simp [hpc] at ht
  · dsimp only at ht
    split at ht <;> cases ht

/-- It tests `do_exit`. -/
theorem LockInv.test (h : LockInv s) (hpc : s.worker=.testing) :
    LockInv {s with worker := if s.doExit then .ended else .atWait} := by
  have hlock := h.worker (by simp [hpc,locks])
  refine ⟨fun _ => hlock,h.call,fun hj => ?_,fun hf => ?_,fun ht => ?_,fun ht hwaited => ?_⟩
  · exact absurd hj (h.not_joined (by simp [hpc]))
  · dsimp only at hf
    split at hf <;> cases hf
  · dsimp only at ht
    split at ht <;> cases ht
  · refine (h.testing hpc hwaited).resolve_right fun hexit => ?_
    simp [hexit] at ht

/-- It runs a callback. -/
theorem LockInv.run (h : LockInv s) {entry : ℕ} (hpc : s.worker=.holding entry) (err handled : ℤ) :
    LockInv (workerRun s entry err handled) := by
  have hlock := h.worker (by simp [hpc,locks])
  have hjoined := h.not_joined (by simp [hpc])
  obtain ⟨_,hcalls,hstop,hend⟩ := workerRun_frame s entry err handled
  have hno := fun m => not_or.mpr (h.no_call (Or.inl hlock) m)
  refine .of_busy (fun hw => ?_) (fun m hm => ?_) (fun hj => ?_) ?_
  · rcases hend with ⟨_,hl⟩ | ⟨hw',_⟩
    · rw [hl,hlock]
    · rw [hw'] at hw
      cases hw
  · rw [hcalls] at hm
    exact absurd hm (hno m)
  · rw [hstop] at hj
    exact absurd hj hjoined
  · rcases hend with ⟨hw,_⟩ | ⟨hw,_⟩ <;> simp [hw]

/-- Every step keeps it. -/
theorem lockInv_step {e : QueueEvent} {reply : Unit} (h : LockInv s) (hpossible : Possible s e)
    (hstep : queueStep s e=some (reply,s')) : LockInv s' := by
  cases e with
  | call item entry =>
    cases hstep
    refine ⟨h.worker,fun n hn => h.call n ?_,h.joined,h.fresh,h.testing,h.atWait⟩
    dsimp only [queueCall] at hn
    rw [pcOf_append] at hn
    split at hn
    · simp at hn
    · exact hn
  | lockCall n =>
    cases hstep
    exact h.lockCall hpossible.2
  | appendCall n =>
    obtain ⟨call,heap,_,_,rfl⟩ := appendCall_cases hstep
    exact h.appendCall hpossible heap _
  | unlockCall n =>
    cases hstep
    exact h.unlockCall hpossible
  | broadcastCall n =>
    cases hstep
    have hb := h.broadcast
    refine ⟨hb.worker,fun m hm => ?_,hb.joined,hb.fresh,hb.testing,hb.atWait⟩
    rw [pcOf_setPc] at hm
    split at hm
    · cases hc : pcOf s.calls m <;> simp [hc] at hm
    · exact h.call m hm
  | lockWorker =>
    cases hstep
    exact h.lockWorker hpossible.1 hpossible.2
  | test =>
    cases hstep
    exact h.test hpossible
  | wait =>
    cases hstep
    have hpc : s.worker=.atWait := hpossible
    have hlock := h.worker (by simp [hpc,locks])
    exact .of_busy (fun hw => by cases hw)
      (fun m hm => absurd hm (not_or.mpr (h.no_call (Or.inl hlock) m)))
      (fun hj => absurd hj (h.not_joined (by simp [hpc]))) ⟨by simp,by simp,by simp⟩
  | spurious =>
    cases hstep
    have hpc : s.worker=.waiting := hpossible
    exact .of_busy (fun hw => by cases hw) h.call
      (fun hj => absurd hj (h.not_joined (by simp [hpc]))) ⟨by simp,by simp,by simp⟩
  | look =>
    have hpc : s.worker=.draining := hpossible
    have hlock := h.worker (by simp [hpc,locks])
    have hjoined := h.not_joined (by simp [hpc])
    rcases look_cases hstep with ⟨hleave,rfl⟩ | ⟨out,_,rfl⟩
    · exact ⟨fun _ => hlock,h.call,fun hj => absurd hj hjoined,(fun hf => by cases hf),
        fun _ _ => by simpa using hleave,fun ht => by cases ht⟩
    · exact .of_busy (fun _ => hlock) h.call (fun hj => absurd hj hjoined)
        ⟨by simp,by simp,by simp⟩
  | run err handled =>
    obtain ⟨entry,hpc,rfl⟩ := run_cases hstep
    exact h.run hpc err handled
  | free =>
    obtain ⟨entry,heap,_,⟨hpc,rfl⟩ | ⟨_,rfl⟩⟩ := free_cases hstep
    · have hlock := h.worker (by simp [hpc,locks])
      exact .of_busy (fun _ => hlock) h.call
        (fun hj => absurd hj (h.not_joined (by simp [hpc]))) ⟨by simp,by simp,by simp⟩
    · exact .of_busy (fun hw => by cases hw) h.call (fun _ => rfl) ⟨by simp,by simp,by simp⟩
  | stop =>
    cases hstep
    refine ⟨h.worker,h.call,fun hj => ?_,h.fresh,fun _ _ => Or.inr rfl,h.atWait⟩
    rcases hj with hj | hj <;> cases hj
  | broadcastStop =>
    cases hstep
    have hb := h.broadcast
    refine ⟨hb.worker,h.call,fun hj => ?_,hb.fresh,hb.testing,hb.atWait⟩
    rcases hj with hj | hj <;> cases hj
  | join =>
    cases hstep
    exact ⟨h.worker,h.call,fun _ => hpossible.2,h.fresh,h.testing,h.atWait⟩
  | drain =>
    have hended := h.joined (Or.inl hpossible)
    have hpc : s.worker≠.starting ∧ s.worker≠.testing ∧ s.worker≠.atWait := by simp [hended]
    rcases drain_cases hstep with rfl | ⟨out,heap,_,_,rfl⟩
    · exact .of_busy h.worker h.call (fun _ => hended) hpc
    · exact .of_busy h.worker h.call (fun _ => hended) hpc

/-- A call that has not returned has a broadcast to come. -/
theorem outstanding_of_pcOf {n : ℕ} {pc : CallPc} (hpc : pcOf s.calls n=some pc)
    (hne : pc≠.returned) : Outstanding s := by
  rw [pcOf,Option.map_eq_some_iff] at hpc
  obtain ⟨call,hcall,rfl⟩ := hpc
  exact Or.inl ⟨call,List.mem_of_getElem? hcall,hne⟩

/-- No worker waits behind a broadcast. -/
theorem broadcast_ne_waiting (pc : WorkerPc) : broadcast pc≠.waiting := by
  cases pc <;> simp [broadcast]

/-- A step misses nothing, unless it is a wait that is not timely. -/
theorem noneMissed_step {e : QueueEvent} {reply : Unit} (hl : LockInv s) (hpossible : Possible s e)
    (htimely : e=.wait → Timely s)
    (hstep : queueStep s e=some (reply,s')) : NoneMissed s' := by
  intro hwaiting hout
  cases e with
  | call item entry =>
    cases hstep
    refine absurd (Or.inl ⟨⟨entry,item,.allocated⟩,?_,?_⟩) hout
    · simp [queueCall]
    · simp
  | lockCall n =>
    cases hstep
    refine absurd (@outstanding_of_pcOf _ n .locked ?_ (by simp)) hout
    rw [pcOf_setPc,if_pos rfl,hpossible.1]
    rfl
  | appendCall n =>
    obtain ⟨call,heap,_,_,rfl⟩ := appendCall_cases hstep
    refine absurd (@outstanding_of_pcOf _ n .appended ?_ (by simp)) hout
    rw [pcOf_setPc,if_pos rfl,show pcOf s.calls n=_ from hpossible]
    rfl
  | unlockCall n =>
    cases hstep
    refine absurd (@outstanding_of_pcOf _ n .unlocked ?_ (by simp)) hout
    rw [pcOf_setPc,if_pos rfl,show pcOf s.calls n=_ from hpossible]
    rfl
  | broadcastCall n =>
    cases hstep
    exact absurd hwaiting (broadcast_ne_waiting s.worker)
  | lockWorker =>
    cases hstep
    dsimp only at hwaiting
    split at hwaiting <;> cases hwaiting
  | test =>
    cases hstep
    dsimp only at hwaiting
    split at hwaiting <;> cases hwaiting
  | wait =>
    cases hstep
    have hempty := hl.atWait hpossible
    obtain ⟨hexit,hfirst⟩ := (htimely rfl).resolve_left hout
    refine ⟨?_,hexit⟩
    cases hwaited : s.waited with
    | false => exact hfirst hwaited
    | true => exact hempty hwaited
  | spurious =>
    cases hstep
    cases hwaiting
  | look =>
    rcases look_cases hstep with ⟨_,rfl⟩ | ⟨out,_,rfl⟩ <;> cases hwaiting
  | run err handled =>
    obtain ⟨entry,_,rfl⟩ := run_cases hstep
    rcases (workerRun_frame s entry err handled).2.2.2 with ⟨hw,_⟩ | ⟨hw,_⟩ <;>
      simp [hw] at hwaiting
  | free =>
    obtain ⟨entry,heap,_,⟨_,rfl⟩ | ⟨_,rfl⟩⟩ := free_cases hstep <;> cases hwaiting
  | stop =>
    cases hstep
    exact absurd (Or.inr rfl) hout
  | broadcastStop =>
    cases hstep
    exact absurd hwaiting (broadcast_ne_waiting s.worker)
  | join =>
    cases hstep
    have hended := hpossible.2
    rw [show s.worker=.waiting from hwaiting] at hended
    cases hended
  | drain =>
    have hended := hl.joined (Or.inl hpossible)
    rcases drain_cases hstep with rfl | ⟨out,heap,_,_,rfl⟩ <;> simp [hended] at hwaiting

/-- In every run no wake-up is lost exactly when every wait in it is timely. -/
theorem noneMissed_iff {events : List QueueEvent}
    (hadm : Admitted Possible queueStep freshQueue events) :
    (∀ before after replies s, events=before++after →
        run queueStep freshQueue before=some (replies,s) → NoneMissed s) ↔
      ∀ before after replies s, events=before++.wait::after →
        run queueStep freshQueue before=some (replies,s) → Timely s := by
  constructor
  · intro h before after replies s hcut hrun
    have hwait : run queueStep s [.wait]=
        some ([()],{s with lock := none, worker := .waiting, waited := true}) := rfl
    have hnext := run_append hrun [.wait]
    rw [hwait,Option.map_some] at hnext
    have hmissed := h (before++[.wait]) after _ _ (by rw [hcut,List.append_assoc]; rfl) hnext
    by_cases hout : Outstanding s
    · exact Or.inl hout
    · obtain ⟨hempty,hexit⟩ := hmissed rfl hout
      exact Or.inr ⟨hexit,fun _ => hempty⟩
  · intro htimely before after replies s hcut hrun
    have hadm' : Admitted (fun s e => Possible s e ∧ (e=.wait → Timely s)) queueStep freshQueue
        events := by
      rw [admitted_iff] at hadm ⊢
      intro before e after replies s he hrun
      refine ⟨hadm before e after replies s he hrun,?_⟩
      rintro rfl
      exact htimely before after replies s he hrun
    rw [hcut] at hadm'
    have hstep : ∀ s e r s', LockInv s ∧ NoneMissed s → Possible s e ∧ (e=.wait → Timely s) →
        queueStep s e=some (r,s') → LockInv s' ∧ NoneMissed s' := fun s e r s' h hp hs =>
      ⟨lockInv_step h.1 hp.1 hs,noneMissed_step h.1 hp.1 hp.2 hs⟩
    have hfresh : NoneMissed freshQueue := fun hw => by cases hw
    exact (run_invariant hstep ⟨lockInv_fresh,hfresh⟩ hadm'.append_left hrun).2

/-- The worker starts before anything is queued, and is woken by a call. -/
def timelyEvents : List QueueEvent :=
  [.lockWorker,.test,.wait,.call ⟨0,true,true⟩ 7,.lockCall 0,.appendCall 0,.unlockCall 0,
    .broadcastCall 0,.lockWorker,.look]

/-- Its only wait is timely, so nothing is missed. -/
theorem noneMissed_timely :
    ∃ replies s, run queueStep freshQueue (timelyEvents.take 3)=some (replies,s) ∧ NoneMissed s := by
  have hadm : Admitted Possible queueStep freshQueue timelyEvents := by decide +kernel
  have htimely : Admitted (fun s e => e=.wait → Timely s) queueStep freshQueue timelyEvents := by
    decide +kernel
  have hrun : ∃ replies s, run queueStep freshQueue (timelyEvents.take 3)=some (replies,s) :=
    ⟨_,_,rfl⟩
  obtain ⟨replies,s,hrun⟩ := hrun
  refine ⟨replies,s,hrun,(noneMissed_iff hadm).mpr (fun before after replies s hcut hrun => ?_)
    (timelyEvents.take 3) (timelyEvents.drop 3) replies s rfl hrun⟩
  exact admitted_iff.mp htimely before .wait after replies s hcut hrun rfl

/-- Something is queued before the worker has started. -/
def earlyEvents : List QueueEvent :=
  [.call ⟨0,true,true⟩ 7,.lockCall 0,.appendCall 0,.unlockCall 0,.broadcastCall 0,.lockWorker,.test,
    .wait]

/-- Then the worker waits although an entry is there and every broadcast has
been issued. -/
theorem early_broadcast_lost :
    Admitted Possible queueStep freshQueue earlyEvents ∧
      ∃ replies s, run queueStep freshQueue earlyEvents=some (replies,s) ∧ s.worker=.waiting ∧
        ¬Outstanding s ∧ llistIsEmpty s.heap 0=false := by
  refine ⟨by decide +kernel,_,_,rfl,rfl,?_,rfl⟩
  simp [Outstanding,setPc,queueCall,freshQueue]

end Shoreline.WakeUp
