import Mathlib.Data.Int.Notation
import Shoreline.LinkedList

/-!
# One work queue

The worker thread, any number of calls of `workqueue_enqueue`, and
`stop_workqueue`, cut wherever another thread can come in between. The mutex
has one holder; a broadcast wakes the worker only if it already waits, and a
wait may also end by itself. Entries live in a heap, so that using or freeing
one that is not there is a fault, `none`.
-/

namespace Shoreline.WorkQueue

open StateMachine LinkedList

/-- `struct workqueue_entry` without its list entry. What the callback and the
error handler return is chosen when they are called. -/
structure WorkqueueEntry where
  /-- `priv`. -/
  priv : ℕ
  /-- There is an error handler. -/
  err : Bool
  /-- There is a cleanup handler. -/
  cleanup : Bool
  deriving DecidableEq

/-- How far `work_thread` is. -/
inductive WorkerPc where
  | starting
  | testing
  | atWait
  | waiting
  | waking
  | draining
  | holding (entry : ℕ)
  | freeing (entry : ℕ)
  | leaving (entry : ℕ)
  | ended
  deriving DecidableEq

/-- The entry whose callback the worker is about to run. -/
def WorkerPc.toRun : WorkerPc → List ℕ
  | .holding entry => [entry]
  | _ => []

/-- The entry that the worker is about to give back. -/
def WorkerPc.toFree : WorkerPc → List ℕ
  | .freeing entry => [entry]
  | .leaving entry => [entry]
  | _ => []

/-- How far a call of `workqueue_enqueue` is. -/
inductive CallPc where
  | allocated
  | locked
  | appended
  | unlocked
  | returned
  deriving DecidableEq

/-- A call of `workqueue_enqueue`. -/
structure Call where
  /-- Address of the entry it has allocated. -/
  entry : ℕ
  /-- What it has stored there. -/
  item : WorkqueueEntry
  /-- How far it is. -/
  pc : CallPc

/-- How far `stop_workqueue` is. -/
inductive StopPc where
  | running
  | exiting
  | joining
  | draining
  | stopped
  deriving DecidableEq

/-- Who holds the mutex. -/
inductive Holder where
  | worker
  | call (n : ℕ)
  deriving DecidableEq

/-- A callback that the worker has run. -/
structure RunRecord where
  /-- The call that has queued it. -/
  ticket : ℕ
  /-- What the callback returned. -/
  err : ℤ
  /-- What the error handler returned, or would. -/
  handled : ℤ
  deriving DecidableEq

/-- `struct workqueue` with its threads. -/
structure Queue where
  /-- The entries and the list; list zero is `entries`. -/
  heap : Heap
  /-- The other members of the entry at an address. -/
  info : ℕ → WorkqueueEntry
  /-- `do_exit`. -/
  doExit : Bool
  /-- `lock`. -/
  lock : Option Holder
  /-- The worker thread. -/
  worker : WorkerPc
  /-- The calls of `workqueue_enqueue`, in the order in which they began. -/
  calls : List Call
  /-- The call of `stop_workqueue`. -/
  stop : StopPc
  /-- History: the call that has allocated the entry at an address. -/
  ticket : ℕ → ℕ
  /-- History: the worker has waited before. -/
  waited : Bool
  /-- History: calls in the order in which their entries were appended. -/
  appended : List ℕ
  /-- History: callbacks that were run. -/
  ran : List RunRecord
  /-- History: entries that `stop_workqueue` has removed. -/
  dropped : List ℕ
  /-- History: cleanup handlers that were called, with the error they got. -/
  cleaned : List (ℕ×ℤ)

/-- One step of one thread. -/
inductive QueueEvent where
  | call (item : WorkqueueEntry) (entry : ℕ)
  | lockCall (n : ℕ)
  | appendCall (n : ℕ)
  | unlockCall (n : ℕ)
  | broadcastCall (n : ℕ)
  | lockWorker
  | test
  | wait
  | spurious
  | look
  | run (err handled : ℤ)
  | free
  | stop
  | broadcastStop
  | join
  | drain
  deriving DecidableEq

/-- How far a call is. -/
def pcOf (calls : List Call) (n : ℕ) : Option CallPc := calls[n]?.map Call.pc

/-- A call goes on. -/
def setPc (calls : List Call) (n : ℕ) (pc : CallPc) : List Call :=
  calls.modify n fun call => {call with pc := pc}

/-- `pthread_cond_broadcast`: only a worker that waits is woken. -/
def broadcast : WorkerPc → WorkerPc
  | .waiting => .waking
  | pc => pc

/-- The cleanup handler of an entry, if there is one. -/
def cleanupCall (item : WorkqueueEntry) (ticket : ℕ) (err : ℤ) : List (ℕ×ℤ) :=
  if item.cleanup then [(ticket,err)] else []

/-- `llist_get_entry(&entries, 0)` and `llist_remove`. -/
def takeFirst (h : Heap) : Option (ℕ×Heap) :=
  match llistGetEntry h 1 0 0 with
  | some (some e) => (llistRemove h e).map (e,·)
  | _ => none

/-- Up to the mutex: `calloc` has returned the entry, and its members are set. -/
def queueCall (s : Queue) (item : WorkqueueEntry) (entry : ℕ) : Queue :=
  {s with
    heap := {s.heap with
      entries := Function.update s.heap.entries entry (some llistEntryInit)}
    info := Function.update s.info entry item
    calls := s.calls++[⟨entry,item,.allocated⟩]
    ticket := Function.update s.ticket entry s.calls.length}

/-- The inner loop of `work_thread` up to the callback. -/
def workerLook (s : Queue) : Option Queue :=
  if llistIsEmpty s.heap 0 || s.doExit then some {s with worker := .testing}
  else (takeFirst s.heap).map fun out => {s with heap := out.2, worker := .holding out.1}

/-- The callback and what depends on its result: without an error handler, or
when that fails, the cleanup handler is called, and in the second case the
thread ends. -/
def workerRun (s : Queue) (entry : ℕ) (err handled : ℤ) : Queue :=
  let item := s.info entry
  let s : Queue := {s with ran := s.ran++[⟨s.ticket entry,err,handled⟩]}
  if err=0 then {s with worker := .freeing entry}
  else if item.err then
    if handled=0 then {s with worker := .freeing entry}
    else {s with
      lock := none
      worker := .leaving entry
      cleaned := s.cleaned++cleanupCall item (s.ticket entry) err}
  else {s with
    worker := .freeing entry
    cleaned := s.cleaned++cleanupCall item (s.ticket entry) err}

/-- One round of the loop of `stop_workqueue`, or its end. -/
def stopDrain (s : Queue) : Option Queue :=
  if llistIsEmpty s.heap 0 then some {s with stop := .stopped}
  else
    (takeFirst s.heap).bind fun out =>
      (out.2.free out.1).map fun heap => {s with
        heap := heap
        dropped := s.dropped++[s.ticket out.1]
        cleaned := s.cleaned++cleanupCall (s.info out.1) (s.ticket out.1) 0}

/-- One step of the queue; `none` is a fault. -/
def queueStep : Step QueueEvent Unit Queue
  | s,.call item entry => some ((),queueCall s item entry)
  | s,.lockCall n => some ((),{s with lock := some (.call n), calls := setPc s.calls n .locked})
  | s,.appendCall n =>
    match s.calls[n]? with
    | none => none
    | some call => (llistAppend s.heap 0 call.entry).map fun heap => ((),{s with
        heap := heap
        calls := setPc s.calls n .appended
        appended := s.appended++[n]})
  | s,.unlockCall n => some ((),{s with lock := none, calls := setPc s.calls n .unlocked})
  | s,.broadcastCall n =>
    some ((),{s with worker := broadcast s.worker, calls := setPc s.calls n .returned})
  | s,.lockWorker => some ((),{s with
      lock := some .worker
      worker := if s.worker=.starting then .testing else .draining})
  | s,.test => some ((),{s with worker := if s.doExit then .ended else .atWait})
  | s,.wait => some ((),{s with lock := none, worker := .waiting, waited := true})
  | s,.spurious => some ((),{s with worker := .waking})
  | s,.look => (workerLook s).map ((),·)
  | s,.run err handled =>
    match s.worker with
    | .holding entry =>
      (s.heap.entries entry).map fun _ => ((),workerRun s entry err handled)
    | _ => none
  | s,.free =>
    match s.worker with
    | .freeing entry => (s.heap.free entry).map fun heap => ((),{s with heap := heap, worker := .draining})
    | .leaving entry => (s.heap.free entry).map fun heap => ((),{s with heap := heap, worker := .ended})
    | _ => none
  | s,.stop => some ((),{s with doExit := true, stop := .exiting})
  | s,.broadcastStop => some ((),{s with worker := broadcast s.worker, stop := .joining})
  | s,.join => some ((),{s with stop := .draining})
  | s,.drain => (stopDrain s).map ((),·)

/-- The steps that the threads can take: `calloc` returns memory that is not in
use, a mutex is taken when it is free, and the worker is joined when it has
ended. -/
def Possible (s : Queue) : QueueEvent → Prop
  | .call _ entry => s.heap.entries entry=none
  | .lockCall n => pcOf s.calls n=some .allocated ∧ s.lock=none
  | .appendCall n => pcOf s.calls n=some .locked
  | .unlockCall n => pcOf s.calls n=some .appended
  | .broadcastCall n => pcOf s.calls n=some .unlocked
  | .lockWorker => (s.worker=.starting ∨ s.worker=.waking) ∧ s.lock=none
  | .test => s.worker=.testing
  | .wait => s.worker=.atWait
  | .spurious => s.worker=.waiting
  | .look => s.worker=.draining
  | .run _ _ => s.worker.toRun≠[]
  | .free => s.worker.toFree≠[]
  | .stop => s.stop=.running
  | .broadcastStop => s.stop=.exiting
  | .join => s.stop=.joining ∧ s.worker=.ended
  | .drain => s.stop=.draining

instance (s : Queue) : ∀ e, Decidable (Possible s e)
  | .call _ _ => inferInstanceAs (Decidable (_=_))
  | .lockCall _ => inferInstanceAs (Decidable (_ ∧ _))
  | .appendCall _ => inferInstanceAs (Decidable (_=_))
  | .unlockCall _ => inferInstanceAs (Decidable (_=_))
  | .broadcastCall _ => inferInstanceAs (Decidable (_=_))
  | .lockWorker => inferInstanceAs (Decidable ((_ ∨ _) ∧ _))
  | .test => inferInstanceAs (Decidable (_=_))
  | .wait => inferInstanceAs (Decidable (_=_))
  | .spurious => inferInstanceAs (Decidable (_=_))
  | .look => inferInstanceAs (Decidable (_=_))
  | .run _ _ => inferInstanceAs (Decidable (_≠_))
  | .free => inferInstanceAs (Decidable (_≠_))
  | .stop => inferInstanceAs (Decidable (_=_))
  | .broadcastStop => inferInstanceAs (Decidable (_=_))
  | .join => inferInstanceAs (Decidable (_ ∧ _))
  | .drain => inferInstanceAs (Decidable (_=_))

/-- A queue whose worker thread has just been created. -/
def freshQueue : Queue where
  heap := ⟨fun _ => none,fun _ => llistInit⟩
  info _ := ⟨0,false,false⟩
  doExit := false
  lock := none
  worker := .starting
  calls := []
  stop := .running
  ticket _ := 0
  waited := false
  appended := []
  ran := []
  dropped := []
  cleaned := []

section Inversion

variable {s s' : Queue} {reply : Unit}

/-- A call appends its entry to the list. -/
theorem appendCall_cases {n : ℕ} (hstep : queueStep s (.appendCall n)=some (reply,s')) :
    ∃ call heap, s.calls[n]?=some call ∧ llistAppend s.heap 0 call.entry=some heap ∧
      s'={s with
        heap := heap
        calls := setPc s.calls n .appended
        appended := s.appended++[n]} := by
  simp only [queueStep] at hstep
  split at hstep
  · cases hstep
  · rename_i call hcall
    rw [Option.map_eq_some_iff] at hstep
    obtain ⟨heap,happend,hs⟩ := hstep
    exact ⟨call,heap,hcall,happend,(congrArg Prod.snd hs).symm⟩

/-- The worker leaves the inner loop, or takes the first entry. -/
theorem look_cases (hstep : queueStep s .look=some (reply,s')) :
    (llistIsEmpty s.heap 0 || s.doExit)=true ∧ s'={s with worker := .testing} ∨
      ∃ out, takeFirst s.heap=some out ∧ s'={s with heap := out.2, worker := .holding out.1} := by
  simp only [queueStep,workerLook] at hstep
  split at hstep
  · rename_i hleave
    exact Or.inl ⟨hleave,(congrArg Prod.snd (Option.some.inj hstep)).symm⟩
  · rw [Option.map_map,Option.map_eq_some_iff] at hstep
    obtain ⟨out,htake,hs⟩ := hstep
    exact Or.inr ⟨out,htake,(congrArg Prod.snd hs).symm⟩

/-- The worker runs the callback of the entry that it holds. -/
theorem run_cases {err handled : ℤ} (hstep : queueStep s (.run err handled)=some (reply,s')) :
    ∃ entry, s.worker=.holding entry ∧ s'=workerRun s entry err handled := by
  cases hpc : s.worker with
  | holding entry =>
    simp only [queueStep,hpc] at hstep
    rw [Option.map_eq_some_iff] at hstep
    obtain ⟨_,_,hs⟩ := hstep
    exact ⟨entry,rfl,(congrArg Prod.snd hs).symm⟩
  | _ => simp only [queueStep,hpc,reduceCtorEq] at hstep

/-- The worker gives an entry back and goes on, or has ended. -/
theorem free_cases (hstep : queueStep s .free=some (reply,s')) :
    ∃ entry heap, s.heap.free entry=some heap ∧
      (s.worker=.freeing entry ∧ s'={s with heap := heap, worker := .draining} ∨
        s.worker=.leaving entry ∧ s'={s with heap := heap, worker := .ended}) := by
  cases hpc : s.worker with
  | freeing entry =>
    simp only [queueStep,hpc] at hstep
    rw [Option.map_eq_some_iff] at hstep
    obtain ⟨heap,hfree,hs⟩ := hstep
    exact ⟨entry,heap,hfree,Or.inl ⟨rfl,(congrArg Prod.snd hs).symm⟩⟩
  | leaving entry =>
    simp only [queueStep,hpc] at hstep
    rw [Option.map_eq_some_iff] at hstep
    obtain ⟨heap,hfree,hs⟩ := hstep
    exact ⟨entry,heap,hfree,Or.inr ⟨rfl,(congrArg Prod.snd hs).symm⟩⟩
  | _ => simp only [queueStep,hpc,reduceCtorEq] at hstep

/-- `stop_workqueue` is done, or removes the first entry. -/
theorem drain_cases (hstep : queueStep s .drain=some (reply,s')) :
    s'={s with stop := .stopped} ∨
      ∃ out heap, takeFirst s.heap=some out ∧ out.2.free out.1=some heap ∧ s'={s with
        heap := heap
        dropped := s.dropped++[s.ticket out.1]
        cleaned := s.cleaned++cleanupCall (s.info out.1) (s.ticket out.1) 0} := by
  simp only [queueStep,stopDrain] at hstep
  split at hstep
  · exact Or.inl (congrArg Prod.snd (Option.some.inj hstep)).symm
  · rw [Option.map_bind,Option.bind_eq_some_iff] at hstep
    obtain ⟨out,htake,hs⟩ := hstep
    rw [Function.comp,Option.map_map,Option.map_eq_some_iff] at hs
    obtain ⟨heap,hfree,hs⟩ := hs
    exact Or.inr ⟨out,heap,htake,hfree,(congrArg Prod.snd hs).symm⟩

end Inversion

end Shoreline.WorkQueue
