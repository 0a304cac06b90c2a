import Mathlib.Data.List.Perm.Subperm
import Shoreline.QueueOrder
import Shoreline.ServerRun

/-!
# Resize requests and their memory

`resize_cb` allocates a request for every framebuffer and hands it to the work
queue of its node. `resize_cb` frees the request when the queue refuses it, and
`resize_wq_cleanup` frees it behind a callback that fails or never runs. No one
frees it behind a callback that succeeds.
-/

namespace Shoreline.ResizeRelease

open Framebuffer StateMachine LinkedList WorkQueue WakeUp QueueOrder ServerRun

/-- How far the main thread is. -/
inductive MainPc where
  | idle
  | queueing (size : FbSize) (next : ℕ)
  | enqueueing (size : FbSize) (next node : ℕ)
  | deinit

/-- The main thread with the framebuffers and the work queues. -/
structure Resizer where
  /-- `num_workqueues`. -/
  num : ℕ
  /-- `workqueues`. -/
  nodes : ℕ → Queue
  /-- `fb_list`. -/
  fbs : List Fb
  /-- The requests that `resize_cb` has allocated. -/
  requests : List ResizeWork
  /-- The main thread. -/
  main : MainPc
  /-- History: requests that `resize_cb` has freed. -/
  refused : List ℕ

/-- One step of one thread, with the outcomes of the allocations in it. -/
inductive ResizerEvent where
  | addFb (fb : Fb)
  | resize (size : FbSize)
  | request (priv : Bool) (entry : Option ℕ)
  | leave
  | deinit
  | thread (q : ℕ) (e : QueueEvent)
  | work (q : ℕ) (block : Option (ℕ → FbPixel))

/-- `resize_wq_err`, which also asks for a shutdown. -/
def resizeWqErr (err : ℤ) : ℤ := err

/-- What `resize_wq_cleanup` frees. -/
def resizeWqCleanup (_err : ℤ) (priv : ℕ) : List ℕ := [priv]

/-- What `resize_cb` queues for a request. -/
def resizeItem (priv : ℕ) : WorkqueueEntry := ⟨priv,true,true⟩

/-- One round of the loop of `resize_cb`: the return code is that of the loop
if it is left. -/
def resizeRound (s : Resizer) (size : FbSize) (next : ℕ) (fb : Fb) (priv : Bool)
    (entry : Option ℕ) : ℤ×Resizer :=
  let id := s.requests.length
  if priv then
    let s : Resizer := {s with requests := s.requests++[⟨next,size⟩]}
    if s.num≤fb.numaNode then (-EINVAL,{s with main := .idle, refused := s.refused++[id]})
    else
      match entry with
      | none => (-ENOMEM,{s with main := .idle, refused := s.refused++[id]})
      | some entry => (0,{s with
          nodes := Function.update s.nodes fb.numaNode
            (queueCall (s.nodes fb.numaNode) (resizeItem id) entry)
          main := .enqueueing size next fb.numaNode})
  else (-ENOMEM,{s with main := .idle})

/-- Behind its broadcast the call returns to the loop of `resize_cb`. -/
def afterThread (main : MainPc) : QueueEvent → MainPc
  | .broadcastCall _ =>
    match main with
    | .enqueueing size next _ => .queueing size (next+1)
    | main => main
  | _ => main

/-- `resize_wq_cb` in a worker. -/
def resizeWork (s : Resizer) (q : ℕ) (block : Option (ℕ → FbPixel)) : Option (ℤ×Resizer) :=
  match (s.nodes q).worker with
  | .holding entry =>
    (s.requests[((s.nodes q).info entry).priv]?).bind fun work =>
      (s.fbs[work.fb]?).bind fun fb =>
        let out := fbResize fb block work.size
        (queueStep (s.nodes q) (.run out.1 (resizeWqErr out.1))).map fun queue =>
          (out.1,{s with
            nodes := Function.update s.nodes q queue.2
            fbs := s.fbs.set work.fb out.2})
  | _ => none

/-- One step; `none` is a fault. -/
def resizerStep : Step ResizerEvent ℤ Resizer
  | s,.addFb fb => some (0,{s with fbs := s.fbs++[fb]})
  | s,.resize size => some (0,{s with main := .queueing size 0})
  | s,.request priv entry =>
    match s.main with
    | .queueing size next => (s.fbs[next]?).map fun fb => resizeRound s size next fb priv entry
    | _ => none
  | s,.leave => some (0,{s with main := .idle})
  | s,.deinit => some (0,{s with main := .deinit})
  | s,.thread q e => (queueStep (s.nodes q) e).map fun out =>
    (0,{s with nodes := Function.update s.nodes q out.2, main := afterThread s.main e})
  | s,.work q block => resizeWork s q block

/-- The position of the loop of `resize_cb` in the list. -/
def MainPc.position : MainPc → Option ℕ
  | .queueing _ next => some next
  | _ => none

/-- The main thread is idle. -/
def MainPc.isIdle : MainPc → Bool
  | .idle => true
  | _ => false

/-- The main thread is in `workqueue_deinit`. -/
def MainPc.isDeinit : MainPc → Bool
  | .deinit => true
  | _ => false

/-- Steps of the queue of a node that are not part of another step here; queues
are stopped by `workqueue_deinit`, one after the other. -/
def Separate (s : Resizer) (q : ℕ) : QueueEvent → Prop
  | .call _ _ => False
  | .run _ _ => False
  | .stop => s.main.isDeinit=true ∧ ∀ p<q,(s.nodes p).stop=.stopped
  | _ => True

/-- The steps that the threads can take. -/
def Possible (s : Resizer) : ResizerEvent → Prop
  | .addFb _ => True
  | .resize _ => s.main.isIdle=true
  | .request _ entry => s.main.position.any (fun next => next<s.fbs.length)=true ∧
    ∀ address∈entry, ∀ q<s.num,(s.nodes q).heap.entries address=none
  | .leave => s.main.position.any (fun next => s.fbs.length≤next)=true
  | .deinit => s.main.isIdle=true
  | .thread q e => q<s.num ∧ Separate s q e ∧ WorkQueue.Possible (s.nodes q) e
  | .work q _ => q<s.num ∧ WorkQueue.Possible (s.nodes q) (.run 0 0)

instance (s : Resizer) (q : ℕ) : ∀ e, Decidable (Separate s q e)
  | .call _ _ | .run _ _ => isFalse not_false
  | .stop => inferInstanceAs (Decidable (_ ∧ _))
  | .lockCall _ | .appendCall _ | .unlockCall _ | .broadcastCall _ | .lockWorker | .test | .wait
  | .spurious | .look | .free | .broadcastStop | .join | .drain => isTrue trivial

instance (s : Resizer) : ∀ e, Decidable (Possible s e)
  | .addFb _ => isTrue trivial
  | .resize _ => inferInstanceAs (Decidable (_=_))
  | .request _ _ => inferInstanceAs (Decidable (_ ∧ _))
  | .leave => inferInstanceAs (Decidable (_=_))
  | .deinit => inferInstanceAs (Decidable (_=_))
  | .thread _ _ => inferInstanceAs (Decidable (_ ∧ _ ∧ _))
  | .work _ _ => inferInstanceAs (Decidable (_ ∧ _))

/-- Behind `workqueue_init`. -/
def initialised (num : ℕ) (fbs : List Fb) : Resizer :=
  ⟨num,fun _ => freshQueue,fbs,[],.idle,[]⟩

/-- What the cleanup handler has freed for one queue. -/
def cleanedUp (s : Queue) : List ℕ :=
  s.cleaned.flatMap fun call => resizeWqCleanup call.2 (itemOf s.calls call.1).priv

/-- Everything that was freed. -/
def released (s : Resizer) : List ℕ :=
  s.refused++(List.range s.num).flatMap fun q => cleanedUp (s.nodes q)

/-- `workqueue_deinit` has returned. -/
def Deinitialised (s : Resizer) : Prop :=
  s.main.isDeinit=true ∧ ∀ q<s.num,(s.nodes q).stop=.stopped

/-- Requests whose callback succeeded, for one queue. -/
def succeeded (s : Queue) : List ℕ :=
  s.ran.flatMap fun record => if record.err=0 then [(itemOf s.calls record.ticket).priv] else []

/-- The requests that were handed to one queue. -/
def privs (s : Queue) : List ℕ := s.calls.map fun call => call.item.priv

section Accounts

variable {s s' : Queue} {seq : List ℕ}

/-- What a call has stored, by its position. -/
theorem itemOf_getElem {calls : List Call} {n : ℕ} {call : Call} (h : calls[n]?=some call) :
    itemOf calls n=call.item := by
  simp [itemOf,stage,h]

/-- Requests by the order of their calls. -/
theorem privs_eq (s : Queue) :
    (List.range s.calls.length).map (fun n => (itemOf s.calls n).priv)=privs s := by
  unfold privs
  refine List.ext_getElem (by simp) fun n hn _ => ?_
  have hlt : n<s.calls.length := by simpa using hn
  have hget : s.calls[n]?=some s.calls[n] := List.getElem?_eq_getElem hlt
  rw [List.getElem_map,List.getElem_map,List.getElem_range,itemOf_getElem hget]

/-- When all calls have returned they are what was appended. -/
theorem appended_perm (h : QueueInv s seq) (hqueued : ∀ call∈s.calls,queued call.pc=true) :
    s.appended.Perm (List.range s.calls.length) := by
  refine (List.perm_ext_iff_of_nodup h.nodup List.nodup_range).mpr fun n => ?_
  rw [h.late,List.mem_range]
  constructor
  · rintro ⟨e,item,hstage⟩
    rw [stage,Option.map_eq_some_iff] at hstage
    obtain ⟨call,hcall,_⟩ := hstage
    exact (List.getElem?_eq_some_iff.mp hcall).1
  · intro hn
    have hget : s.calls[n]?=some s.calls[n] := List.getElem?_eq_getElem hn
    exact ⟨s.calls[n].entry,s.calls[n].item,by
      simp [stage,hget,hqueued s.calls[n] (List.getElem_mem hn)]⟩

/-- When its queue has been stopped, every request was freed by the cleanup
handler or had a callback that succeeded. -/
theorem cleanedUp_perm (hl : LockInv s) (h : QueueInv s seq) (hstop : s.stop=.stopped)
    (hqueued : ∀ call∈s.calls,queued call.pc=true)
    (hitem : ∀ call∈s.calls,call.item=resizeItem call.item.priv)
    (hhandled : ∀ record∈s.ran,record.handled=record.err) :
    (cleanedUp s++succeeded s).Perm (privs s) := by
  have hhandlers : ∀ n∈s.appended, ∃ priv, itemOf s.calls n=resizeItem priv := by
    intro n hn
    obtain ⟨e,item,hstage⟩ := (h.late n).mp hn
    rw [stage,Option.map_eq_some_iff] at hstage
    obtain ⟨call,hcall,_⟩ := hstage
    exact ⟨_,(itemOf_getElem hcall).trans (hitem call (List.mem_of_getElem? hcall))⟩
  have hran : ∀ record∈s.ran,
      (runCleanup (itemOf s.calls record.ticket) record).flatMap
        (fun call => resizeWqCleanup call.2 (itemOf s.calls call.1).priv)++
        (if record.err=0 then [(itemOf s.calls record.ticket).priv] else [])=
      [(itemOf s.calls record.ticket).priv] := by
    intro record hrecord
    obtain ⟨priv,hpriv⟩ := hhandlers _ (h.appended_of_ran (List.mem_map_of_mem hrecord))
    by_cases herr : record.err=0 <;>
      simp [runCleanup,herr,hpriv,resizeItem,hhandled record hrecord,cleanupCall,resizeWqCleanup]
  have hdropped : ∀ n∈s.dropped,
      (cleanupCall (itemOf s.calls n) n 0).flatMap
        (fun call => resizeWqCleanup call.2 (itemOf s.calls call.1).priv)=
      [(itemOf s.calls n).priv] := by
    intro n hn
    obtain ⟨priv,hpriv⟩ := hhandlers _ (h.appended_of_dropped hn)
    simp [hpriv,resizeItem,cleanupCall,resizeWqCleanup]
  have horder := (h.handled hl).rest hstop
  unfold cleanedUp succeeded
  rw [h.cleaned,List.flatMap_append,List.flatMap_assoc,List.flatMap_assoc,
    List.flatMap_congr hdropped]
  calc _
      _ = s.ran.flatMap _++(s.dropped.flatMap _++s.ran.flatMap _) := List.append_assoc _ _ _
      List.Perm _ (s.ran.flatMap _++(s.ran.flatMap _++s.dropped.flatMap _)) :=
        List.perm_append_comm.append_left _
      _ = _ := (List.append_assoc _ _ _).symm
      List.Perm _ (s.appended.map fun n => (itemOf s.calls n).priv) := ?_
      List.Perm _ _ := by
        rw [←privs_eq]
        exact (appended_perm h hqueued).map _
  rw [horder,List.map_append,List.map_map]
  refine ((List.flatMap_append_perm s.ran _ _).trans ?_).append ?_
  · rw [List.flatMap_congr hran,←List.map_eq_flatMap]
    exact List.Perm.refl _
  · rw [←List.map_eq_flatMap]

/-- What a step of a queue leaves alone, other than a call or a callback. -/
structure Kept (e : QueueEvent) (s s' : Queue) : Prop where
  /-- What was handed to the queue. -/
  items : s'.calls.map Call.item=s.calls.map Call.item
  /-- What was run. -/
  ran : s'.ran=s.ran
  /-- The queue is stopped by one step. -/
  stop : s'.stop≠.running → s.stop≠.running ∨ e=.stop
  /-- A call that has not returned had not returned before. -/
  busy : ∀ n pc, pcOf s'.calls n=some pc → pc≠.returned →
    ∃ pc', pcOf s.calls n=some pc' ∧ pc'≠.returned ∧ e≠.broadcastCall n

/-- Steps of the worker and of `stop_workqueue`. -/
theorem Kept.of_same {e : QueueEvent} (hcalls : s'.calls=s.calls) (hran : s'.ran=s.ran)
    (hstop : s'.stop≠.running → s.stop≠.running ∨ e=.stop) (he : ∀ n, e≠.broadcastCall n) :
    Kept e s s' :=
  ⟨by rw [hcalls],hran,hstop,fun n pc hpc hne => ⟨pc,by rwa [←hcalls],hne,he n⟩⟩

/-- Steps of a call that has not returned. -/
theorem Kept.of_setPc {e : QueueEvent} {n : ℕ} {pc pc' : CallPc}
    (hcalls : s'.calls=setPc s.calls n pc') (hran : s'.ran=s.ran) (hstop : s'.stop=s.stop)
    (hpc : pcOf s.calls n=some pc) (hne : pc≠.returned)
    (he : ∀ m, e=.broadcastCall m → m=n ∧ pc'=.returned) : Kept e s s' where
  items := by
    rw [hcalls]
    refine List.ext_getElem? fun m => ?_
    rw [List.getElem?_map,List.getElem?_map,getElem?_setPc]
    split <;> simp [Function.comp_def]
  ran := hran
  stop hc := Or.inl (hstop ▸ hc)
  busy m pc'' hm hne' := by
    rw [hcalls,pcOf_setPc] at hm
    by_cases hnm : n=m
    · subst hnm
      rw [if_pos rfl,hpc,Option.map_some,Option.some.injEq] at hm
      refine ⟨pc,hpc,hne,fun hc => ?_⟩
      exact hne' (hm.symm.trans (he n hc).2)
    · rw [if_neg hnm] at hm
      exact ⟨pc'',hm,hne',fun hc => hnm (he m hc).1.symm⟩

/-- Steps that are separate keep what was handed to the queue. -/
theorem kept_step {e : QueueEvent} {reply : Unit} (hpossible : WorkQueue.Possible s e)
    (hcall : ∀ item entry, e≠.call item entry) (hrun : ∀ err handled, e≠.run err handled)
    (hstep : queueStep s e=some (reply,s')) : Kept e s s' := by
  cases e with
  | call item entry => exact absurd rfl (hcall item entry)
  | run err handled => exact absurd rfl (hrun err handled)
  | lockCall n =>
    cases hstep
    exact .of_setPc rfl rfl rfl hpossible.1 (by simp) fun m hm => by cases hm
  | appendCall n =>
    obtain ⟨call,heap,_,_,rfl⟩ := appendCall_cases hstep
    exact .of_setPc rfl rfl rfl hpossible (by simp) fun m hm => by cases hm
  | unlockCall n =>
    cases hstep
    exact .of_setPc rfl rfl rfl hpossible (by simp) fun m hm => by cases hm
  | broadcastCall n =>
    cases hstep
    refine .of_setPc rfl rfl rfl hpossible (by simp) fun m hm => ?_
    cases hm
    exact ⟨rfl,rfl⟩
  | lockWorker =>
    cases hstep
    exact .of_same rfl rfl Or.inl (by simp)
  | test =>
    cases hstep
    exact .of_same rfl rfl Or.inl (by simp)
  | wait =>
    cases hstep
    exact .of_same rfl rfl Or.inl (by simp)
  | spurious =>
    cases hstep
    exact .of_same rfl rfl Or.inl (by simp)
  | look =>
    rcases look_cases hstep with ⟨_,rfl⟩ | ⟨out,_,rfl⟩
    · exact .of_same rfl rfl Or.inl (by simp)
    · exact .of_same rfl rfl Or.inl (by simp)
  | free =>
    obtain ⟨entry,heap,_,⟨_,rfl⟩ | ⟨_,rfl⟩⟩ := free_cases hstep
    · exact .of_same rfl rfl Or.inl (by simp)
    · exact .of_same rfl rfl Or.inl (by simp)
  | stop =>
    cases hstep
    exact .of_same rfl rfl (fun _ => Or.inr rfl) (by simp)
  | broadcastStop =>
    cases hstep
    have hstop : s.stop=.exiting := hpossible
    exact .of_same rfl rfl (fun _ => Or.inl (by simp [hstop])) (by simp)
  | join =>
    cases hstep
    exact .of_same rfl rfl (fun _ => Or.inl (by simp [hpossible.1])) (by simp)
  | drain =>
    have hstop : s.stop=.draining := hpossible
    rcases drain_cases hstep with rfl | ⟨out,heap,_,_,rfl⟩
    · exact .of_same rfl rfl (fun _ => Or.inl (by simp [hstop])) (by simp)
    · exact .of_same rfl rfl Or.inl (by simp)

end Accounts

/-- Who has which request, and which step may come next. -/
structure ResizerInv (s : Resizer) : Prop where
  /-- Every queue is as its steps leave it. -/
  lock : ∀ q, LockInv (s.nodes q)
  /-- Its entries are where they are to be. -/
  queue : ∀ q, ∃ seq, QueueInv (s.nodes q) seq
  /-- Every request was freed by `resize_cb` or handed to one queue. -/
  owners : (s.refused++(List.range s.num).flatMap fun q => privs (s.nodes q)).Perm
    (List.range s.requests.length)
  /-- Every queued entry has the handlers of a request. -/
  items : ∀ q, ∀ call∈(s.nodes q).calls, call.item=resizeItem call.item.priv
  /-- The error handler returns what the callback has returned. -/
  handled : ∀ q, ∀ record∈(s.nodes q).ran, record.handled=record.err
  /-- Only the last call of one queue has not returned, while the main thread is in it. -/
  busy : ∀ q n pc, pcOf (s.nodes q).calls n=some pc → pc≠.returned →
    (∃ size next, s.main=.enqueueing size next q) ∧ n+1=(s.nodes q).calls.length
  /-- Queues are stopped by `workqueue_deinit`. -/
  running : ∀ q, (s.nodes q).stop≠.running → s.main.isDeinit=true
  /-- Requests are about framebuffers of the list. -/
  works : ∀ work∈s.requests, work.fb<s.fbs.length

variable {s s' : Resizer}

section Nodes

/-- While the main thread is in no call, every call has returned. -/
theorem ResizerInv.returned (h : ResizerInv s) (hmain : ∀ size next q, s.main≠.enqueueing size next q)
    {q n : ℕ} {pc : CallPc} (hpc : pcOf (s.nodes q).calls n=some pc) : pc=.returned := by
  by_contra hne
  obtain ⟨⟨size,next,hc⟩,_⟩ := h.busy q n pc hpc hne
  exact hmain size next q hc

/-- The main thread goes on outside of `workqueue_enqueue`. -/
theorem ResizerInv.set_main (h : ResizerInv s) {main : MainPc}
    (hmain : ∀ size next q, s.main≠.enqueueing size next q) (hdeinit : s.main.isDeinit=false) :
    ResizerInv {s with main := main} := by
  refine ⟨h.lock,h.queue,h.owners,h.items,h.handled,fun q n pc hpc hne => ?_,fun q hstop => ?_,
    h.works⟩
  · exact absurd (h.returned hmain hpc) hne
  · rw [h.running q hstop] at hdeinit
    cases hdeinit

/-- Something happens in one queue, and what was handed to it stays. -/
theorem ResizerInv.set_node (h : ResizerInv s) {q : ℕ} {queue : Queue} {main : MainPc}
    {fbs : List Fb} (hlock : LockInv queue) (hqueue : ∃ seq, QueueInv queue seq)
    (hitems : queue.calls.map Call.item=(s.nodes q).calls.map Call.item)
    (hhandled : ∀ record∈queue.ran, record.handled=record.err)
    (hbusy : ∀ n pc, pcOf queue.calls n=some pc → pc≠.returned →
      (∃ size next, main=.enqueueing size next q) ∧ n+1=queue.calls.length)
    (hothers : ∀ p, p≠q → ∀ n pc, pcOf (s.nodes p).calls n=some pc → pc≠.returned →
      (∃ size next, main=.enqueueing size next p) ∧ n+1=(s.nodes p).calls.length)
    (hrunning : queue.stop≠.running → main.isDeinit=true)
    (hmain : s.main.isDeinit=true → main.isDeinit=true) (hfbs : fbs.length=s.fbs.length) :
    ResizerInv {s with nodes := Function.update s.nodes q queue, main := main, fbs := fbs} := by
  have hprivs : ∀ p, privs (Function.update s.nodes q queue p)=privs (s.nodes p) := by
    intro p
    by_cases hp : p=q
    · rw [hp,Function.update_self]
      simpa [privs,Function.comp_def] using congrArg (List.map WorkqueueEntry.priv) hitems
    · rw [Function.update_of_ne hp]
  have hall : ∀ item∈queue.calls.map Call.item, item=resizeItem item.priv := by
    rw [hitems]
    exact List.forall_mem_map.mpr (h.items q)
  constructor
  case lock =>
    exact (Function.forall_update_iff s.nodes fun _ queue => LockInv queue).mpr
      ⟨hlock,fun p _ => h.lock p⟩
  case queue =>
    exact (Function.forall_update_iff s.nodes fun _ queue => ∃ seq, QueueInv queue seq).mpr
      ⟨hqueue,fun p _ => h.queue p⟩
  case owners => simpa only [hprivs] using h.owners
  case items =>
    exact (Function.forall_update_iff s.nodes fun _ queue =>
      ∀ call∈queue.calls, call.item=resizeItem call.item.priv).mpr
      ⟨List.forall_mem_map.mp hall,fun p _ => h.items p⟩
  case handled =>
    exact (Function.forall_update_iff s.nodes fun _ queue =>
      ∀ record∈queue.ran, record.handled=record.err).mpr ⟨hhandled,fun p _ => h.handled p⟩
  case busy =>
    exact (Function.forall_update_iff s.nodes fun p queue =>
      ∀ n pc, pcOf queue.calls n=some pc → pc≠.returned →
        (∃ size next, main=.enqueueing size next p) ∧ n+1=queue.calls.length).mpr ⟨hbusy,hothers⟩
  case running =>
    exact (Function.forall_update_iff s.nodes fun _ queue =>
      queue.stop≠.running → main.isDeinit=true).mpr
      ⟨hrunning,fun p _ hstop => hmain (h.running p hstop)⟩
  case works =>
    intro work hwork
    dsimp only
    rw [hfbs]
    exact h.works work hwork

/-- `workqueue_deinit` is not left. -/
theorem afterThread_deinit {main : MainPc} (h : main.isDeinit=true) (e : QueueEvent) :
    (afterThread main e).isDeinit=true := by
  cases main with
  | deinit => cases e <;> rfl
  | _ => cases h

/-- Only the broadcast of a call moves the main thread. -/
theorem afterThread_eq (main : MainPc) {e : QueueEvent} (h : ∀ n, e≠.broadcastCall n) :
    afterThread main e=main := by
  cases e with
  | broadcastCall n => exact absurd rfl (h n)
  | _ => rfl

/-- What a step of a queue leaves alone there. -/
theorem Separate.kept {q : ℕ} {e : QueueEvent} {queue : Queue} {reply : Unit}
    (hseparate : Separate s q e) (hpossible : WorkQueue.Possible (s.nodes q) e)
    (hstep : queueStep (s.nodes q) e=some (reply,queue)) : Kept e (s.nodes q) queue := by
  refine kept_step hpossible (fun item entry hc => ?_) (fun err handled hc => ?_) hstep
  · rw [hc] at hseparate
    exact hseparate
  · rw [hc] at hseparate
    exact hseparate

/-- An idle main thread is in no other place. -/
theorem MainPc.of_isIdle {main : MainPc} (h : main.isIdle=true) :
    (∀ size next q, main≠.enqueueing size next q) ∧ main.isDeinit=false := by
  cases main <;> simp [MainPc.isIdle,MainPc.isDeinit] at h ⊢

/-- Nor is one that goes through the list. -/
theorem MainPc.of_position {main : MainPc} {p : ℕ → Bool} (h : main.position.any p=true) :
    ∃ size next, main=.queueing size next ∧ p next=true := by
  cases main with
  | queueing size next => exact ⟨size,next,rfl,by simpa [MainPc.position] using h⟩
  | _ => simp [MainPc.position] at h

/-- No call appends when its queue has been stopped. -/
theorem ResizerInv.final (h : ResizerInv s) {q : ℕ} {e : QueueEvent}
    (hpossible : WorkQueue.Possible (s.nodes q) e) : Final (s.nodes q) e := by
  cases e with
  | appendCall n =>
    intro hstop
    obtain ⟨⟨size,next,hmain⟩,_⟩ := h.busy q n .locked hpossible (by simp)
    have hdeinit := h.running q (by simp [hstop])
    rw [hmain] at hdeinit
    cases hdeinit
  | _ => trivial

/-- A step of one queue. -/
theorem ResizerInv.thread (h : ResizerInv s) {q : ℕ} {e : QueueEvent} (hseparate : Separate s q e)
    (hpossible : WorkQueue.Possible (s.nodes q) e) :
    ∃ queue, queueStep (s.nodes q) e=some ((),queue) ∧
      ResizerInv {s with
        nodes := Function.update s.nodes q queue
        main := afterThread s.main e} := by
  obtain ⟨seq,hqueue⟩ := h.queue q
  obtain ⟨queue,hstep,hnext⟩ := queueInv_step (h.lock q) hqueue hpossible (h.final hpossible)
  have hkept := hseparate.kept hpossible hstep
  have hlength : queue.calls.length=(s.nodes q).calls.length := by
    simpa using congrArg List.length hkept.items
  -- a broadcast is that of the last call of the queue in which the main thread is
  have hlast : ∀ m, e=.broadcastCall m →
      (∃ size next, s.main=.enqueueing size next q) ∧ m+1=(s.nodes q).calls.length := by
    rintro m rfl
    exact h.busy q m .unlocked hpossible (by simp)
  refine ⟨queue,hstep,h.set_node (lockInv_step (h.lock q) hpossible hstep) hnext hkept.items ?_
    (fun n pc hpc hne => ?_) (fun p hp n pc hpc hne => ?_) (fun hstop => ?_)
    (fun hd => afterThread_deinit hd e) rfl⟩
  · rw [hkept.ran]
    exact h.handled q
  · obtain ⟨pc',hpc',hne',hnot⟩ := hkept.busy n pc hpc hne
    obtain ⟨hmain,hn⟩ := h.busy q n pc' hpc' hne'
    rw [hlength,afterThread_eq]
    · exact ⟨hmain,hn⟩
    · intro m hm
      have hmn : m=n := by have := (hlast m hm).2; omega
      exact hnot (hmn ▸ hm)
  · obtain ⟨hmain,hn⟩ := h.busy p n pc hpc hne
    rw [afterThread_eq]
    · exact ⟨hmain,hn⟩
    · intro m hm
      obtain ⟨_,_,hmain⟩ := hmain
      obtain ⟨⟨_,_,hq⟩,_⟩ := hlast m hm
      rw [hmain] at hq
      cases hq
      exact hp rfl
  · rcases hkept.stop hstop with hstop | rfl
    · exact afterThread_deinit (h.running q hstop) e
    · exact hseparate.1

/-- The request of an entry that a worker holds. -/
theorem ResizerInv.request_there (h : ResizerInv s) {q : ℕ} (hq : q<s.num) {entry : ℕ}
    (hpc : (s.nodes q).worker=.holding entry) :
    ((s.nodes q).info entry).priv<s.requests.length := by
  obtain ⟨seq,hqueue⟩ := h.queue q
  have hthere := hqueue.held entry (Or.inl (by simp [hpc,WorkerPc.toRun]))
  obtain ⟨late,hknown⟩ := hqueue.known entry hthere
  rw [stage,Option.map_eq_some_iff] at hknown
  obtain ⟨call,hcall,hout⟩ := hknown
  simp only [Prod.mk.injEq] at hout
  have hmem : ((s.nodes q).info entry).priv∈privs (s.nodes q) := by
    rw [←hout.2.1]
    exact List.mem_map_of_mem (List.mem_of_getElem? hcall)
  exact List.mem_range.mp (h.owners.mem_iff.mp (List.mem_append_right _
    (List.mem_flatMap.mpr ⟨q,List.mem_range.mpr hq,hmem⟩)))

/-- A callback returns, and the error handler returns the same. -/
theorem ResizerInv.callback (h : ResizerInv s) {q entry : ℕ}
    (hpc : (s.nodes q).worker=.holding entry) (err : ℤ) {fbs : List Fb}
    (hfbs : fbs.length=s.fbs.length) :
    queueStep (s.nodes q) (.run err err)=some ((),workerRun (s.nodes q) entry err err) ∧
      (workerRun (s.nodes q) entry err err).ran=
        (s.nodes q).ran++[⟨(s.nodes q).ticket entry,err,err⟩] ∧
      ResizerInv {s with
        nodes := Function.update s.nodes q (workerRun (s.nodes q) entry err err)
        fbs := fbs} := by
  obtain ⟨seq,hqueue⟩ := h.queue q
  have hpossible : WorkQueue.Possible (s.nodes q) (.run err err) := by
    simp [WorkQueue.Possible,hpc,WorkerPc.toRun]
  obtain ⟨queue,hstep,hnext⟩ := queueInv_step (h.lock q) hqueue hpossible trivial
  have hqueue' : queue=workerRun (s.nodes q) entry err err := by
    obtain ⟨entry',hpc',rfl⟩ := run_cases hstep
    rw [hpc] at hpc'
    cases hpc'
    rfl
  obtain ⟨_,hcalls,hstop,_⟩ := workerRun_frame (s.nodes q) entry err err
  have hran : (workerRun (s.nodes q) entry err err).ran=
      (s.nodes q).ran++[⟨(s.nodes q).ticket entry,err,err⟩] := by
    obtain ⟨lock,worker,_,hrun⟩ := workerRun_eq (s.nodes q) entry err err
    rw [hrun]
  rw [hqueue'] at hstep hnext
  refine ⟨hstep,hran,h.set_node (lockInv_step (h.lock q) hpossible hstep) hnext (by rw [hcalls]) ?_
    ?_ (fun p _ => h.busy p) ?_ id hfbs⟩
  · intro record hrecord
    rw [hran,List.mem_append,List.mem_singleton] at hrecord
    rcases hrecord with hrecord | rfl
    · exact h.handled q record hrecord
    · rfl
  · rw [hcalls]
    exact h.busy q
  · rw [hstop]
    exact h.running q

/-- A worker resizes a framebuffer. -/
theorem ResizerInv.work (h : ResizerInv s) {q : ℕ} (hq : q<s.num)
    (hpossible : WorkQueue.Possible (s.nodes q) (.run 0 0)) (block : Option (ℕ → FbPixel)) :
    ∃ err entry fbs, (err=0 ↔ block≠none) ∧
      resizeWork s q block=some (err,{s with
        nodes := Function.update s.nodes q (workerRun (s.nodes q) entry err err)
        fbs := fbs}) ∧
      (workerRun (s.nodes q) entry err err).ran=
        (s.nodes q).ran++[⟨(s.nodes q).ticket entry,err,err⟩] ∧
      ResizerInv {s with
        nodes := Function.update s.nodes q (workerRun (s.nodes q) entry err err)
        fbs := fbs} := by
  cases hpc : (s.nodes q).worker with
  | holding entry =>
    have hpriv := h.request_there hq hpc
    have hfb := h.works _ (List.getElem_mem hpriv)
    generalize hwork : s.requests[((s.nodes q).info entry).priv]=work at hfb
    have hrequest : s.requests[((s.nodes q).info entry).priv]?=some work := by
      rw [List.getElem?_eq_getElem hpriv,hwork]
    have hget : s.fbs[work.fb]?=some s.fbs[work.fb] := List.getElem?_eq_getElem hfb
    obtain ⟨hstep,hran,hinv⟩ := @ResizerInv.callback s h q entry hpc
      (fbResize s.fbs[work.fb] block work.size).1
      (s.fbs.set work.fb (fbResize s.fbs[work.fb] block work.size).2) (List.length_set ..)
    refine ⟨_,entry,_,?_,?_,hran,hinv⟩
    · cases block <;> simp [fbResize,ENOMEM]
    · simp only [resizeWork,hpc,hrequest,Option.bind_some,hget,resizeWqErr,hstep,Option.map_some]
  | _ => exact absurd (by rw [hpc]; rfl) hpossible

/-- A request that is refused is freed. -/
theorem ResizerInv.refuse (h : ResizerInv s) {work : ResizeWork} (hwork : work.fb<s.fbs.length)
    (hmain : ∀ size next q, s.main≠.enqueueing size next q) (hdeinit : s.main.isDeinit=false) :
    ResizerInv {s with
      requests := s.requests++[work]
      main := .idle
      refused := s.refused++[s.requests.length]} := by
  have hidle := @ResizerInv.set_main s h .idle hmain hdeinit
  refine ⟨h.lock,h.queue,?_,h.items,h.handled,hidle.busy,hidle.running,?_⟩
  · dsimp only
    rw [List.length_append,List.length_singleton,List.range_succ,List.append_assoc]
    refine (List.perm_append_comm.append_left _).trans ?_
    rw [←List.append_assoc]
    exact h.owners.append_right _
  · intro other hother
    rcases List.mem_append.mp hother with hother | hother
    · exact h.works other hother
    · rw [List.mem_singleton.mp hother]
      exact hwork

/-- A request is handed to a queue. -/
theorem ResizerInv.enqueue (h : ResizerInv s) {work : ResizeWork} (hwork : work.fb<s.fbs.length)
    (hmain : ∀ size next q, s.main≠.enqueueing size next q) (hdeinit : s.main.isDeinit=false)
    {q : ℕ} (hq : q<s.num) {entry : ℕ} (hfresh : (s.nodes q).heap.entries entry=none)
    (size : FbSize) (next : ℕ) :
    ResizerInv {s with
      requests := s.requests++[work]
      nodes := Function.update s.nodes q
        (queueCall (s.nodes q) (resizeItem s.requests.length) entry)
      main := .enqueueing size next q} := by
  obtain ⟨seq,hqueue⟩ := h.queue q
  have hstep : queueStep (s.nodes q) (.call (resizeItem s.requests.length) entry)=
      some ((),queueCall (s.nodes q) (resizeItem s.requests.length) entry) := rfl
  have hcall : WorkQueue.Possible (s.nodes q) (.call (resizeItem s.requests.length) entry) := hfresh
  have hcalls : (queueCall (s.nodes q) (resizeItem s.requests.length) entry).calls=
      (s.nodes q).calls++[⟨entry,resizeItem s.requests.length,.allocated⟩] := rfl
  have hprivs : ∀ p, privs (Function.update s.nodes q
      (queueCall (s.nodes q) (resizeItem s.requests.length) entry) p)=
      privs (s.nodes p)++if p=q then [s.requests.length] else [] := by
    intro p
    by_cases hp : p=q
    · rw [hp,Function.update_self,if_pos rfl,privs,hcalls,List.map_append]
      rfl
    · rw [Function.update_of_ne hp,if_neg hp,List.append_nil]
  have hreturned : ∀ p n pc, pcOf (s.nodes p).calls n=some pc → pc=.returned :=
    fun p n pc hpc => h.returned hmain hpc
  constructor
  case lock =>
    exact (Function.forall_update_iff s.nodes fun _ queue => LockInv queue).mpr
      ⟨lockInv_step (h.lock q) hcall hstep,fun p _ => h.lock p⟩
  case queue =>
    exact (Function.forall_update_iff s.nodes fun _ queue => ∃ seq, QueueInv queue seq).mpr
      ⟨⟨seq,hqueue.call hfresh⟩,fun p _ => h.queue p⟩
  case owners =>
    simp only [hprivs]
    rw [List.length_append,List.length_singleton,List.range_succ]
    refine ((List.flatMap_append_perm (List.range s.num) _ _).symm.append_left _).trans ?_
    rw [flatMap_single List.nodup_range (List.mem_range.mpr hq),←List.append_assoc]
    exact h.owners.append_right _
  case items =>
    refine (Function.forall_update_iff s.nodes fun _ queue =>
      ∀ call∈queue.calls, call.item=resizeItem call.item.priv).mpr
      ⟨fun call hcall => ?_,fun p _ => h.items p⟩
    rw [hcalls,List.mem_append,List.mem_singleton] at hcall
    rcases hcall with hcall | rfl
    · exact h.items q call hcall
    · rfl
  case handled =>
    exact (Function.forall_update_iff s.nodes fun _ queue =>
      ∀ record∈queue.ran, record.handled=record.err).mpr ⟨h.handled q,fun p _ => h.handled p⟩
  case busy =>
    refine (Function.forall_update_iff s.nodes fun p queue =>
      ∀ n pc, pcOf queue.calls n=some pc → pc≠.returned →
        (∃ size' next', MainPc.enqueueing size next q=.enqueueing size' next' p) ∧
        n+1=queue.calls.length).mpr ⟨fun n pc hpc hne => ?_,fun p _ n pc hpc hne => ?_⟩
    · rw [hcalls,pcOf_append] at hpc
      split at hpc
      · rename_i hn
        exact ⟨⟨size,next,rfl⟩,by rw [hcalls,List.length_append,hn]; rfl⟩
      · exact absurd (hreturned q n pc hpc) hne
    · exact absurd (hreturned p n pc hpc) hne
  case running =>
    have hrunning : ∀ p, (s.nodes p).stop=.running := by
      intro p
      by_contra hstop
      rw [h.running p hstop] at hdeinit
      cases hdeinit
    exact (Function.forall_update_iff s.nodes fun _ queue => queue.stop≠.running →
      MainPc.isDeinit (.enqueueing size next q)=true).mpr
      ⟨fun hstop => absurd (hrunning q) hstop,fun p _ hstop => absurd (hrunning p) hstop⟩
  case works =>
    intro other hother
    rcases List.mem_append.mp hother with hother | hother
    · exact h.works other hother
    · rw [List.mem_singleton.mp hother]
      exact hwork

end Nodes

/-- Some callback has succeeded. -/
def AnySucceeded (s : Resizer) : Prop := ∃ q<s.num, ∃ record∈(s.nodes q).ran, record.err=0

/-- A worker resizes a framebuffer with success. -/
def Succeeds : ResizerEvent → Prop
  | .work _ block => block≠none
  | _ => False

/-- Nothing was run by a step that leaves the histories alone. -/
theorem anySucceeded_congr (hnum : s'.num=s.num) (hran : ∀ q, (s'.nodes q).ran=(s.nodes q).ran) :
    AnySucceeded s' ↔ AnySucceeded s ∨ False := by
  simp only [AnySucceeded,hnum,hran,or_false]

/-- A round of the loop of `resize_cb` runs no callback. -/
theorem ResizerInv.request (h : ResizerInv s) {size : FbSize} {next : ℕ}
    (hmain : s.main=.queueing size next) {fb : Fb} (hget : s.fbs[next]?=some fb) (priv : Bool)
    {entry : Option ℕ} (hfresh : ∀ address∈entry, ∀ q<s.num,(s.nodes q).heap.entries address=none) :
    ResizerInv (resizeRound s size next fb priv entry).2 ∧
      (AnySucceeded (resizeRound s size next fb priv entry).2 ↔ AnySucceeded s ∨ False) := by
  have hnot : ∀ size next q, s.main≠.enqueueing size next q := by simp [hmain]
  have hdeinit : s.main.isDeinit=false := by simp [hmain,MainPc.isDeinit]
  have hlt : next<s.fbs.length := (List.getElem?_eq_some_iff.mp hget).1
  unfold resizeRound
  cases priv with
  | false => exact ⟨h.set_main hnot hdeinit,anySucceeded_congr rfl fun _ => rfl⟩
  | true =>
    dsimp only
    rw [if_pos rfl]
    by_cases hnode : s.num ≤ fb.numaNode
    · rw [if_pos hnode]
      exact ⟨@ResizerInv.refuse s h ⟨next,size⟩ hlt hnot hdeinit,
        anySucceeded_congr rfl fun _ => rfl⟩
    · rw [if_neg hnode]
      have hq := Nat.lt_of_not_le hnode
      cases entry with
      | none =>
        exact ⟨@ResizerInv.refuse s h ⟨next,size⟩ hlt hnot hdeinit,
          anySucceeded_congr rfl fun _ => rfl⟩
      | some entry =>
        refine ⟨@ResizerInv.enqueue s h ⟨next,size⟩ hlt hnot hdeinit _ hq entry
          (hfresh entry rfl _ hq) size next,anySucceeded_congr rfl fun q => ?_⟩
        by_cases hq : q=fb.numaNode
        · dsimp only
          rw [hq,Function.update_self]
          rfl
        · exact congrArg Queue.ran (Function.update_of_ne hq _ _)

/-- A worker that runs a callback adds what that returned. -/
theorem anySucceeded_work {q : ℕ} (hq : q<s.num) {queue : Queue} {record : RunRecord}
    (hran : queue.ran=(s.nodes q).ran++[record]) {fbs : List Fb} :
    AnySucceeded {s with nodes := Function.update s.nodes q queue, fbs := fbs} ↔
      AnySucceeded s ∨ record.err=0 := by
  constructor
  · rintro ⟨p,hp,record',hrecord,hzero⟩
    dsimp only at hrecord
    by_cases hpq : p=q
    · rw [hpq,Function.update_self,hran,List.mem_append,List.mem_singleton] at hrecord
      rcases hrecord with hrecord | rfl
      · exact Or.inl ⟨q,hq,record',hrecord,hzero⟩
      · exact Or.inr hzero
    · rw [Function.update_of_ne hpq] at hrecord
      exact Or.inl ⟨p,hp,record',hrecord,hzero⟩
  · rintro (⟨p,hp,record',hrecord,hzero⟩ | hzero)
    · refine ⟨p,hp,record',?_,hzero⟩
      dsimp only
      by_cases hpq : p=q
      · rw [hpq,Function.update_self,hran]
        exact List.mem_append_left _ (hpq ▸ hrecord)
      · rwa [Function.update_of_ne hpq]
    · refine ⟨q,hq,record,?_,hzero⟩
      dsimp only
      rw [Function.update_self,hran]
      exact List.mem_append_right _ (List.mem_singleton_self _)

/-- Every step succeeds, keeps the invariant, and has a callback succeed only
if it is one. -/
theorem resizerInv_step {e : ResizerEvent} (h : ResizerInv s) (hpossible : Possible s e) :
    ∃ reply s', resizerStep s e=some (reply,s') ∧ ResizerInv s' ∧
      (AnySucceeded s' ↔ AnySucceeded s ∨ Succeeds e) := by
  cases e with
  | addFb fb =>
    refine ⟨0,_,rfl,⟨h.lock,h.queue,h.owners,h.items,h.handled,h.busy,h.running,?_⟩,
      anySucceeded_congr rfl fun _ => rfl⟩
    intro work hwork
    exact (h.works work hwork).trans_le (by simp)
  | resize size =>
    obtain ⟨hnot,hdeinit⟩ := MainPc.of_isIdle hpossible
    exact ⟨0,_,rfl,h.set_main hnot hdeinit,anySucceeded_congr rfl fun _ => rfl⟩
  | leave =>
    obtain ⟨size,next,hmain,_⟩ := MainPc.of_position hpossible
    exact ⟨0,_,rfl,h.set_main (by simp [hmain]) (by simp [hmain,MainPc.isDeinit]),
      anySucceeded_congr rfl fun _ => rfl⟩
  | deinit =>
    obtain ⟨hnot,hdeinit⟩ := MainPc.of_isIdle hpossible
    exact ⟨0,_,rfl,h.set_main hnot hdeinit,anySucceeded_congr rfl fun _ => rfl⟩
  | request priv entry =>
    obtain ⟨size,next,hmain,hlt⟩ := MainPc.of_position hpossible.1
    have hget := List.getElem?_eq_getElem (of_decide_eq_true hlt)
    obtain ⟨hinv,hsucceeded⟩ := h.request hmain hget priv hpossible.2
    exact ⟨_,_,by simp only [resizerStep,hmain,hget,Option.map_some]; rfl,hinv,hsucceeded⟩
  | thread q e =>
    obtain ⟨hq,hseparate,hqueue⟩ := hpossible
    obtain ⟨queue,hstep,hinv⟩ := h.thread hseparate hqueue
    refine ⟨0,_,by rw [resizerStep,hstep,Option.map_some],hinv,anySucceeded_congr rfl fun p => ?_⟩
    by_cases hp : p=q
    · rw [hp]
      exact (congrArg Queue.ran (Function.update_self _ _ _)).trans
        (hseparate.kept hqueue hstep).ran
    · exact congrArg Queue.ran (Function.update_of_ne hp _ _)
  | work q block =>
    obtain ⟨hq,hqueue⟩ := hpossible
    obtain ⟨err,entry,fbs,herr,hstep,hran,hinv⟩ := h.work hq hqueue block
    refine ⟨err,_,hstep,hinv,(anySucceeded_work hq hran).trans (or_congr_right ?_)⟩
    exact herr

/-- It holds before the first resize event. -/
theorem resizerInv_initialised (num : ℕ) (fbs : List Fb) : ResizerInv (initialised num fbs) where
  lock _ := lockInv_fresh
  queue _ := ⟨[],queueInv_fresh⟩
  owners := by simp [initialised,privs,freshQueue]
  items _ _ h := by cases h
  handled _ _ h := by cases h
  busy _ _ _ h := by cases h
  running _ h := absurd rfl h
  works _ h := by cases h

/-- When all queues have been stopped, a request was freed once or had a
callback that succeeded. -/
theorem ResizerInv.released_perm (h : ResizerInv s) (hend : Deinitialised s) :
    (released s++(List.range s.num).flatMap fun q => succeeded (s.nodes q)).Perm
      (List.range s.requests.length) := by
  have hnot : ∀ size next q, s.main≠.enqueueing size next q := by
    intro size next q hc
    have hdeinit := hend.1
    rw [hc] at hdeinit
    cases hdeinit
  have hnode : ∀ q∈List.range s.num,
      (cleanedUp (s.nodes q)++succeeded (s.nodes q)).Perm (privs (s.nodes q)) := by
    intro q hq
    obtain ⟨seq,hqueue⟩ := h.queue q
    refine cleanedUp_perm (h.lock q) hqueue (hend.2 q (List.mem_range.mp hq)) (fun call hcall => ?_)
      (h.items q) (h.handled q)
    obtain ⟨n,hn⟩ := List.mem_iff_getElem?.mp hcall
    have hpc := @ResizerInv.returned s h hnot q n call.pc (by rw [pcOf,hn,Option.map_some])
    rw [hpc]
    rfl
  unfold released
  rw [List.append_assoc]
  refine (List.Perm.append_left _ ?_).trans h.owners
  exact (List.flatMap_append_perm _ _ _).trans (List.Perm.flatMap_left _ hnode)

/-- At the end of every run, every request was freed exactly once if and only
if no callback has succeeded. -/
theorem requests_released_iff {num : ℕ} {fbs : List Fb} {events : List ResizerEvent}
    (hadm : Admitted Possible resizerStep (initialised num fbs) events) :
    ∃ replies s, run resizerStep (initialised num fbs) events=some (replies,s) ∧
      (Deinitialised s → ((∀ i<s.requests.length,(released s).count i=1) ↔
        ∀ q block, ResizerEvent.work q (some block)∉events)) := by
  obtain ⟨replies,s,hrun,h,hany⟩ := run_happened (fun s e => @resizerInv_step s e)
    (resizerInv_initialised num fbs) hadm
  refine ⟨replies,s,hrun,fun hend => ?_⟩
  have hperm := h.released_perm hend
  have hevents : AnySucceeded s ↔ ∃ q block, ResizerEvent.work q (some block)∈events := by
    have hnone : ¬AnySucceeded (initialised num fbs) := by
      rintro ⟨q,_,record,hrecord,_⟩
      cases hrecord
    rw [hany,or_iff_right hnone]
    constructor
    · rintro ⟨e,he,hsucceeds⟩
      cases e with
      | work q block =>
        obtain ⟨heap,rfl⟩ := Option.ne_none_iff_exists'.mp hsucceeds
        exact ⟨q,heap,he⟩
      | _ => exact absurd hsucceeds id
    · rintro ⟨q,block,he⟩
      exact ⟨_,he,by simp [Succeeds]⟩
  have hempty : ((List.range s.num).flatMap fun q => succeeded (s.nodes q))=[] ↔ ¬AnySucceeded s := by
    simp only [AnySucceeded,List.flatMap_eq_nil_iff,List.mem_range,succeeded]
    constructor
    · rintro hnil ⟨q,hq,record,hrecord,hzero⟩
      have hone := hnil q hq record hrecord
      rw [if_pos hzero] at hone
      cases hone
    · intro hnone q hq record hrecord
      exact if_neg fun hzero => hnone ⟨q,hq,record,hrecord,hzero⟩
  have hnot : (∀ q block, ResizerEvent.work q (some block)∉events) ↔ ¬AnySucceeded s := by
    rw [hevents]
    simp
  rw [hnot,←hempty]
  constructor
  · intro honce
    refine List.eq_nil_iff_forall_not_mem.mpr fun i hi => ?_
    have hmem := hperm.mem_iff.mp (List.mem_append_right _ hi)
    have hcount := hperm.count_eq i
    rw [List.count_append,honce i (List.mem_range.mp hmem),
      List.count_eq_one_of_mem List.nodup_range hmem] at hcount
    have hpos := List.count_pos_iff.mpr hi
    omega
  · intro hnil i hi
    rw [hnil,List.append_nil] at hperm
    rw [hperm.count_eq i]
    exact List.count_eq_one_of_mem List.nodup_range (List.mem_range.mpr hi)

/-- One framebuffer of one pixel on the first node. -/
def onePixel : List Fb := [⟨⟨1,1⟩,1,fun _ => ⟨0,0,0,0⟩,0,0⟩]

/-- One resize event that is queued while the worker waits, up to its callback. -/
def resizeEvents : List ResizerEvent :=
  [.thread 0 .lockWorker,.thread 0 .test,.thread 0 .wait,.resize ⟨2,1⟩,.request true (some 7),
    .thread 0 (.lockCall 0),.thread 0 (.appendCall 0),.thread 0 (.unlockCall 0),
    .thread 0 (.broadcastCall 0),.leave,.thread 0 .lockWorker,.thread 0 .look]

/-- The callback fails, and the server shuts down. -/
def failedEvents : List ResizerEvent :=
  resizeEvents++[.work 0 none,.thread 0 .free,.deinit,.thread 0 .stop,.thread 0 .broadcastStop,
    .thread 0 .join,.thread 0 .drain]

/-- The callback succeeds, and the server is stopped later. -/
def succeededEvents : List ResizerEvent :=
  resizeEvents++[.work 0 (some fun _ => ⟨0,0,0,0⟩),.thread 0 .free,.deinit,.thread 0 .stop,
    .thread 0 .look,.thread 0 .test,.thread 0 .broadcastStop,.thread 0 .join,.thread 0 .drain]

/-- The request is freed once. -/
theorem requests_released_failed :
    ∃ replies s, run resizerStep (initialised 1 onePixel) failedEvents=some (replies,s) ∧
      ∀ i<s.requests.length,(released s).count i=1 := by
  have hadm : Admitted Possible resizerStep (initialised 1 onePixel) failedEvents := by
    decide +kernel
  obtain ⟨replies,s,hrun,hiff⟩ := requests_released_iff hadm
  have hend : (run resizerStep (initialised 1 onePixel) failedEvents).map
      (fun out => (out.2.main.isDeinit,out.2.num,(out.2.nodes 0).stop))=
      some (true,1,.stopped) := by decide +kernel
  rw [hrun,Option.map_some,Option.some.injEq,Prod.mk.injEq,Prod.mk.injEq] at hend
  refine ⟨replies,s,hrun,(hiff ⟨hend.1,fun q hq => ?_⟩).mpr fun q block hmem => ?_⟩
  · have hnum : s.num=1 := hend.2.1
    have hzero : q=0 := by omega
    rw [hzero]
    exact hend.2.2
  · simp [failedEvents,resizeEvents] at hmem

/-- The request of a framebuffer that was resized is never freed. -/
theorem resized_request_leaks :
    Admitted Possible resizerStep (initialised 1 onePixel) succeededEvents ∧
      ∃ replies s, run resizerStep (initialised 1 onePixel) succeededEvents=some (replies,s) ∧
        Deinitialised s ∧ s.requests.length=1 ∧ (released s).count 0=0 := by
  refine ⟨by decide +kernel,_,_,rfl,⟨rfl,fun q hq => ?_⟩,rfl,by decide +kernel⟩
  have hzero : q=0 := Nat.lt_one_iff.mp hq
  rw [hzero]
  rfl

end Shoreline.ResizeRelease
