import Shoreline.WakeUp

/-!
# Queued items in order

An entry is in the hands of the call that has allocated it, then in the list,
then in the hands of the worker or of `stop_workqueue`, and then it is freed.
The tickets of the calls say in which order: what was run, what is being run,
what was dropped and what is still queued is together what was appended.
-/

namespace Shoreline.QueueOrder

open StateMachine LinkedList WorkQueue WakeUp

/-- The entry of the call is in the list, or has been. -/
def queued : CallPc → Bool
  | .allocated => false
  | .locked => false
  | _ => true

/-- What a call has allocated and stored, and whether it has appended it. -/
def stage (calls : List Call) (n : ℕ) : Option (ℕ×WorkqueueEntry×Bool) :=
  calls[n]?.map fun call => (call.entry,call.item,queued call.pc)

/-- What a call has stored. -/
def itemOf (calls : List Call) (n : ℕ) : WorkqueueEntry :=
  ((stage calls n).map fun out => out.2.1).getD ⟨0,false,false⟩

/-- The cleanup handler that is called behind a callback. -/
def runCleanup (item : WorkqueueEntry) (record : RunRecord) : List (ℕ×ℤ) :=
  if record.err=0 ∨ item.err=true ∧ record.handled=0 then []
  else cleanupCall item record.ticket record.err

/-- The sequences of the one list. -/
def only (seq : List ℕ) : ℕ → List ℕ := Function.update (fun _ => []) 0 seq

/-- Where every entry is, and in which order. -/
structure QueueInv (s : Queue) (seq : List ℕ) : Prop where
  /-- The list is well formed. -/
  represents : Represents s.heap (only seq)
  /-- What was appended was run, is held by the worker, was dropped or is queued. -/
  order : s.appended=
    s.ran.map RunRecord.ticket++s.worker.toRun.map s.ticket++s.dropped++seq.map s.ticket
  /-- Nothing is appended twice. -/
  nodup : s.appended.Nodup
  /-- Exactly the calls that have appended are in the history. -/
  late : ∀ n, n∈s.appended ↔ ∃ e item, stage s.calls n=some (e,item,true)
  /-- A call that has not appended holds its entry. -/
  early : ∀ n e item, stage s.calls n=some (e,item,false) →
    s.ticket e=n ∧ s.heap.entries e≠none
  /-- The worker holds an entry that is there. -/
  held : ∀ e, e∈s.worker.toRun ∨ e∈s.worker.toFree → s.heap.entries e≠none
  /-- What it gives back has been run. -/
  freed : ∀ e∈s.worker.toFree, s.ticket e∈s.ran.map RunRecord.ticket
  /-- The call that has allocated an entry is known. -/
  known : ∀ e, s.heap.entries e≠none → ∃ late, stage s.calls (s.ticket e)=some (e,s.info e,late)
  /-- Nobody else holds an entry. -/
  alive : ∀ e, s.heap.entries e≠none → e∈seq ∨ e∈s.worker.toRun ∨ e∈s.worker.toFree ∨
    stage s.calls (s.ticket e)=some (e,s.info e,false)
  /-- Only `stop_workqueue` drops, when the worker has ended. -/
  dropped : s.dropped≠[] → s.stop=.draining ∨ s.stop=.stopped
  /-- It leaves nothing. -/
  stopped : s.stop=.stopped → seq=[]
  /-- Cleanup handlers were called behind failed callbacks and for what was dropped. -/
  cleaned : s.cleaned=s.ran.flatMap (fun record => runCleanup (itemOf s.calls record.ticket) record)++
    s.dropped.flatMap fun n => cleanupCall (itemOf s.calls n) n 0

variable {s s' : Queue} {seq : List ℕ}

section Calls

/-- Another step of a call. -/
theorem stage_setPc (calls : List Call) (n m : ℕ) (pc : CallPc) :
    stage (setPc calls n pc) m=
      if n=m then (stage calls m).map fun out => (out.1,out.2.1,queued pc) else stage calls m := by
  unfold stage
  rw [getElem?_setPc]
  split <;> simp [Function.comp_def]

/-- A step that neither appends nor comes before the append. -/
theorem stage_setPc_same {calls : List Call} {n : ℕ} {pc pc' : CallPc}
    (hpc : pcOf calls n=some pc) (hqueued : queued pc=queued pc') :
    stage (setPc calls n pc')=stage calls := by
  funext m
  rw [stage_setPc]
  by_cases hnm : n=m
  · subst hnm
    rw [pcOf,Option.map_eq_some_iff] at hpc
    obtain ⟨call,hcall,rfl⟩ := hpc
    simp [stage,hcall,hqueued]
  · rw [if_neg hnm]

/-- One more call. -/
theorem stage_append (calls : List Call) (call : Call) (m : ℕ) :
    stage (calls++[call]) m=
      if m=calls.length then some (call.entry,call.item,queued call.pc) else stage calls m := by
  unfold stage
  rw [getElem?_concat]
  split <;> rfl

/-- What a call has stored stays. -/
theorem itemOf_setPc (calls : List Call) (n : ℕ) (pc : CallPc) :
    itemOf (setPc calls n pc)=itemOf calls := by
  funext m
  unfold itemOf
  rw [stage_setPc]
  split <;> simp [Function.comp_def]

/-- Nor does another call change it. -/
theorem itemOf_append (calls : List Call) (call : Call) {m : ℕ} (hm : m≠calls.length) :
    itemOf (calls++[call]) m=itemOf calls m := by
  unfold itemOf
  rw [stage_append,if_neg hm]

/-- What is stored by the call at a stage. -/
theorem itemOf_eq {calls : List Call} {n e : ℕ} {item : WorkqueueEntry} {late : Bool}
    (h : stage calls n=some (e,item,late)) : itemOf calls n=item := by
  rw [itemOf,h,Option.map_some,Option.getD_some]

end Calls

/-- The sequence of the one list. -/
theorem only_zero (seq : List ℕ) : only seq 0=seq := Function.update_self _ _ _

/-- An entry is in the one list or in none. -/
theorem not_mem_only {e : ℕ} (h : e∉seq) (l : ℕ) : e∉only seq l := by
  by_cases hl : l=0
  · rwa [hl,only_zero]
  · simp [only,Function.update_of_ne hl]

/-- An entry of the list is there. -/
theorem QueueInv.there (h : QueueInv s seq) {e : ℕ} (he : e∈seq) : s.heap.entries e≠none :=
  @Represents.there _ _ 0 _ h.represents (by rwa [only_zero])

/-- What is in the list has been appended. -/
theorem QueueInv.appended_of_mem (h : QueueInv s seq) {e : ℕ} (he : e∈seq) :
    s.ticket e∈s.appended := by
  rw [h.order]
  exact List.mem_append_right _ (List.mem_map_of_mem he)

/-- What has been run has been appended. -/
theorem QueueInv.appended_of_ran (h : QueueInv s seq) {n : ℕ}
    (hn : n∈s.ran.map RunRecord.ticket) : n∈s.appended := by
  rw [h.order,List.append_assoc,List.append_assoc]
  exact List.mem_append_left _ hn

/-- So has what was dropped. -/
theorem QueueInv.appended_of_dropped (h : QueueInv s seq) {n : ℕ} (hn : n∈s.dropped) :
    n∈s.appended := by
  rw [h.order]
  exact List.mem_append_left _ (List.mem_append_right _ hn)

/-- What the worker has run, it does not find in the list. -/
theorem QueueInv.freed_not_mem (h : QueueInv s seq) {e : ℕ} (he : e∈s.worker.toFree) : e∉seq := by
  intro hseq
  have hnodup := h.nodup
  rw [h.order,List.append_assoc,List.append_assoc,List.nodup_append] at hnodup
  exact hnodup.2.2 _ (h.freed e he) _
    (List.mem_append_right _ (List.mem_append_right _ (List.mem_map_of_mem hseq))) rfl

/-- It is not of a call that has yet to append. -/
theorem QueueInv.not_early (h : QueueInv s seq) {n e : ℕ} {item : WorkqueueEntry}
    (hstage : stage s.calls n=some (e,item,false)) : n∉s.appended := by
  intro hn
  obtain ⟨e',item',hlate⟩ := (h.late n).mp hn
  rw [hstage] at hlate
  simp at hlate

/-- The first entry is taken from the list. -/
theorem takeFirst_eq {heap : Heap} {e : ℕ} {rest : List ℕ}
    (hrep : Represents heap (only (e::rest))) :
    ∃ heap', takeFirst heap=some (e,heap') ∧ Represents heap' (only rest) ∧
      ∀ x, heap'.entries x=none ↔ heap.entries x=none := by
  have hmem : e∈only (e::rest) 0 := by simp [only_zero]
  obtain ⟨entry,heap',hentry,hrun,hrem⟩ := hrep.removed hmem
  have hhead := hrep.head 0
  rw [only_zero,List.head?_cons] at hhead
  have hnext := hrep.remove hmem hentry hrem
  rw [only_zero,List.erase_cons_head,only,Function.update_idem] at hnext
  refine ⟨heap',?_,hnext,hrem.there (by simp [hentry])⟩
  simp [takeFirst,llistGetEntry,hhead,llistForEach,hrun]

section Steps

/-- Steps around the mutex and the condition. -/
theorem QueueInv.control (h : QueueInv s seq) {doExit waited : Bool} {lock : Option Holder}
    {worker : WorkerPc} {calls : List Call} {stop : StopPc} (hstage : stage calls=stage s.calls)
    (hrun : worker.toRun=s.worker.toRun) (hfree : worker.toFree=s.worker.toFree)
    (hdropped : s.dropped≠[] → stop=.draining ∨ stop=.stopped)
    (hstopped : stop=.stopped → seq=[]) :
    QueueInv {s with
      doExit := doExit
      waited := waited
      lock := lock
      worker := worker
      calls := calls
      stop := stop} seq := by
  have hitem : itemOf calls=itemOf s.calls := by
    funext n
    rw [itemOf,hstage,itemOf]
  constructor
  case represents => exact h.represents
  case order => simpa only [hrun] using h.order
  case nodup => exact h.nodup
  case late => simpa only [hstage] using h.late
  case early => simpa only [hstage] using h.early
  case held => simpa only [hrun,hfree] using h.held
  case freed => simpa only [hfree] using h.freed
  case known => simpa only [hstage] using h.known
  case alive => simpa only [hstage,hrun,hfree] using h.alive
  case dropped => exact hdropped
  case stopped => exact hstopped
  case cleaned => simpa only [hitem] using h.cleaned

/-- A call has allocated an entry. -/
theorem QueueInv.call (h : QueueInv s seq) {item : WorkqueueEntry} {entry : ℕ}
    (hfresh : s.heap.entries entry=none) : QueueInv (queueCall s item entry) seq := by
  have hother : ∀ e, s.heap.entries e≠none → e≠entry := by
    rintro e he rfl
    exact he hfresh
  have hticket : ∀ e, s.heap.entries e≠none → (queueCall s item entry).ticket e=s.ticket e :=
    fun e he => Function.update_of_ne (hother e he) _ _
  have hinfo : ∀ e, s.heap.entries e≠none → (queueCall s item entry).info e=s.info e :=
    fun e he => Function.update_of_ne (hother e he) _ _
  have hheap : ∀ e, (queueCall s item entry).heap.entries e≠none ↔
      e=entry ∨ s.heap.entries e≠none := by
    intro e
    by_cases he : e=entry <;> simp [queueCall,he]
  have hnone : stage s.calls s.calls.length=none := by simp [stage]
  have hstage : ∀ n, stage (queueCall s item entry).calls n=
      if n=s.calls.length then some (entry,item,false) else stage s.calls n :=
    fun n => stage_append s.calls ⟨entry,item,.allocated⟩ n
  have hnew : stage (queueCall s item entry).calls ((queueCall s item entry).ticket entry)=
      some (entry,(queueCall s item entry).info entry,false) := by
    rw [hstage]
    simp [queueCall]
  have hold : ∀ e, s.heap.entries e≠none →
      stage (queueCall s item entry).calls ((queueCall s item entry).ticket e)=
        stage s.calls (s.ticket e) := by
    intro e he
    obtain ⟨late,hknown⟩ := h.known e he
    rw [hticket e he,hstage,if_neg]
    intro hc
    rw [hc,hnone] at hknown
    cases hknown
  have hnot : entry∉seq := fun hc => h.there hc hfresh
  have hlast : ∀ n∈s.appended,n≠s.calls.length := by
    rintro n hn rfl
    obtain ⟨e,item',hlate⟩ := (h.late _).mp hn
    rw [hnone] at hlate
    cases hlate
  constructor
  case represents =>
    exact h.represents.update (not_mem_only hnot) fun other hother => (Option.some.inj hother).symm
  case order =>
    have hrun : s.worker.toRun.map (queueCall s item entry).ticket=s.worker.toRun.map s.ticket :=
      List.map_congr_left fun e he => hticket e (h.held e (Or.inl he))
    have hseq : seq.map (queueCall s item entry).ticket=seq.map s.ticket :=
      List.map_congr_left fun e he => hticket e (h.there he)
    exact h.order.trans (by rw [←hrun,←hseq]; rfl)
  case nodup => exact h.nodup
  case late =>
    intro n
    rw [hstage]
    by_cases hn : n=s.calls.length
    · rw [if_pos hn]
      exact ⟨fun hc => absurd hn (hlast n hc),fun hc => by simp at hc⟩
    · rw [if_neg hn]
      exact h.late n
  case early =>
    intro n e item' hn
    rw [hstage] at hn
    by_cases hnl : n=s.calls.length
    · rw [if_pos hnl] at hn
      cases hn
      exact ⟨(Function.update_self _ _ _).trans hnl.symm,(hheap _).mpr (Or.inl rfl)⟩
    · rw [if_neg hnl] at hn
      obtain ⟨ht,he⟩ := h.early n e item' hn
      exact ⟨(hticket e he).trans ht,(hheap e).mpr (Or.inr he)⟩
  case held => exact fun e he => (hheap e).mpr (Or.inr (h.held e he))
  case freed =>
    intro e he
    rw [hticket e (h.held e (Or.inr he))]
    exact h.freed e he
  case known =>
    intro e he
    rcases (hheap e).mp he with rfl | he
    · exact ⟨false,hnew⟩
    · rw [hold e he,hinfo e he]
      exact h.known e he
  case alive =>
    intro e he
    rcases (hheap e).mp he with rfl | he
    · exact Or.inr (Or.inr (Or.inr hnew))
    · rw [hold e he,hinfo e he]
      exact h.alive e he
  case dropped => exact h.dropped
  case stopped => exact h.stopped
  case cleaned =>
    refine h.cleaned.trans (congrArg₂ _ (List.flatMap_congr fun record hr => ?_)
      (List.flatMap_congr fun n hn => ?_))
    · have hn := hlast _ (h.appended_of_ran (List.mem_map_of_mem hr))
      rw [show itemOf (queueCall s item entry).calls record.ticket=_ from itemOf_append _ _ hn]
    · have hn := hlast _ (h.appended_of_dropped hn)
      rw [show itemOf (queueCall s item entry).calls n=_ from itemOf_append _ _ hn]

/-- A call appends its entry. -/
theorem QueueInv.append (h : QueueInv s seq) {n : ℕ} {call : Call} (hcall : s.calls[n]?=some call)
    (hpc : call.pc=.locked) (hstop : s.stop≠.stopped) :
    ∃ heap, llistAppend s.heap 0 call.entry=some heap ∧
      QueueInv {s with
        heap := heap
        calls := setPc s.calls n .appended
        appended := s.appended++[n]} (seq++[call.entry]) := by
  have hstage : stage s.calls n=some (call.entry,call.item,false) := by
    simp [stage,hcall,hpc,queued]
  obtain ⟨hticket,hthere⟩ := h.early n _ _ hstage
  have hn : n∉s.appended := h.not_early hstage
  have hnot : call.entry∉seq := by
    intro hc
    have happended := h.appended_of_mem hc
    rw [hticket] at happended
    exact hn happended
  obtain ⟨entry,hentry⟩ := Option.ne_none_iff_exists'.mp hthere
  obtain ⟨heap,hrun,happ⟩ := h.represents.appended hentry (not_mem_only hnot) 0
  have hrep := h.represents.append (not_mem_only hnot) happ
  have hheap := happ.there hthere
  rw [only_zero,only,Function.update_idem] at hrep
  have hlater : ∀ m, stage (setPc s.calls n .appended) m=
      if n=m then some (call.entry,call.item,true) else stage s.calls m := by
    intro m
    rw [stage_setPc]
    by_cases hm : n=m
    · rw [if_pos hm,if_pos hm,←hm,hstage]
      rfl
    · rw [if_neg hm,if_neg hm]
  refine ⟨heap,hrun,?_⟩
  constructor
  case represents => exact hrep
  case order =>
    dsimp only
    rw [h.order,List.map_append,List.map_singleton,hticket,List.append_assoc]
  case nodup => exact List.nodup_append_comm.mp (List.nodup_cons.mpr ⟨hn,h.nodup⟩)
  case late =>
    intro m
    dsimp only
    rw [hlater,List.mem_append,List.mem_singleton]
    by_cases hm : n=m
    · simp [hm]
    · simp [hm,Ne.symm hm,h.late m]
  case early =>
    intro m e item hm
    rw [hlater] at hm
    by_cases hmn : n=m
    · simp [hmn] at hm
    · rw [if_neg hmn] at hm
      obtain ⟨ht,he⟩ := h.early m e item hm
      exact ⟨ht,(hheap e).not.mpr he⟩
  case held => exact fun e he => (hheap e).not.mpr (h.held e he)
  case freed => exact h.freed
  case known =>
    intro e he
    obtain ⟨late,hknown⟩ := h.known e ((hheap e).not.mp he)
    dsimp only
    rw [hlater]
    by_cases hm : n=s.ticket e
    · rw [←hm,hstage,Option.some.injEq,Prod.mk.injEq,Prod.mk.injEq] at hknown
      rw [if_pos hm,hknown.1,hknown.2.1]
      exact ⟨true,rfl⟩
    · rw [if_neg hm]
      exact ⟨late,hknown⟩
  case alive =>
    intro e he
    dsimp only
    rw [hlater,List.mem_append,List.mem_singleton]
    rcases h.alive e ((hheap e).not.mp he) with hseq | hrun | hfree | hearly
    · exact Or.inl (Or.inl hseq)
    · exact Or.inr (Or.inl hrun)
    · exact Or.inr (Or.inr (Or.inl hfree))
    · by_cases hm : n=s.ticket e
      · rw [←hm,hstage,Option.some.injEq,Prod.mk.injEq] at hearly
        exact Or.inl (Or.inr hearly.1.symm)
      · rw [if_neg hm]
        exact Or.inr (Or.inr (Or.inr hearly))
  case dropped => exact h.dropped
  case stopped => exact fun hc => absurd hc hstop
  case cleaned =>
    dsimp only
    rw [itemOf_setPc]
    exact h.cleaned

/-- The worker takes the first entry. -/
theorem QueueInv.take {e : ℕ} {rest : List ℕ} (h : QueueInv s (e::rest))
    (hrun : s.worker.toRun=[]) (hfree : s.worker.toFree=[]) (hdropped : s.dropped=[]) :
    ∃ heap, takeFirst s.heap=some (e,heap) ∧
      QueueInv {s with heap := heap, worker := .holding e} rest := by
  obtain ⟨heap,htake,hrep,hheap⟩ := takeFirst_eq h.represents
  refine ⟨heap,htake,?_⟩
  constructor
  case represents => exact hrep
  case order =>
    have horder := h.order
    rw [hrun,hdropped] at horder
    simp [horder,WorkerPc.toRun,hdropped]
  case nodup => exact h.nodup
  case late => exact h.late
  case early =>
    intro n e' item hn
    obtain ⟨ht,he⟩ := h.early n e' item hn
    exact ⟨ht,(hheap e').not.mpr he⟩
  case held =>
    intro e' he
    have he' : e'=e := by simpa [WorkerPc.toRun,WorkerPc.toFree] using he
    exact (hheap e').not.mpr (h.there (by simp [he']))
  case freed => exact fun e' he => absurd he List.not_mem_nil
  case known => exact fun e' he => h.known e' ((hheap e').not.mp he)
  case alive =>
    intro e' he
    have halive := h.alive e' ((hheap e').not.mp he)
    rw [hrun,hfree] at halive
    simpa [WorkerPc.toRun,WorkerPc.toFree,or_assoc,or_left_comm] using halive
  case dropped => exact fun hc => absurd hdropped hc
  case stopped =>
    intro hc
    have hseq := h.stopped hc
    cases hseq
  case cleaned => exact h.cleaned

/-- The result of a callback decides how the worker goes on, and whether the
cleanup handler is called. -/
theorem workerRun_eq (s : Queue) (e : ℕ) (err handled : ℤ) :
    ∃ lock worker, (worker=.freeing e ∨ worker=.leaving e) ∧
      workerRun s e err handled={s with
        ran := s.ran++[⟨s.ticket e,err,handled⟩]
        cleaned := s.cleaned++runCleanup (s.info e) ⟨s.ticket e,err,handled⟩
        lock := lock
        worker := worker} := by
  unfold workerRun runCleanup
  dsimp only
  by_cases herr : err=0
  · exact ⟨s.lock,.freeing e,Or.inl rfl,by simp [herr]⟩
  · by_cases hhandler : (s.info e).err=true
    · by_cases hhandled : handled=0
      · exact ⟨s.lock,.freeing e,Or.inl rfl,by simp [herr,hhandler,hhandled]⟩
      · exact ⟨none,.leaving e,Or.inr rfl,by simp [herr,hhandler,hhandled]⟩
    · exact ⟨s.lock,.freeing e,Or.inl rfl,by simp [herr,hhandler]⟩

/-- The worker runs the callback of the entry that it holds. -/
theorem QueueInv.run (h : QueueInv s seq) {e : ℕ} (hrun : s.worker.toRun=[e])
    (hfree : s.worker.toFree=[]) (hdropped : s.dropped=[]) (err handled : ℤ) :
    QueueInv (workerRun s e err handled) seq := by
  have hthere := h.held e (Or.inl (by simp [hrun]))
  obtain ⟨late,hknown⟩ := h.known e hthere
  have hitem := itemOf_eq hknown
  obtain ⟨lock,worker,hpc,hs⟩ := workerRun_eq s e err handled
  have hrun' : worker.toRun=[] := by rcases hpc with rfl | rfl <;> rfl
  have hfree' : worker.toFree=[e] := by rcases hpc with rfl | rfl <;> rfl
  rw [hs]
  constructor
  case represents => exact h.represents
  case order =>
    have horder := h.order
    rw [hrun,hdropped] at horder
    simp [horder,hrun',hdropped]
  case nodup => exact h.nodup
  case late => exact h.late
  case early => exact h.early
  case held =>
    intro e' he
    rw [hrun',hfree'] at he
    have he' : e'=e := by simpa using he
    rwa [he']
  case freed =>
    intro e' he
    rw [hfree',List.mem_singleton] at he
    simp [he]
  case known => exact h.known
  case alive =>
    intro e' he
    have halive := h.alive e' he
    rw [hrun,hfree] at halive
    simpa [hrun',hfree'] using halive
  case dropped => exact fun hc => absurd hdropped hc
  case stopped => exact h.stopped
  case cleaned =>
    dsimp only
    rw [h.cleaned,hdropped,List.flatMap_append,List.flatMap_singleton,hitem]
    simp

/-- An entry that is in no list and of no early call is given back. -/
theorem QueueInv.free (h : QueueInv s seq) {e : ℕ} (hfree : s.worker.toFree=[e])
    (hrun : s.worker.toRun=[]) {worker : WorkerPc} (hrun' : worker.toRun=[])
    (hfree' : worker.toFree=[]) :
    ∃ heap, s.heap.free e=some heap ∧ QueueInv {s with heap := heap, worker := worker} seq := by
  have hmem : e∈s.worker.toFree := by simp [hfree]
  have hthere := h.held e (Or.inr hmem)
  have hran := h.appended_of_ran (h.freed e hmem)
  obtain ⟨entry,hentry⟩ := Option.ne_none_iff_exists'.mp hthere
  refine ⟨_,by rw [Heap.free,hentry,Option.map_some],?_⟩
  have hheap : ∀ x, Function.update s.heap.entries e none x≠none ↔
      x≠e ∧ s.heap.entries x≠none := by
    intro x
    by_cases hx : x=e <;> simp [hx]
  constructor
  case represents =>
    exact h.represents.update (not_mem_only (h.freed_not_mem hmem)) fun _ hc => by cases hc
  case order =>
    have horder := h.order
    rw [hrun] at horder
    dsimp only
    rw [hrun',horder]
  case nodup => exact h.nodup
  case late => exact h.late
  case early =>
    intro n e' item hn
    obtain ⟨ht,he⟩ := h.early n e' item hn
    refine ⟨ht,(hheap e').mpr ⟨?_,he⟩⟩
    rintro rfl
    rw [ht] at hran
    exact h.not_early hn hran
  case held =>
    intro e' he
    rw [hrun',hfree'] at he
    simp at he
  case freed =>
    intro e' he
    rw [hfree'] at he
    cases he
  case known => exact fun e' he => h.known e' ((hheap e').mp he).2
  case alive =>
    intro e' he
    obtain ⟨hne,he⟩ := (hheap e').mp he
    have halive := h.alive e' he
    rw [hrun,hfree] at halive
    simpa [hrun',hfree',hne] using halive
  case dropped => exact h.dropped
  case stopped => exact h.stopped
  case cleaned => exact h.cleaned

/-- `stop_workqueue` drops the first entry. -/
theorem QueueInv.drop {e : ℕ} {rest : List ℕ} (h : QueueInv s (e::rest))
    (hrun : s.worker.toRun=[]) (hfree : s.worker.toFree=[]) (hstop : s.stop=.draining) :
    ∃ heap heap', takeFirst s.heap=some (e,heap) ∧ heap.free e=some heap' ∧
      QueueInv {s with
        heap := heap'
        dropped := s.dropped++[s.ticket e]
        cleaned := s.cleaned++cleanupCall (s.info e) (s.ticket e) 0} rest := by
  obtain ⟨heap,htake,hrep,hheap⟩ := takeFirst_eq h.represents
  have hthere := h.there (List.mem_cons_self (a:=e) (l:=rest))
  obtain ⟨entry,hentry⟩ := Option.ne_none_iff_exists'.mp ((hheap e).not.mpr hthere)
  obtain ⟨late,hknown⟩ := h.known e hthere
  have hitem := itemOf_eq hknown
  refine ⟨heap,_,htake,by rw [Heap.free,hentry,Option.map_some],?_⟩
  have hfreed : ∀ x, Function.update heap.entries e none x≠none ↔
      x≠e ∧ s.heap.entries x≠none := by
    intro x
    by_cases hx : x=e <;> simp [hx,hheap]
  have hnodup : (e::rest).Nodup := by
    have hlinked := (h.represents.linked 0).nodup
    rwa [only_zero] at hlinked
  constructor
  case represents =>
    exact hrep.update (not_mem_only (List.nodup_cons.mp hnodup).1) fun _ hc => by cases hc
  case order => simp [h.order]
  case nodup => exact h.nodup
  case late => exact h.late
  case early =>
    intro n e' item hn
    obtain ⟨ht,he⟩ := h.early n e' item hn
    refine ⟨ht,(hfreed e').mpr ⟨?_,he⟩⟩
    rintro rfl
    have happended := h.appended_of_mem (List.mem_cons_self (a:=e') (l:=rest))
    rw [ht] at happended
    exact h.not_early hn happended
  case held =>
    intro e' he
    rw [hrun,hfree] at he
    simp at he
  case freed =>
    intro e' he
    rw [hfree] at he
    cases he
  case known => exact fun e' he => h.known e' ((hfreed e').mp he).2
  case alive =>
    intro e' he
    obtain ⟨hne,he⟩ := (hfreed e').mp he
    have halive := h.alive e' he
    rw [hrun,hfree,List.mem_cons] at halive
    simpa [hrun,hfree,hne] using halive
  case dropped => exact fun _ => Or.inl hstop
  case stopped =>
    intro hc
    rw [show s.stop=.stopped from hc] at hstop
    cases hstop
  case cleaned =>
    dsimp only
    rw [h.cleaned,List.flatMap_append,List.flatMap_singleton,hitem,List.append_assoc]

end Steps

/-- Nothing is enqueued once `stop_workqueue` has returned. -/
def Final (s : Queue) : QueueEvent → Prop
  | .appendCall _ => s.stop≠.stopped
  | _ => True

instance (s : Queue) : ∀ e, Decidable (Final s e)
  | .appendCall _ => inferInstanceAs (Decidable (_≠_))
  | .call _ _ | .lockCall _ | .unlockCall _ | .broadcastCall _ | .lockWorker | .test | .wait
  | .spurious | .look | .run _ _ | .free | .stop | .broadcastStop | .join | .drain =>
    isTrue trivial

/-- A broadcast takes no entry from the worker. -/
theorem broadcast_holds (pc : WorkerPc) :
    (broadcast pc).toRun=pc.toRun ∧ (broadcast pc).toFree=pc.toFree := by
  cases pc <;> exact ⟨rfl,rfl⟩

/-- At the start there are no entries. -/
theorem queueInv_fresh : QueueInv freshQueue [] where
  represents := by
    have honly : only []=fun _ => [] := Function.update_eq_self 0 fun _ => []
    rw [honly]
    exact ⟨fun _ => rfl,fun _ => rfl,fun _ => LinkedSequence.linked_nil _ _,
      fun _ _ h => absurd h List.not_mem_nil,fun _ _ h => by cases h⟩
  order := rfl
  nodup := List.nodup_nil
  late n := by simp [freshQueue,stage]
  early n e item h := by simp [freshQueue,stage] at h
  held e h := by simp [freshQueue,WorkerPc.toRun,WorkerPc.toFree] at h
  freed e h := by simp [freshQueue,WorkerPc.toFree] at h
  known e h := absurd rfl h
  alive e h := absurd rfl h
  dropped h := absurd rfl h
  stopped _ := rfl
  cleaned := rfl

/-- Every step succeeds and keeps it. -/
theorem queueInv_step {e : QueueEvent} (hl : LockInv s) (h : QueueInv s seq)
    (hpossible : Possible s e) (hfinal : Final s e) :
    ∃ s', queueStep s e=some ((),s') ∧ ∃ seq', QueueInv s' seq' := by
  have hdropped : s.worker≠.ended → s.dropped=[] := by
    intro hpc
    by_contra hc
    exact hl.not_joined hpc (h.dropped hc)
  cases e with
  | call item entry => exact ⟨_,rfl,seq,h.call hpossible⟩
  | lockCall n =>
    exact ⟨_,rfl,seq,h.control (stage_setPc_same hpossible.1 rfl) rfl rfl h.dropped h.stopped⟩
  | appendCall n =>
    have hpc : pcOf s.calls n=some .locked := hpossible
    rw [pcOf,Option.map_eq_some_iff] at hpc
    obtain ⟨call,hcall,hpc⟩ := hpc
    obtain ⟨heap,hrun,hinv⟩ := h.append hcall hpc hfinal
    exact ⟨_,by simp only [queueStep,hcall,hrun,Option.map_some],_,hinv⟩
  | unlockCall n =>
    exact ⟨_,rfl,seq,h.control (stage_setPc_same hpossible rfl) rfl rfl h.dropped h.stopped⟩
  | broadcastCall n =>
    obtain ⟨hrun,hfree⟩ := broadcast_holds s.worker
    exact ⟨_,rfl,seq,h.control (stage_setPc_same hpossible rfl) hrun hfree h.dropped h.stopped⟩
  | lockWorker =>
    have hnone : s.worker.toRun=[] ∧ s.worker.toFree=[] := by
      rcases hpossible.1 with hpc | hpc <;> rw [hpc] <;> exact ⟨rfl,rfl⟩
    refine ⟨_,rfl,seq,h.control rfl ?_ ?_ h.dropped h.stopped⟩
    · rw [hnone.1]
      split <;> rfl
    · rw [hnone.2]
      split <;> rfl
  | test =>
    have hpc : s.worker=.testing := hpossible
    refine ⟨_,rfl,seq,h.control rfl ?_ ?_ h.dropped h.stopped⟩
    · rw [hpc]
      split <;> rfl
    · rw [hpc]
      split <;> rfl
  | wait =>
    have hpc : s.worker=.atWait := hpossible
    exact ⟨_,rfl,seq,h.control rfl (by rw [hpc]; rfl) (by rw [hpc]; rfl) h.dropped h.stopped⟩
  | spurious =>
    have hpc : s.worker=.waiting := hpossible
    exact ⟨_,rfl,seq,h.control rfl (by rw [hpc]; rfl) (by rw [hpc]; rfl) h.dropped h.stopped⟩
  | look =>
    have hpc : s.worker=.draining := hpossible
    simp only [queueStep,workerLook,h.represents.isEmpty 0,only_zero]
    cases hexit : (seq.isEmpty || s.doExit) with
    | true =>
      exact ⟨_,rfl,seq,h.control rfl (by rw [hpc]; rfl) (by rw [hpc]; rfl) h.dropped h.stopped⟩
    | false =>
      cases seq with
      | nil => simp at hexit
      | cons entry rest =>
        obtain ⟨heap,htake,hinv⟩ := h.take (by rw [hpc]; rfl) (by rw [hpc]; rfl)
          (hdropped (by simp [hpc]))
        exact ⟨_,by simp [htake],rest,hinv⟩
  | run err handled =>
    cases hpc : s.worker with
    | holding entry =>
      have hthere := h.held entry (Or.inl (by simp [hpc,WorkerPc.toRun]))
      obtain ⟨cell,hcell⟩ := Option.ne_none_iff_exists'.mp hthere
      refine ⟨workerRun s entry err handled,by simp [queueStep,hpc,hcell],seq,?_⟩
      exact h.run (by rw [hpc]; rfl) (by rw [hpc]; rfl) (hdropped (by simp [hpc])) err handled
    | _ => exact absurd (by rw [hpc]; rfl) hpossible
  | free =>
    cases hpc : s.worker with
    | freeing entry =>
      obtain ⟨heap,hfree,hinv⟩ := @QueueInv.free s seq h entry (by rw [hpc]; rfl) (by rw [hpc]; rfl)
        .draining rfl rfl
      exact ⟨_,by simp [queueStep,hpc,hfree],seq,hinv⟩
    | leaving entry =>
      obtain ⟨heap,hfree,hinv⟩ := @QueueInv.free s seq h entry (by rw [hpc]; rfl) (by rw [hpc]; rfl)
        .ended rfl rfl
      exact ⟨_,by simp [queueStep,hpc,hfree],seq,hinv⟩
    | _ => exact absurd (by rw [hpc]; rfl) hpossible
  | stop =>
    have hstop : s.stop=.running := hpossible
    refine ⟨_,rfl,seq,h.control rfl rfl rfl (fun hd => ?_) fun hc => by cases hc⟩
    have hlate := h.dropped hd
    simp [hstop] at hlate
  | broadcastStop =>
    have hstop : s.stop=.exiting := hpossible
    obtain ⟨hrun,hfree⟩ := broadcast_holds s.worker
    refine ⟨_,rfl,seq,h.control rfl hrun hfree (fun hd => ?_) fun hc => by cases hc⟩
    have hlate := h.dropped hd
    simp [hstop] at hlate
  | join =>
    exact ⟨_,rfl,seq,h.control rfl rfl rfl (fun _ => Or.inl rfl) fun hc => by cases hc⟩
  | drain =>
    have hstop : s.stop=.draining := hpossible
    have hpc := hl.joined (Or.inl hstop)
    simp only [queueStep,stopDrain,h.represents.isEmpty 0,only_zero]
    cases seq with
    | nil =>
      exact ⟨_,rfl,[],h.control rfl rfl rfl (fun _ => Or.inr rfl) fun _ => rfl⟩
    | cons entry rest =>
      obtain ⟨heap,heap',htake,hfree,hinv⟩ := h.drop (by rw [hpc]; rfl) (by rw [hpc]; rfl) hstop
      exact ⟨_,by simp [htake,hfree],rest,hinv⟩

/-- Only one of several positions has something to add. -/
theorem flatMap_single {β : Type} {xs : List ℕ} (hnodup : xs.Nodup) {n : ℕ} (hn : n∈xs)
    (ys : List β) : (xs.flatMap fun m => if m=n then ys else [])=ys := by
  induction xs with
  | nil => cases hn
  | cons x xs ih =>
    obtain ⟨hx,hxs⟩ := List.nodup_cons.mp hnodup
    rw [List.flatMap_cons]
    rcases List.mem_cons.mp hn with rfl | hn
    · rw [if_pos rfl,List.flatMap_eq_nil_iff.mpr,List.append_nil]
      intro m hm
      rw [if_neg]
      rintro rfl
      exact hx hm
    · rw [if_neg,List.nil_append,ih hxs hn]
      rintro rfl
      exact hx hn

/-- What `stop_workqueue` has called for an entry that it has dropped. -/
theorem cleanups_of_dropped {item : ℕ → WorkqueueEntry} {xs : List ℕ} (hnodup : xs.Nodup) {n : ℕ}
    (hn : n∈xs) :
    (xs.flatMap fun m => cleanupCall (item m) m 0).filter (fun call => call.1=n)=
      cleanupCall (item n) n 0 := by
  have hsame : ∀ m, (cleanupCall (item m) m 0).filter (fun call => call.1=n)=
      if m=n then cleanupCall (item n) n 0 else [] := by
    intro m
    unfold cleanupCall
    by_cases hm : m=n
    · subst hm
      split <;> simp
    · split <;> simp [hm]
  rw [List.filter_flatMap]
  simp only [hsame]
  exact flatMap_single hnodup hn _

/-- Every queued item was handled in its turn. -/
structure Handled (s : Queue) : Prop where
  /-- The history holds exactly the calls that have appended. -/
  complete : ∀ n, n∈s.appended ↔ ∃ call, s.calls[n]?=some call ∧ queued call.pc=true
  /-- What was run is a prefix of what was appended. -/
  inOrder : s.ran.map RunRecord.ticket<+:s.appended
  /-- It was run once. -/
  once : (s.ran.map RunRecord.ticket).Nodup
  /-- In the end `stop_workqueue` has dropped the rest. -/
  rest : s.stop=.stopped → s.appended=s.ran.map RunRecord.ticket++s.dropped
  /-- What was dropped was not run, and its cleanup handler, if it has one, was
  called once, with error zero. -/
  cleanup : ∀ n∈s.dropped, n∉s.ran.map RunRecord.ticket ∧
    s.cleaned.filter (fun call => call.1=n)=if (itemOf s.calls n).cleanup then [(n,0)] else []
  /-- In the end only a call that has not appended has an entry. -/
  freed : s.stop=.stopped → ∀ e, s.heap.entries e≠none →
    ∃ call∈s.calls, call.entry=e ∧ queued call.pc=false

/-- That is what the invariant says. -/
theorem QueueInv.handled (hl : LockInv s) (h : QueueInv s seq) : Handled s where
  complete n := by
    rw [h.late]
    simp [stage]
  inOrder := by
    rw [h.order,List.append_assoc,List.append_assoc]
    exact List.prefix_append _ _
  once := by
    have hnodup := h.nodup
    rw [h.order,List.append_assoc,List.append_assoc] at hnodup
    exact (List.nodup_append.mp hnodup).1
  rest hstop := by
    rw [h.order,h.stopped hstop,hl.joined (Or.inr hstop)]
    simp [WorkerPc.toRun]
  cleanup n hn := by
    have hnodup := h.nodup
    rw [h.order,List.append_assoc,List.append_assoc] at hnodup
    have happ := List.nodup_append.mp hnodup
    have hran : n∉s.ran.map RunRecord.ticket := fun hc =>
      happ.2.2 n hc n (List.mem_append_right _ (List.mem_append_left _ hn)) rfl
    have hdropped := (List.nodup_append.mp (List.nodup_append.mp happ.2.1).2.1).1
    refine ⟨hran,?_⟩
    rw [h.cleaned,List.filter_append,cleanups_of_dropped hdropped hn,List.filter_eq_nil_iff.mpr,
      List.nil_append,cleanupCall]
    intro call hcall
    obtain ⟨record,hrecord,hcall⟩ := List.mem_flatMap.mp hcall
    have hticket : call.1=record.ticket := by
      unfold runCleanup cleanupCall at hcall
      split at hcall
      · cases hcall
      · split at hcall
        · rw [List.mem_singleton.mp hcall]
        · cases hcall
    rw [decide_eq_true_iff,hticket]
    rintro rfl
    exact hran (List.mem_map_of_mem hrecord)
  freed hstop e he := by
    have halive := h.alive e he
    rw [h.stopped hstop,hl.joined (Or.inr hstop)] at halive
    have hearly := ((halive.resolve_left List.not_mem_nil).resolve_left List.not_mem_nil).resolve_left
      List.not_mem_nil
    rw [stage,Option.map_eq_some_iff] at hearly
    obtain ⟨call,hcall,hout⟩ := hearly
    simp only [Prod.mk.injEq] at hout
    exact ⟨call,List.mem_of_getElem? hcall,hout.1,hout.2.2⟩

/-- In every run, up to every point, every entry is used and freed only while
it is there, and the items are handled in order. -/
theorem items_handled {events : List QueueEvent}
    (hadm : Admitted (fun s e => Possible s e ∧ Final s e) queueStep freshQueue events) :
    ∃ replies s, run queueStep freshQueue events=some (replies,s) ∧ Handled s := by
  have hstep : ∀ s e, (LockInv s ∧ ∃ seq, QueueInv s seq) → Possible s e ∧ Final s e →
      ∃ r s', queueStep s e=some (r,s') ∧ LockInv s' ∧ ∃ seq, QueueInv s' seq := by
    rintro s e ⟨hl,seq,h⟩ ⟨hpossible,hfinal⟩
    obtain ⟨s',hs,hinv⟩ := queueInv_step hl h hpossible hfinal
    exact ⟨(),s',hs,lockInv_step hl hpossible hs,hinv⟩
  obtain ⟨replies,s,hrun,hl,seq,h⟩ := run_total hstep ⟨lockInv_fresh,[],queueInv_fresh⟩ hadm
  exact ⟨replies,s,hrun,h.handled hl⟩

/-- Two items are queued while the worker waits; the callback of the first
fails for good, so the second is left to `stop_workqueue`. -/
def fatalEvents : List QueueEvent :=
  [.lockWorker,.test,.wait,.call ⟨0,true,true⟩ 7,.lockCall 0,.appendCall 0,.unlockCall 0,
    .broadcastCall 0,.call ⟨1,true,true⟩ 8,.lockCall 1,.appendCall 1,.unlockCall 1,.lockWorker,.look,
    .run (-12) (-12),.free,.broadcastCall 1,.stop,.broadcastStop,.join,.drain,.drain]

/-- One item is run and one is dropped. -/
theorem items_handled_fatal :
    ∃ replies s, run queueStep freshQueue fatalEvents=some (replies,s) ∧ Handled s ∧
      s.stop=.stopped ∧ s.dropped=[1] := by
  have hadm : Admitted (fun s e => Possible s e ∧ Final s e) queueStep freshQueue fatalEvents := by
    decide +kernel
  obtain ⟨replies,s,hrun,hhandled⟩ := items_handled hadm
  have hend : (run queueStep freshQueue fatalEvents).map (fun out => (out.2.stop,out.2.dropped))=
      some (.stopped,[1]) := by decide +kernel
  rw [hrun,Option.map_some,Option.some.injEq,Prod.mk.injEq] at hend
  exact ⟨replies,s,hrun,hhandled,hend⟩

end Shoreline.QueueOrder
