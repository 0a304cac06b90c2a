import Shoreline.Resizing

/-!
# Sizes once resizing has settled

A resize event changes the node framebuffers through their work queues and
the main framebuffer at its end. All have one size again when the queues are
empty, unless an error or a new framebuffer came in between and only some of
them were reached.
-/

namespace Shoreline.Settling

open Framebuffer NetConnection Coalesce StateMachine ServerRun Resizing

/-- Steps that keep the sizes together: while the main framebuffer is about to
change its size, no framebuffer is added, the loop over the list is not left
by an error behind its first round, and the main framebuffer gets the size. -/
def Orderly (setup : Setup) (s : Server) : ServerEvent → Prop
  | .connect look node block _ =>
    match s.phase with
    | .queued size => size=s.main.size ∨ (fbGetFbOnNode s.fbs look).isSome ∨ node.isNone ∨
        block.isNone
    | _ => True
  | .queueResize priv entry =>
    match s.phase with
    | .queueing size i => size=s.main.size ∨ i=0 ∨
        priv ∧ entry ∧ s.fbs[i]?.all fun fb => fb.numaNode<setup.workqueues
    | _ => True
  | .resizeMain texture block =>
    match s.phase with
    | .queued size => size=s.main.size ∨ s.fbs.isEmpty ∨ texture ∧ block.isSome
    | _ => True
  | _ => True

instance (setup : Setup) (s : Server) : ∀ e, Decidable (Orderly setup s e)
  | .connect look node block _ =>
    match h : s.phase with
    | .idle => isTrue (by simp [Orderly,h])
    | .queueing _ _ => isTrue (by simp [Orderly,h])
    | .queued size => decidable_of_iff (size=s.main.size ∨ (fbGetFbOnNode s.fbs look).isSome ∨
        node.isNone ∨ block.isNone) (by simp [Orderly,h])
  | .queueResize priv entry =>
    match h : s.phase with
    | .idle => isTrue (by simp [Orderly,h])
    | .queueing size i => decidable_of_iff (size=s.main.size ∨ i=0 ∨
        priv ∧ entry ∧ s.fbs[i]?.all fun fb => fb.numaNode<setup.workqueues)
        (by simp [Orderly,h])
    | .queued _ => isTrue (by simp [Orderly,h])
  | .resizeMain texture block =>
    match h : s.phase with
    | .idle => isTrue (by simp [Orderly,h])
    | .queueing _ _ => isTrue (by simp [Orderly,h])
    | .queued size => decidable_of_iff
        (size=s.main.size ∨ s.fbs.isEmpty ∨ texture ∧ block.isSome) (by simp [Orderly,h])
  | .command _ _ => isTrue trivial
  | .coalesce _ => isTrue trivial
  | .pollResize _ => isTrue trivial
  | .leaveQueueing => isTrue trivial
  | .work _ _ => isTrue trivial

/-- Once a worker has ended, its queue is not processed any more, and no step
matters. -/
def Smooth (setup : Setup) (s : Server) (e : ServerEvent) : Prop :=
  (∃ queue, s.stopped queue=true) ∨ Orderly setup s e

/-- No resize event is being handled, and all queues are empty with their
workers still running. -/
structure Settled (s : Server) : Prop where
  /-- The main thread is not inside `sdl_update`. -/
  idle : s.phase=.idle
  /-- Nothing is queued. -/
  empty : ∀ queue, s.queues queue=[]
  /-- No worker has ended. -/
  running : ∀ queue, s.stopped queue=false

/-- The size that the framebuffer at a list position is to end up with. -/
def aim (s : Server) (k : ℕ) : FbSize :=
  match s.phase with
  | .idle => s.main.size
  | .queueing size next => if k<next then size else s.main.size
  | .queued size => size

/-- The main thread is not behind the end of the list. -/
def Within (s : Server) : Prop :=
  match s.phase with
  | .queueing _ next => next≤(shapes s).length
  | _ => True

/-- What holds after orderly steps as long as all workers run. -/
structure Aimed (s : Server) : Prop where
  /-- The loop of `resize_cb` is inside the list. -/
  within : Within s
  /-- Every framebuffer ends up with the size it is to have. -/
  aimed : ∀ (k : ℕ) size node, (shapes s)[k]?=some (size,node) →
    lastAsked (s.queues node) k size=aim s k

variable {setup : Setup} {s s' : Server}

/-- Without a resize event the main framebuffer has the size to be. -/
theorem aim_idle (h : s.phase=.idle) (k : ℕ) : aim s k=s.main.size := by
  rw [aim,h]

/-- In the loop of `resize_cb` what was passed is to get the new size. -/
theorem aim_queueing {size : FbSize} {next : ℕ} (h : s.phase=.queueing size next) (k : ℕ) :
    aim s k=if k<next then size else s.main.size := by
  rw [aim,h]

/-- Behind the loop everything is. -/
theorem aim_queued {size : FbSize} (h : s.phase=.queued size) (k : ℕ) : aim s k=size := by
  rw [aim,h]

/-- In a settled state all framebuffers have the size of the main one. -/
theorem Aimed.sizes (h : Aimed s) (hsettled : Settled s) : ∀ fb∈s.fbs,fb.size=s.main.size := by
  intro fb hmem
  obtain ⟨k,hk⟩ := List.mem_iff_getElem?.mp hmem
  have hsize := h.aimed k fb.size fb.numaNode (shapes_getElem? hk)
  rw [hsettled.empty,aim_idle hsettled.idle] at hsize
  exact hsize

/-- Steps that change no size, node, queue or phase keep the aim. -/
theorem Aimed.of_same (h : Aimed s) (hshapes : shapes s'=shapes s) (hqueues : s'.queues=s.queues)
    (hphase : s'.phase=s.phase) (hmain : s'.main.size=s.main.size) : Aimed s' := by
  refine ⟨?_,fun k size node hget => ?_⟩
  · have hw := h.within
    unfold Within at hw ⊢
    rw [hphase,hshapes]
    exact hw
  · have ha := h.aimed k size node (hshapes ▸ hget)
    unfold aim at ha ⊢
    rw [hqueues,hphase,hmain]
    exact ha

/-- A framebuffer appended with the size of the main one keeps the aim, unless
the main one is about to change. -/
theorem Aimed.append (hr : ResizeInv s) (h : Aimed s) {node : ℕ}
    (hshapes : shapes s'=shapes s++[(s.main.size,node)]) (hqueues : s'.queues=s.queues)
    (hphase : s'.phase=s.phase) (hmain : s'.main=s.main)
    (hstays : ∀ size, s.phase=.queued size → size=s.main.size) : Aimed s' := by
  have hwithin := h.within
  refine ⟨?_,fun k size node' hget => ?_⟩
  · unfold Within at hwithin ⊢
    rw [hphase,hshapes,List.length_append]
    split at hwithin
    · exact Nat.le_add_right_of_le hwithin
    · trivial
  · rw [hshapes] at hget
    have haim : aim s' k=aim s k := by rw [aim,hphase,hmain,aim]
    rw [hqueues,haim]
    by_cases hk : k<(shapes s).length
    · rw [List.getElem?_append_left hk] at hget
      exact h.aimed k size node' hget
    · -- the new framebuffer: no entry names it, and the loop is not behind it
      rw [List.getElem?_append_right (Nat.le_of_not_lt hk)] at hget
      cases List.mem_singleton.mp (List.mem_of_getElem? hget)
      have hnone : ∀ work∈s.queues node,work.fb≠k := by
        rintro work hw rfl
        exact hk (hr.work_lt hw)
      rw [lastAsked_of_ne hnone]
      unfold Within at hwithin
      cases hphase' : s.phase with
      | idle => exact (aim_idle hphase' k).symm
      | queueing size next =>
        rw [hphase'] at hwithin
        rw [aim_queueing hphase',if_neg (by omega)]
      | queued size => rw [aim_queued hphase',hstays size hphase']

/-- An orderly connection keeps the aim. -/
theorem Aimed.connect (hr : ResizeInv s) (h : Aimed s) {look : ℕ} {node : Option UInt32}
    {block : Option (ℕ → FbPixel)} {numaNode : ℕ}
    (horderly : Orderly setup s (.connect look node block numaNode)) :
    Aimed (serverConnect setup s look node block numaNode).2 := by
  unfold serverConnect
  cases hfind : fbGetFbOnNode s.fbs look with
  | some k => exact h.of_same rfl rfl rfl rfl
  | none =>
    cases halloc : fbAlloc setup.build.host node block numaNode s.main.size with
    | error e => exact h
    | ok fb =>
      have hshape : shape fb=(s.main.size,numaNode) := fbAlloc_shape halloc
      refine h.append hr ((List.map_append).trans (congrArg (shapes s++[·]) hshape)) rfl rfl rfl
        fun size hphase => ?_
      cases node with
      | none => cases halloc
      | some garbage =>
        cases block with
        | none => cases halloc
        | some heap => simpa [Orderly,hphase,hfind] using horderly

/-- A round of the loop of `resize_cb` whose allocations and whose node are
fine goes on. -/
theorem queueResize_accepted {size : FbSize} {i : ℕ} {fb : Fb} (h : fb.numaNode<setup.workqueues) :
    (serverQueueResize setup s size i fb true true).2.phase=.queueing size (i+1) := by
  have hadmitted : ¬setup.workqueues ≤ fb.numaNode := Nat.not_le_of_lt h
  simp [serverQueueResize,workqueueEnqueue,hadmitted]

/-- An orderly round of the loop of `resize_cb` keeps the aim. -/
theorem Aimed.queueResize (h : Aimed s) {size : FbSize} {i : ℕ} (hphase : s.phase=.queueing size i)
    {fb : Fb} (hfb : s.fbs[i]?=some fb) {priv entry : Bool}
    (horderly : Orderly setup s (.queueResize priv entry)) :
    Aimed (serverQueueResize setup s size i fb priv entry).2 := by
  have hshape := shapes_getElem? hfb
  have haimed := h.aimed
  simp only [aim_queueing hphase] at haimed
  simp only [Orderly,hphase,hfb,Option.all_some,decide_eq_true_eq] at horderly
  rcases serverQueueResize_cases setup s size i fb priv entry with he | he
  · -- the loop was left: then it asked no one, or for the size that is there
    have hharmless : size=s.main.size ∨ i=0 := by
      rcases horderly with hsize | hfirst | ⟨rfl,rfl,hnode⟩
      · exact Or.inl hsize
      · exact Or.inr hfirst
      · have hgoes := @queueResize_accepted setup s size i fb hnode
        rw [he] at hgoes
        cases hgoes
    rw [he]
    refine ⟨trivial,fun k size' node hget => ?_⟩
    have hold := haimed k size' node hget
    dsimp only [aim]
    rcases hharmless with rfl | rfl
    · rwa [ite_self] at hold
    · rwa [if_neg (Nat.not_lt_zero k)] at hold
  · rw [he]
    refine ⟨(List.getElem?_eq_some_iff.mp hshape).1,fun k size' node hget => ?_⟩
    have hget' : (shapes s)[k]?=some (size',node) := hget
    have hold := haimed k size' node hget'
    dsimp only [aim]
    by_cases hk : k=i
    · rw [hk,hshape] at hget'
      cases hget'
      rw [if_pos rfl,if_pos (by omega),hk]
      exact lastAsked_append_self _ i size _
    · have hlt : k < i+1 ↔ k < i := by omega
      simp only [hlt]
      split
      · exact (lastAsked_append_of_ne _ hk size size').trans hold
      · exact hold

/-- Leaving the list at its end keeps the aim. -/
theorem Aimed.leaveQueueing (h : Aimed s) {size : FbSize} {i : ℕ} (hphase : s.phase=.queueing size i)
    (hi : s.fbs.length ≤ i) : Aimed {s with phase := .queued size} := by
  refine ⟨trivial,fun k size' node hget => ?_⟩
  have hold := h.aimed k size' node hget
  have hk := (List.getElem?_eq_some_iff.mp hget).1
  rw [shapes,List.length_map] at hk
  rw [aim_queueing hphase,if_pos (lt_of_lt_of_le hk hi)] at hold
  exact hold

/-- An orderly end of a resize event keeps the aim. -/
theorem Aimed.resizeMain (h : Aimed s) {size : FbSize} (hphase : s.phase=.queued size)
    {texture : Bool} {block : Option (ℕ → FbPixel)}
    (horderly : Orderly setup s (.resizeMain texture block)) :
    Aimed (serverResizeMain s size texture block).2 := by
  simp only [Orderly,hphase] at horderly
  have hshapes : shapes (serverResizeMain s size texture block).2=shapes s := by
    unfold serverResizeMain
    split <;> rfl
  have hqueues : (serverResizeMain s size texture block).2.queues=s.queues := by
    unfold serverResizeMain
    split <;> rfl
  have hidle : (serverResizeMain s size texture block).2.phase=.idle := by
    unfold serverResizeMain
    split <;> rfl
  have hmain : s.fbs.isEmpty=true ∨ (serverResizeMain s size texture block).2.main.size=size := by
    rcases horderly with rfl | hempty | ⟨rfl,hblock⟩
    · right
      unfold serverResizeMain
      cases texture <;> cases block <;> rfl
    · exact Or.inl hempty
    · obtain ⟨heap,rfl⟩ := Option.isSome_iff_exists.mp hblock
      exact Or.inr rfl
  refine ⟨?_,fun k size' node hget => ?_⟩
  · unfold Within
    rw [hidle]
    trivial
  · rw [hshapes] at hget
    have hold := h.aimed k size' node hget
    rw [aim_queued hphase] at hold
    rw [hqueues,aim_idle hidle]
    rcases hmain with hempty | hmain
    · rw [shapes,List.isEmpty_iff.mp hempty] at hget
      cases hget
    · exact hold.trans hmain.symm

/-- An entry that is done keeps the aim. -/
theorem Aimed.work_done (h : Aimed s) {queue : ℕ} {work : ResizeWork} {rest : List ResizeWork}
    (hqueue : s.queues queue=work::rest) {fb : Fb} (hfb : s.fbs[work.fb]?=some fb)
    (hnode : fb.numaNode=queue) (heap : ℕ → FbPixel) :
    Aimed (serverWork s queue work rest fb (some heap)).2 := by
  obtain ⟨hshape,hlt,hnew⟩ := shapes_work_done work rest hfb hnode heap
  have hrest : (serverWork s queue work rest fb (some heap)).2.queues queue=rest := if_pos rfl
  refine ⟨?_,fun k size node hget => ?_⟩
  · have hwithin := h.within
    unfold Within at hwithin ⊢
    rw [hnew,List.length_set]
    exact hwithin
  · change _=aim s k
    rw [hnew] at hget
    by_cases hk : k=work.fb
    · rw [hk,List.getElem?_set_self hlt] at hget
      cases hget
      have hold := h.aimed work.fb fb.size queue hshape
      rw [hqueue,lastAsked_cons_self] at hold
      rw [hrest,hk]
      exact hold
    · rw [List.getElem?_set_ne fun hc => hk hc.symm] at hget
      exact (lastAsked_rest hqueue hk node size).trans (h.aimed k size node hget)

/-- What holds in every state that smooth steps reach: some worker has ended,
or all framebuffers end up with the sizes they are to have. -/
def SettleInv (s : Server) : Prop := ResizeInv s ∧ ((∃ queue, s.stopped queue=true) ∨ Aimed s)

/-- An orderly step keeps the aim, or ends a worker. -/
theorem aimed_step {e : ServerEvent} {reply : ServerReply} (hr : ResizeInv s) (h : Aimed s)
    (horderly : Orderly setup s e) (hpossible : Possible s e)
    (hstep : serverStep setup s e=some (reply,s')) :
    (∃ queue, s'.stopped queue=true) ∨ Aimed s' := by
  cases e with
  | connect look node block numaNode =>
    have haimed := h.connect hr horderly
    rw [Option.some.inj hstep] at haimed
    exact Or.inr haimed
  | command i c =>
    obtain ⟨client,fb,live,_,hfb,rfl⟩ := serverCommand_some hstep
    have hshape := (exec_fb ⟨setup.build,s.main,setup.socket i⟩ (client.enter fb) c).1
    exact Or.inr (h.of_same (map_shape_set hfb hshape) rfl rfl rfl)
  | coalesce rand =>
    obtain ⟨out,hfb,hfbs,rfl⟩ := coalesce_cases hstep
    exact Or.inr (h.of_same hfbs rfl rfl (congrArg Prod.fst hfb))
  | pollResize size =>
    cases hstep
    refine Or.inr ⟨Nat.zero_le _,fun k size' node hget => ?_⟩
    have hold := h.aimed k size' node hget
    rw [aim_idle hpossible] at hold
    rw [aim_queueing rfl,if_neg (Nat.not_lt_zero k)]
    exact hold
  | queueResize priv entry =>
    obtain ⟨size,i,fb,hphase,hfb,rfl⟩ := queueResize_cases hstep
    exact Or.inr (h.queueResize hphase hfb horderly)
  | leaveQueueing =>
    obtain ⟨size,i,hphase,hi⟩ := possible_leaveQueueing hpossible
    simp only [serverStep,hphase,Option.some.injEq,Prod.mk.injEq] at hstep
    obtain ⟨-,rfl⟩ := hstep
    exact Or.inr (h.leaveQueueing hphase hi)
  | resizeMain texture block =>
    obtain ⟨size,hphase,rfl⟩ := resizeMain_cases hstep
    exact Or.inr (h.resizeMain hphase horderly)
  | work queue block =>
    obtain ⟨work,rest,fb,hqueue,hfb,rfl⟩ := work_cases hstep
    cases block with
    | none => exact Or.inl ⟨queue,by simp [serverWork,fbResize,ENOMEM]⟩
    | some heap =>
      obtain ⟨fb',hfb',hnode⟩ := hr.work_fb (hqueue ▸ List.mem_cons_self)
      rw [hfb] at hfb'
      cases hfb'
      exact Or.inr (h.work_done hqueue hfb hnode heap)

/-- A worker that has ended does not start again. -/
theorem stopped_mono {e : ServerEvent} {reply : ServerReply} {queue : ℕ}
    (hstep : serverStep setup s e=some (reply,s')) (h : s.stopped queue=true) :
    s'.stopped queue=true := by
  cases e with
  | connect look node block numaNode =>
    simp only [serverStep,serverConnect,Option.some.injEq] at hstep
    split at hstep
    · cases hstep
      exact h
    · split at hstep <;> cases hstep <;> exact h
  | command i c =>
    obtain ⟨client,fb,live,_,_,rfl⟩ := serverCommand_some hstep
    exact h
  | coalesce rand =>
    obtain ⟨out,_,_,rfl⟩ := coalesce_cases hstep
    exact h
  | pollResize size =>
    cases hstep
    exact h
  | queueResize priv entry =>
    obtain ⟨size,i,fb,_,_,rfl⟩ := queueResize_cases hstep
    rcases serverQueueResize_cases setup s size i fb priv entry with he | he <;> rw [he] <;> exact h
  | leaveQueueing =>
    obtain ⟨size,i,_,rfl⟩ := leaveQueueing_cases hstep
    exact h
  | resizeMain texture block =>
    obtain ⟨size,_,rfl⟩ := resizeMain_cases hstep
    cases texture <;> exact h
  | work q block =>
    obtain ⟨work,rest,fb,_,_,rfl⟩ := work_cases hstep
    simp [serverWork,h]

/-- Every possible and smooth step keeps the invariant. -/
theorem settleInv_step {e : ServerEvent} {reply : ServerReply} (h : SettleInv s)
    (hsmooth : Smooth setup s e ∧ Possible s e) (hstep : serverStep setup s e=some (reply,s')) :
    SettleInv s' := by
  refine ⟨resizeInv_step h.1 hsmooth.2 hstep,?_⟩
  rcases h.2 with ⟨queue,hstopped⟩ | haimed
  · exact Or.inl ⟨queue,stopped_mono hstep hstopped⟩
  · rcases hsmooth.1 with ⟨queue,hstopped⟩ | horderly
    · exact Or.inl ⟨queue,stopped_mono hstep hstopped⟩
    · exact aimed_step h.1 haimed horderly hsmooth.2 hstep

/-- It holds at the start. -/
theorem settleInv_started (main : Fb) : SettleInv (started main) :=
  ⟨resizeInv_started main,Or.inr ⟨trivial,fun _ _ _ h => by cases h⟩⟩

/-- In every run of possible and smooth steps, in every settled state that is
reached, all framebuffers have the size of the main one and `fb_coalesce`
succeeds. -/
theorem settled_sizes_agree (setup : Setup) (main : Fb) {events : List ServerEvent}
    (hadm : Admitted (fun s e => Smooth setup s e ∧ Possible s e) (serverStep setup) (started main)
      events) {before after : List ServerEvent} (hcut : events=before++after)
    {replies : List ServerReply} {s : Server}
    (hrun : run (serverStep setup) (started main) before=some (replies,s)) (hsettled : Settled s) :
    (∀ fb∈s.fbs,fb.size=s.main.size) ∧
      ∀ rand, ∃ out, fbCoalesce setup.build rand s.main s.fbs=some out ∧ out.ret=0 := by
  rw [hcut] at hadm
  have hinv := run_invariant (fun s e r s' h hp hs => settleInv_step h hp hs)
    (settleInv_started main) hadm.append_left hrun
  have haimed : Aimed s := hinv.2.resolve_left fun ⟨queue,hstopped⟩ => by
    rw [hsettled.running queue] at hstopped
    cases hstopped
  have hsizes := haimed.sizes hsettled
  refine ⟨hsizes,fun rand => ?_⟩
  obtain ⟨_,_,_,hcoalesce⟩ := fbCoalesce_eq setup.build rand rfl hsizes
  exact ⟨_,hcoalesce,rfl⟩

/-- A client connects, the window is resized, and the new size reaches the
client's framebuffer and the main one. -/
def resizeEvents : List ServerEvent :=
  [arrival 0,.pollResize ⟨2,2⟩,.queueResize true true,.leaveQueueing,
    .resizeMain true (some fun _ => ⟨0,0,0,0⟩),.work 0 (some fun _ => ⟨0,0,0,0⟩)]

/-- All of these steps are smooth, and the server settles with one size. -/
theorem settled_sizes_agree_resized :
    ∃ replies s, run (serverStep plainSetup) (started (blackFb 4 4)) resizeEvents=
      some (replies,s) ∧ s.main.size=⟨2,2⟩ ∧ ∀ fb∈s.fbs,fb.size=s.main.size := by
  have hadm : Admitted (fun s e => Orderly plainSetup s e ∧ Possible s e) (serverStep plainSetup)
      (started (blackFb 4 4)) resizeEvents := by decide +kernel
  refine ⟨_,_,rfl,rfl,(settled_sizes_agree plainSetup (blackFb 4 4)
    (hadm.mono fun _ _ h => ⟨Or.inr h.1,h.2⟩) (List.append_nil _).symm rfl
    ⟨rfl,fun queue => ?_,fun queue => ?_⟩).1⟩
  · cases queue <;> rfl
  · cases queue <;> rfl

/-- The same, but no texture can be created: the main framebuffer keeps its
size. -/
def textureEvents : List ServerEvent :=
  [arrival 0,.pollResize ⟨2,2⟩,.queueResize true true,.leaveQueueing,.resizeMain false none,
    .work 0 (some fun _ => ⟨0,0,0,0⟩)]

/-- Then the server settles with two sizes, and merging fails. -/
theorem texture_failure_splits_sizes :
    Admitted Possible (serverStep plainSetup) (started (blackFb 4 4)) textureEvents ∧
      ∃ replies s, run (serverStep plainSetup) (started (blackFb 4 4)) textureEvents=
          some (replies,s) ∧ Settled s ∧ (∃ fb∈s.fbs,fb.size≠s.main.size) ∧
        (fbCoalesce plainSetup.build zeroRand s.main s.fbs).map CoalesceReport.ret=
          some (-EINVAL) := by
  refine ⟨by decide +kernel,_,_,rfl,⟨rfl,fun queue => ?_,fun queue => ?_⟩,⟨_,List.mem_cons_self,?_⟩,?_⟩
  · cases queue <;> rfl
  · cases queue <;> rfl
  · decide +kernel
  · decide +kernel

end Shoreline.Settling
