import Shoreline.ServerRun

/-!
# Assertions while the window is resized

The bound of a get is checked on the framebuffer of the connection and the
pixel is read from the main one. Both have the same size once a resize has
reached both. Before that, and after a resize that went past one of them, a
get may address a pixel that the main framebuffer does not have; nothing else
fails an assertion.
-/

namespace Shoreline.Resizing

open Framebuffer NetConnection CommandScan Coalesce StateMachine ServerRun

/-- A resize is on its way to the framebuffer at a list position: the main
thread is still handling it, it waits in a work queue, or it went past one of
the two framebuffers because of an error or of a connection in between. -/
def Unsettled (s : Server) (k : ℕ) : Prop :=
  s.phase≠.idle ∨ (∃ queue, ∃ work∈s.queues queue,work.fb=k) ∨ s.missed k=true

/-- A get while a resize is unsettled, of a pixel that the framebuffer of the
connection has and the main one has not. -/
def Risky (s : Server) : ServerEvent → Prop
  | .command i (.get x y) => ∃ client fb, s.clients[i]?=some client ∧ s.fbs[client.fb]?=some fb ∧
      Unsettled s client.fb ∧
      fb.size.Contains (x+client.session.offsetX) (y+client.session.offsetY) ∧
      ¬s.main.size.Contains (x+client.session.offsetX) (y+client.session.offsetY)
  | _ => False

/-- Sizes and nodes of the framebuffers in the list. -/
def shapes (s : Server) : List (FbSize×ℕ) := s.fbs.map shape

/-- The size that a framebuffer has once its entries of a queue are done. -/
def lastAsked (queue : List ResizeWork) (k : ℕ) (size : FbSize) : FbSize :=
  queue.foldl (fun size work => if work.fb=k then work.size else size) size

/-- The size that the main framebuffer has once the main thread is idle. -/
def goal : ResizePhase → FbSize → FbSize
  | .idle,size => size
  | .queueing size _,_ => size
  | .queued size,_ => size

/-- The main thread has asked the framebuffer for that size. -/
def Reached : ResizePhase → ℕ → Prop
  | .queueing _ next,k => k<next
  | _,_ => True

/-- What holds in every state of the server. -/
structure ResizeInv (s : Server) : Prop where
  /-- Every connection has a framebuffer. -/
  clients : ∀ client∈s.clients,client.fb<(shapes s).length
  /-- Entries wait in the queue of the node of their framebuffer. -/
  queues : ∀ queue, ∀ work∈s.queues queue, ∃ size, (shapes s)[work.fb]?=some (size,queue)
  /-- What was not missed ends up with the size of the main framebuffer. -/
  asked : ∀ (k : ℕ) size node, (shapes s)[k]?=some (size,node) → Reached s.phase k →
    s.missed k=false → lastAsked (s.queues node) k size=goal s.phase s.main.size

variable {setup : Setup} {s s' : Server}

/-- Entries for other framebuffers do not matter. -/
theorem lastAsked_of_ne {queue : List ResizeWork} {k : ℕ} (h : ∀ work∈queue,work.fb≠k)
    (size : FbSize) : lastAsked queue k size=size := by
  induction queue with
  | nil => rfl
  | cons work queue ih =>
    rw [lastAsked,List.foldl_cons,if_neg (h work List.mem_cons_self)]
    exact ih fun w hw => h w (List.mem_cons_of_mem work hw)

/-- An entry at the end of the queue decides. -/
theorem lastAsked_append_self (queue : List ResizeWork) (k : ℕ) (asked size : FbSize) :
    lastAsked (queue++[⟨k,asked⟩]) k size=asked := by
  rw [lastAsked,List.foldl_append]
  exact if_pos rfl

/-- An entry for another framebuffer at the end does not matter. -/
theorem lastAsked_append_of_ne (queue : List ResizeWork) {i k : ℕ} (h : k≠i) (asked size : FbSize) :
    lastAsked (queue++[⟨i,asked⟩]) k size=lastAsked queue k size := by
  rw [lastAsked,List.foldl_append]
  exact if_neg fun hc => h hc.symm

/-- An entry at the head of the queue sets the size from which the rest goes on. -/
theorem lastAsked_cons_self (work : ResizeWork) (rest : List ResizeWork) (size : FbSize) :
    lastAsked (work::rest) work.fb size=lastAsked rest work.fb work.size := by
  rw [lastAsked,List.foldl_cons,if_pos rfl]
  rfl

/-- An entry for another framebuffer at the head does not matter. -/
theorem lastAsked_cons_of_ne {work : ResizeWork} {k : ℕ} (h : k≠work.fb) (rest : List ResizeWork)
    (size : FbSize) : lastAsked (work::rest) k size=lastAsked rest k size := by
  rw [lastAsked,List.foldl_cons,if_neg fun hc => h hc.symm]
  rfl

/-- A framebuffer in the list has its size and node there. -/
theorem shapes_getElem? {k : ℕ} {fb : Fb} (h : s.fbs[k]?=some fb) :
    (shapes s)[k]?=some (fb.size,fb.numaNode) := by
  rw [shapes,List.getElem?_map,h]
  rfl

/-- Every connection has a framebuffer in the list. -/
theorem ResizeInv.client_fb (h : ResizeInv s) {i : ℕ} {client : Client}
    (hclient : s.clients[i]?=some client) : ∃ fb, s.fbs[client.fb]?=some fb := by
  have hlt := h.clients client (List.mem_of_getElem? hclient)
  rw [shapes,List.length_map] at hlt
  exact ⟨_,List.getElem?_eq_getElem hlt⟩

/-- Every entry that waits is for a framebuffer of the node. -/
theorem ResizeInv.work_fb (h : ResizeInv s) {queue : ℕ} {work : ResizeWork}
    (hwork : work∈s.queues queue) : ∃ fb, s.fbs[work.fb]?=some fb ∧ fb.numaNode=queue := by
  obtain ⟨size,hget⟩ := h.queues queue work hwork
  rw [shapes,List.getElem?_map,Option.map_eq_some_iff] at hget
  obtain ⟨fb,hfb,hshape⟩ := hget
  exact ⟨fb,hfb,congrArg Prod.snd hshape⟩

/-- The position that an entry names is in the list. -/
theorem ResizeInv.work_lt (h : ResizeInv s) {queue : ℕ} {work : ResizeWork}
    (hwork : work∈s.queues queue) : work.fb<(shapes s).length := by
  obtain ⟨size,hget⟩ := h.queues queue work hwork
  exact (List.getElem?_eq_some_iff.mp hget).1

/-- It holds at the start. -/
theorem resizeInv_started (main : Fb) : ResizeInv (started main) where
  clients _ h := absurd h List.not_mem_nil
  queues _ _ h := absurd h List.not_mem_nil
  asked _ _ _ h := by cases h

/-- Steps that change no size, node, queue or phase keep it. -/
theorem ResizeInv.of_same (h : ResizeInv s) (hshapes : shapes s'=shapes s)
    (hclients : ∀ client∈s'.clients,client.fb<(shapes s).length) (hqueues : s'.queues=s.queues)
    (hphase : s'.phase=s.phase) (hmissed : s'.missed=s.missed) (hmain : s'.main.size=s.main.size) :
    ResizeInv s' := by
  refine ⟨?_,?_,?_⟩
  · rw [hshapes]
    exact hclients
  · rw [hshapes,hqueues]
    exact h.queues
  · rw [hshapes,hqueues,hphase,hmissed,hmain]
    exact h.asked

/-- A settled framebuffer has the size of the main one. -/
theorem ResizeInv.settled (h : ResizeInv s) {k : ℕ} {fb : Fb} (hfb : s.fbs[k]?=some fb)
    (hsettled : ¬Unsettled s k) : fb.size=s.main.size := by
  unfold Unsettled at hsettled
  push Not at hsettled
  obtain ⟨hidle,hqueues,hmissed⟩ := hsettled
  have hsize := h.asked k fb.size fb.numaNode (shapes_getElem? hfb) (by rw [hidle]; trivial)
    (eq_false_of_ne_true hmissed)
  rw [lastAsked_of_ne fun work hw => hqueues fb.numaNode work hw,hidle] at hsize
  exact hsize

/-- A framebuffer appended with the size of the main one keeps the invariant,
if it is taken to miss a resize that is going on. -/
theorem ResizeInv.append (h : ResizeInv s) {node : ℕ}
    (hshapes : shapes s'=shapes s++[(s.main.size,node)])
    (hclients : ∀ client∈s'.clients,client∈s.clients ∨ client.fb=(shapes s).length)
    (hqueues : s'.queues=s.queues) (hphase : s'.phase=s.phase) (hmain : s'.main=s.main)
    (hold : ∀ k<(shapes s).length,s'.missed k=s.missed k)
    (hnew : s'.missed (shapes s).length=decide (s.phase≠.idle)) : ResizeInv s' := by
  refine ⟨fun client hmem => ?_,fun queue work hw => ?_,fun k size node' hget hreached hmissed => ?_⟩
  · rw [hshapes,List.length_append,List.length_singleton]
    rcases hclients client hmem with hc | hc
    · exact Nat.lt_succ_of_lt (h.clients client hc)
    · rw [hc]
      exact Nat.lt_succ_self _
  · rw [hqueues] at hw
    rw [hshapes,List.getElem?_append_left (h.work_lt hw)]
    exact h.queues queue work hw
  · rw [hshapes] at hget
    rw [hphase] at hreached
    rw [hqueues,hphase,hmain]
    by_cases hk : k<(shapes s).length
    · rw [List.getElem?_append_left hk] at hget
      rw [hold k hk] at hmissed
      exact h.asked k size node' hget hreached hmissed
    · -- the new framebuffer: no entry names it, and no resize is going on
      rw [List.getElem?_append_right (Nat.le_of_not_lt hk)] at hget
      have hin := (List.getElem?_eq_some_iff.mp hget).1
      rw [List.length_singleton] at hin
      have hke : k=(shapes s).length := by omega
      rw [hke,hnew,decide_eq_false_iff_not,not_not] at hmissed
      cases List.mem_singleton.mp (List.mem_of_getElem? hget)
      rw [hmissed]
      refine lastAsked_of_ne (fun work hw hc => ?_) _
      have hlt := h.work_lt hw
      omega

/-- A connection keeps the invariant. -/
theorem ResizeInv.connect (h : ResizeInv s) (look : ℕ) (node : Option UInt32)
    (block : Option (ℕ → FbPixel)) (numaNode : ℕ) :
    ResizeInv (serverConnect setup s look node block numaNode).2 := by
  have hlen : (shapes s).length=s.fbs.length := List.length_map _
  unfold serverConnect
  cases hfind : fbGetFbOnNode s.fbs look with
  | some k =>
    have hk : k<s.fbs.length := (List.findIdx?_eq_some_iff_findIdx_eq.mp hfind).1
    refine h.of_same rfl (fun client hmem => ?_) rfl rfl rfl rfl
    rcases List.mem_append.mp hmem with hold | hnew
    · exact h.clients client hold
    · rw [List.mem_singleton.mp hnew,hlen]
      exact hk
  | none =>
    cases halloc : fbAlloc setup.build.host node block numaNode s.main.size with
    | error e => exact h
    | ok fb =>
      have hshape : shape fb=(s.main.size,numaNode) := fbAlloc_shape halloc
      refine h.append ((List.map_append).trans (congrArg (shapes s++[·]) hshape))
        (fun client hmem => ?_) rfl rfl rfl (fun k hk => ?_) ?_
      · rcases List.mem_append.mp hmem with hc | hc
        · exact Or.inl hc
        · rw [List.mem_singleton.mp hc,hlen]
          exact Or.inr rfl
      · rw [hlen] at hk
        exact if_neg (Nat.ne_of_lt hk)
      · exact if_pos hlen

/-- A command keeps it. -/
theorem ResizeInv.command (h : ResizeInv s) {i : ℕ} {c : Command} {reply : ServerReply}
    (hrun : serverCommand setup s i c=some (reply,s')) : ResizeInv s' := by
  obtain ⟨client,fb,live,hclient,hfb,rfl⟩ := serverCommand_some hrun
  have hshape := (exec_fb ⟨setup.build,s.main,setup.socket i⟩ (client.enter fb) c).1
  refine h.of_same (map_shape_set hfb hshape) (fun client' hmem => ?_) rfl rfl rfl rfl
  rcases List.mem_or_eq_of_mem_set hmem with hold | rfl
  · exact h.clients client' hold
  · exact h.clients client (List.mem_of_getElem? hclient)

/-- Queueing one framebuffer keeps it. -/
theorem ResizeInv.queueResize (h : ResizeInv s) {size : FbSize} {i : ℕ}
    (hphase : s.phase=.queueing size i) {fb : Fb} (hfb : s.fbs[i]?=some fb) (priv entry : Bool) :
    ResizeInv (serverQueueResize setup s size i fb priv entry).2 := by
  rcases serverQueueResize_cases setup s size i fb priv entry with he | he
  · rw [he]
    exact ⟨h.clients,h.queues,fun _ _ _ _ _ hmissed => by cases hmissed⟩
  · rw [he]
    refine ⟨h.clients,fun queue work hw => ?_,fun k size' node hget hreached hmissed => ?_⟩
    · dsimp only at hw
      split at hw
      · rename_i hq
        rcases List.mem_append.mp hw with hold | hnew
        · exact h.queues queue work hold
        · rw [List.mem_singleton.mp hnew,hq]
          exact ⟨_,shapes_getElem? hfb⟩
      · exact h.queues queue work hw
    · dsimp only [Reached,goal] at hreached hmissed ⊢
      have hget' : (shapes s)[k]?=some (size',node) := hget
      by_cases hk : k=i
      · rw [hk,shapes_getElem? hfb] at hget'
        cases hget'
        rw [if_pos rfl,hk]
        exact lastAsked_append_self _ i size _
      · rw [if_neg hk] at hmissed
        have hold := h.asked k size' node hget' (by rw [hphase]; exact show k < i by omega) hmissed
        rw [hphase] at hold
        split
        · exact (lastAsked_append_of_ne _ hk size size').trans hold
        · exact hold

/-- Leaving the list at its end keeps it: every framebuffer was asked. -/
theorem ResizeInv.leaveQueueing (h : ResizeInv s) {size : FbSize} {i : ℕ}
    (hphase : s.phase=.queueing size i) (hi : s.fbs.length ≤ i) :
    ResizeInv {s with phase := .queued size} := by
  refine ⟨h.clients,h.queues,fun k size' node hget _ hmissed => ?_⟩
  have hk := (List.getElem?_eq_some_iff.mp hget).1
  rw [shapes,List.length_map] at hk
  have hold := h.asked k size' node hget (by rw [hphase]; exact lt_of_lt_of_le hk hi) hmissed
  rw [hphase] at hold
  exact hold

/-- The end of a resize event keeps it. -/
theorem ResizeInv.resizeMain (h : ResizeInv s) {size : FbSize} (hphase : s.phase=.queued size)
    (texture : Bool) (block : Option (ℕ → FbPixel)) :
    ResizeInv (serverResizeMain s size texture block).2 := by
  unfold serverResizeMain
  cases texture with
  | false => exact ⟨h.clients,h.queues,fun _ _ _ _ _ hmissed => by cases hmissed⟩
  | true =>
    rw [if_pos rfl]
    refine ⟨h.clients,h.queues,fun k size' node hget _ hmissed => ?_⟩
    cases block with
    | none => cases hmissed
    | some heap =>
      have hold := h.asked k size' node hget (by rw [hphase]; trivial) hmissed
      rw [hphase] at hold
      exact hold

section Work

variable {queue : ℕ} {work : ResizeWork} {rest : List ResizeWork}

/-- What still waits once an entry is done waited before. -/
theorem mem_queues_of_rest (hqueue : s.queues queue=work::rest) {q : ℕ} {w : ResizeWork}
    (hw : w∈(if q=queue then rest else s.queues q)) : w∈s.queues q := by
  split at hw
  · rename_i hq
    rw [hq,hqueue]
    exact List.mem_cons_of_mem work hw
  · exact hw

/-- For another framebuffer an entry that is done does not matter. -/
theorem lastAsked_rest (hqueue : s.queues queue=work::rest) {k : ℕ} (hk : k≠work.fb) (node : ℕ)
    (size : FbSize) :
    lastAsked (if node=queue then rest else s.queues node) k size=
      lastAsked (s.queues node) k size := by
  split
  · rename_i hq
    rw [hq,hqueue,lastAsked_cons_of_ne hk]
  · rfl

/-- An entry whose allocation fails keeps it: its framebuffer is taken to
miss the resize. -/
theorem ResizeInv.work_failed (h : ResizeInv s) (hqueue : s.queues queue=work::rest) {fb : Fb}
    (hfb : s.fbs[work.fb]?=some fb) : ResizeInv (serverWork s queue work rest fb none).2 := by
  have hsame : shapes (serverWork s queue work rest fb none).2=shapes s := map_shape_set hfb rfl
  refine ⟨?_,fun q w hw => ?_,fun k size node hget hreached hmissed => ?_⟩
  · rw [hsame]
    exact h.clients
  · rw [hsame]
    exact h.queues q w (mem_queues_of_rest hqueue hw)
  · rw [hsame] at hget
    obtain ⟨hk,hmissed'⟩ := Bool.or_eq_false_iff.mp hmissed
    have hne : k≠work.fb := fun hc =>
      (decide_eq_false_iff_not.mp hk) ⟨hc,show -ENOMEM≠0 by decide⟩
    exact (lastAsked_rest hqueue hne node size).trans (h.asked k size node hget hreached hmissed')

/-- An entry that is done changes the size of its framebuffer. -/
theorem shapes_work_done {queue : ℕ} (work : ResizeWork) (rest : List ResizeWork) {fb : Fb}
    (hfb : s.fbs[work.fb]?=some fb) (hnode : fb.numaNode=queue) (heap : ℕ → FbPixel) :
    (shapes s)[work.fb]?=some (fb.size,queue) ∧ work.fb<(shapes s).length ∧
      shapes (serverWork s queue work rest fb (some heap)).2=
        (shapes s).set work.fb (work.size,queue) := by
  have hshape := shapes_getElem? hfb
  rw [hnode] at hshape
  refine ⟨hshape,(List.getElem?_eq_some_iff.mp hshape).1,?_⟩
  rw [←hnode]
  exact List.map_set

/-- An entry that is done keeps it. -/
theorem ResizeInv.work_done (h : ResizeInv s) (hqueue : s.queues queue=work::rest) {fb : Fb}
    (hfb : s.fbs[work.fb]?=some fb) (hnode : fb.numaNode=queue) (heap : ℕ → FbPixel) :
    ResizeInv (serverWork s queue work rest fb (some heap)).2 := by
  obtain ⟨hshape,hlt,hnew⟩ := shapes_work_done work rest hfb hnode heap
  have hrest : (serverWork s queue work rest fb (some heap)).2.queues queue=rest := if_pos rfl
  refine ⟨?_,fun q w hw => ?_,fun k size node hget hreached hmissed => ?_⟩
  · rw [hnew,List.length_set]
    exact h.clients
  · obtain ⟨size,hget⟩ := h.queues q w (mem_queues_of_rest hqueue hw)
    rw [hnew]
    by_cases hw' : w.fb=work.fb
    · rw [hw',List.getElem?_set_self hlt]
      rw [hw',hshape] at hget
      cases hget
      exact ⟨_,rfl⟩
    · rw [List.getElem?_set_ne fun hc => hw' hc.symm]
      exact ⟨size,hget⟩
  · rw [hnew] at hget
    obtain ⟨_,hmissed'⟩ := Bool.or_eq_false_iff.mp hmissed
    by_cases hk : k=work.fb
    · rw [hk,List.getElem?_set_self hlt] at hget
      cases hget
      have hold := h.asked work.fb fb.size queue hshape (hk ▸ hreached) (hk ▸ hmissed')
      rw [hqueue,lastAsked_cons_self] at hold
      rw [hrest,hk]
      exact hold
    · rw [List.getElem?_set_ne fun hc => hk hc.symm] at hget
      exact (lastAsked_rest hqueue hk node size).trans (h.asked k size node hget hreached hmissed')

end Work

/-- Every possible step keeps the invariant. -/
theorem resizeInv_step {e : ServerEvent} {reply : ServerReply} (h : ResizeInv s)
    (hpossible : Possible s e) (hstep : serverStep setup s e=some (reply,s')) : ResizeInv s' := by
  cases e with
  | connect look node block numaNode =>
    have hinv : ResizeInv (serverConnect setup s look node block numaNode).2 :=
      h.connect look node block numaNode
    rw [Option.some.inj hstep] at hinv
    exact hinv
  | command i c => exact h.command hstep
  | coalesce rand =>
    obtain ⟨out,hfb,hfbs,rfl⟩ := coalesce_cases hstep
    exact h.of_same hfbs h.clients rfl rfl rfl (congrArg Prod.fst hfb)
  | pollResize size =>
    cases hstep
    exact ⟨h.clients,h.queues,fun k _ _ _ hreached _ => absurd hreached (Nat.not_lt_zero k)⟩
  | queueResize priv entry =>
    obtain ⟨size,i,fb,hphase,hfb,rfl⟩ := queueResize_cases hstep
    exact h.queueResize hphase hfb priv entry
  | leaveQueueing =>
    obtain ⟨size,i,hphase,hi⟩ := possible_leaveQueueing hpossible
    simp only [serverStep,hphase,Option.some.injEq,Prod.mk.injEq] at hstep
    obtain ⟨-,rfl⟩ := hstep
    exact h.leaveQueueing hphase hi
  | resizeMain texture block =>
    obtain ⟨size,hphase,rfl⟩ := resizeMain_cases hstep
    exact h.resizeMain hphase texture block
  | work queue block =>
    obtain ⟨work,rest,fb,hqueue,hfb,rfl⟩ := work_cases hstep
    cases block with
    | none => exact h.work_failed hqueue hfb
    | some heap =>
      obtain ⟨fb',hfb',hnode⟩ := h.work_fb (hqueue ▸ List.mem_cons_self)
      rw [hfb] at hfb'
      cases hfb'
      exact h.work_done hqueue hfb hnode heap

/-- A possible step fails an assertion exactly when it is a risky get. -/
theorem serverStep_none_iff (h : ResizeInv s) {e : ServerEvent} (hpossible : Possible s e) :
    serverStep setup s e=none ↔ Risky s e := by
  cases e with
  | connect look node block numaNode => exact ⟨fun hn => (by cases hn),False.elim⟩
  | command i c =>
    obtain ⟨client,hclient⟩ := possible_command hpossible
    obtain ⟨fb,hfb⟩ := h.client_fb hclient
    refine (serverCommand_none_iff hclient hfb).trans ⟨?_,fun hrisky => ?_⟩
    · rintro ⟨x,y,rfl,hin,hout⟩
      refine ⟨client,_,hclient,hfb,?_,hin,hout⟩
      -- a settled framebuffer has the size of the main one
      by_contra hsettled
      rw [h.settled hfb hsettled] at hin
      exact hout hin
    · cases c with
      | get x y =>
        obtain ⟨client',fb',hclient',hfb',_,hin,hout⟩ := hrisky
        rw [hclient] at hclient'
        cases hclient'
        rw [hfb] at hfb'
        cases hfb'
        exact ⟨x,y,rfl,hin,hout⟩
      | _ => exact hrisky.elim
  | coalesce rand =>
    obtain ⟨out,hrun,_,_⟩ := fbCoalesce_shape setup.build rand s.main s.fbs
    simp only [serverStep,hrun,Option.map_some,reduceCtorEq,Risky]
  | pollResize size => exact ⟨fun hn => (by cases hn),False.elim⟩
  | queueResize priv entry =>
    obtain ⟨size,i,hphase,hi⟩ := possible_queueResize hpossible
    simp only [serverStep,hphase,List.getElem?_eq_getElem hi,reduceCtorEq,Risky]
  | leaveQueueing =>
    obtain ⟨size,i,hphase,_⟩ := possible_leaveQueueing hpossible
    simp only [serverStep,hphase,reduceCtorEq,Risky]
  | resizeMain texture block =>
    obtain ⟨size,hphase⟩ := possible_resizeMain hpossible
    simp only [serverStep,hphase,reduceCtorEq,Risky]
  | work queue block =>
    obtain ⟨work,rest,hqueue⟩ := List.exists_cons_of_ne_nil hpossible.2
    obtain ⟨fb,hfb,_⟩ := h.work_fb (hqueue ▸ List.mem_cons_self)
    simp only [serverStep,hqueue,hfb,reduceCtorEq,Risky]

/-- In every run of the server no assertion fails exactly when no get in it
is risky. -/
theorem assertions_hold_iff (setup : Setup) (main : Fb) {events : List ServerEvent}
    (hadm : Admitted Possible (serverStep setup) (started main) events) :
    run (serverStep setup) (started main) events≠none ↔
      ∀ before e after replies s, events=before++e::after →
        run (serverStep setup) (started main) before=some (replies,s) → ¬Risky s e := by
  have hstuck := run_eq_none_iff (fun s e r s' h hp hs => resizeInv_step h hp hs)
    (fun s e h hp => serverStep_none_iff h hp) (resizeInv_started main) hadm
  rw [ne_eq,hstuck]
  constructor
  · intro hno before e after replies s he hrun hrisky
    exact hno ⟨before,e,after,replies,s,he,hrun,hrisky⟩
  · rintro hall ⟨before,e,after,replies,s,he,hrun,hrisky⟩
    exact hall before e after replies s he hrun hrisky

/-- A client connects, and the window shrinks: the main framebuffer is
resized, the resize of the client's one waits in its queue. -/
def shrinkEvents : List ServerEvent :=
  [arrival 0,.pollResize ⟨2,2⟩,.queueResize true true,.leaveQueueing,
    .resizeMain true (some fun _ => ⟨0,0,0,0⟩)]

/-- Once the queue is processed, a get there is not risky. -/
theorem assertions_hold_processed :
    ¬∃ before e after replies s,
      shrinkEvents++[.work 0 (some fun _ => ⟨0,0,0,0⟩),.command 0 (.get 3 3)]=before++e::after ∧
      run (serverStep plainSetup) (started (blackFb 4 4)) before=some (replies,s) ∧ Risky s e :=
  fun ⟨before,e,after,replies,s,he,hrun,hrisky⟩ =>
    (assertions_hold_iff plainSetup (blackFb 4 4) (by decide +kernel)).mp
      (Option.isSome_iff_ne_none.mp (by decide +kernel)) before e after replies s he hrun hrisky

/-- Before that, a get in the part that is gone fails an assertion. -/
theorem shrinking_aborts :
    Admitted Possible (serverStep plainSetup) (started (blackFb 4 4))
        (shrinkEvents++[.command 0 (.get 3 3)]) ∧
      run (serverStep plainSetup) (started (blackFb 4 4)) (shrinkEvents++[.command 0 (.get 3 3)])=
        none :=
  ⟨by decide +kernel,Option.isNone_iff_eq_none.mp (by decide +kernel)⟩

end Shoreline.Resizing
