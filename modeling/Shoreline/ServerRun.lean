import Shoreline.Coalesce
import Shoreline.CommandScan
import Shoreline.Coordinates
import Shoreline.Library.StateMachine

/-!
# The server

Connections with their node framebuffers, the screen loop, and SDL resizing
with its work queues, as one machine whose steps are taken in any order.
Commands are taken as one step each; the handling of a resize event is cut
wherever another thread can come in between.
-/

namespace Shoreline.ServerRun

open Framebuffer NetConnection CommandScan Coordinates Coalesce StateMachine

/-- `struct resize_wq_priv`. -/
structure ResizeWork where
  /-- Position of the framebuffer in the list. -/
  fb : ℕ
  /-- The size to be. -/
  size : FbSize
  deriving DecidableEq

/-- A connection thread. -/
structure Client where
  /-- Position of its framebuffer in the list. -/
  fb : ℕ
  /-- Its session; the framebuffer there is that of the last command. -/
  session : Session
  /-- It still handles commands. -/
  live : Bool

/-- How far the main thread is with a resize event in `sdl_update`. -/
inductive ResizePhase where
  | idle
  | queueing (size : FbSize) (next : ℕ)
  | queued (size : FbSize)
  deriving DecidableEq

/-- What does not change while the server runs. -/
structure Setup where
  /-- Features and host. -/
  build : Build
  /-- The socket of every connection. -/
  socket : ℕ → Socket
  /-- `num_workqueues`. -/
  workqueues : ℕ

/-- The state of all threads. -/
structure Server where
  /-- The main framebuffer, which is also `net->fb`. -/
  main : Fb
  /-- `fb_list`. -/
  fbs : List Fb
  /-- The connections, in the order in which they were accepted. -/
  clients : List Client
  /-- Entries of the work queue of every node. -/
  queues : ℕ → List ResizeWork
  /-- Worker threads that left after a failure. -/
  stopped : ℕ → Bool
  /-- The main thread inside `sdl_update`. -/
  phase : ResizePhase
  /-- History: in-bounds sets executed since the last coalesce. -/
  drawn : List (UInt32×UInt32)
  /-- History: a framebuffer was appended since the last coalesce. -/
  joined : Bool
  /-- History: framebuffers that a resize went past. -/
  missed : ℕ → Bool

/-- One step of one thread, with the outcomes of the allocations in it. -/
inductive ServerEvent where
  | connect (look : ℕ) (node : Option UInt32) (block : Option (ℕ → FbPixel)) (numaNode : ℕ)
  | command (client : ℕ) (c : Command)
  | coalesce (rand : Rand)
  | pollResize (size : FbSize)
  | queueResize (priv entry : Bool)
  | leaveQueueing
  | resizeMain (texture : Bool) (block : Option (ℕ → FbPixel))
  | work (queue : ℕ) (block : Option (ℕ → FbPixel))

/-- A return code, or how a command ended. -/
inductive ServerReply where
  | code (ret : ℤ)
  | ended (ending : CommandEnd)

/-- The start of `net_connection_thread`: look up or allocate the framebuffer
of the node. -/
def serverConnect (setup : Setup) (s : Server) (look : ℕ) (node : Option UInt32)
    (block : Option (ℕ → FbPixel)) (numaNode : ℕ) : ServerReply×Server :=
  match fbGetFbOnNode s.fbs look with
  | some k =>
    (.code 0,{s with clients := s.clients++[⟨k,freshSession (s.fbs[k]?.getD s.main),true⟩]})
  | none =>
    match fbAlloc setup.build.host node block numaNode s.main.size with
    | .error e => (.code e,s)
    | .ok fb => (.code 0,{s with
        fbs := s.fbs++[fb]
        clients := s.clients++[⟨s.fbs.length,freshSession fb,true⟩]
        joined := true
        missed := fun k => if k=s.fbs.length then decide (s.phase≠.idle) else s.missed k})

/-- The in-bounds set that a command is, if it is one. -/
def drawnBy (session : Session) : Command → List (UInt32×UInt32)
  | .set x y _ =>
    if session.fb.size.Contains (x+session.offsetX) (y+session.offsetY) then
      [(x+session.offsetX,y+session.offsetY)]
    else []
  | _ => []

/-- The session in which a connection executes its next command. -/
def Client.enter (client : Client) (fb : Fb) : Session := {client.session with fb := fb}

/-- One command of a connection; `none` is a failed assertion. -/
def serverCommand (setup : Setup) (s : Server) (i : ℕ) (c : Command) :
    Option (ServerReply×Server) :=
  match s.clients[i]? with
  | none => none
  | some client =>
    match s.fbs[client.fb]? with
    | none => none
    | some fb =>
      let out := exec ⟨setup.build,s.main,setup.socket i⟩ (client.enter fb) c
      match out.1 with
      | .aborted _ => none
      | ending => some (.ended ending,{s with
          fbs := s.fbs.set client.fb out.2.fb
          clients := s.clients.set i ⟨client.fb,out.2,decide (ending=.done)⟩
          drawn := s.drawn++drawnBy (client.enter fb) c})

/-- `workqueue_enqueue`, given the outcome of its `calloc`. -/
def workqueueEnqueue (workqueues : ℕ) (queues : ℕ → List ResizeWork) (numaNode : ℕ)
    (work : ResizeWork) (entry : Bool) : ℤ×(ℕ → List ResizeWork) :=
  if workqueues≤numaNode then (-EINVAL,queues)
  else if entry then (0,fun q => if q=numaNode then queues q++[work] else queues q)
  else (-ENOMEM,queues)

/-- One round of the loop of `resize_cb`; an error leaves `sdl_update`. -/
def serverQueueResize (setup : Setup) (s : Server) (size : FbSize) (i : ℕ) (fb : Fb)
    (priv entry : Bool) : ServerReply×Server :=
  let out := if priv then workqueueEnqueue setup.workqueues s.queues fb.numaNode ⟨i,size⟩ entry
    else (-ENOMEM,s.queues)
  if out.1=0 then (.code 0,{s with
    queues := out.2
    phase := .queueing size (i+1)
    missed := fun k => if k=i then false else s.missed k})
  else (.code out.1,{s with queues := out.2, phase := .idle, missed := fun _ => true})

/-- The end of the handling of a resize event: without a new texture the main
framebuffer is left alone, and the result of its resizing is ignored. -/
def serverResizeMain (s : Server) (size : FbSize) (texture : Bool)
    (block : Option (ℕ → FbPixel)) : ServerReply×Server :=
  if texture then
    let out := fbResize s.main block size
    (.code out.1,{s with
      main := out.2
      phase := .idle
      missed := fun k => decide (out.1≠0) || s.missed k})
  else (.code 0,{s with phase := .idle, missed := fun _ => true})

/-- One entry of a work queue: `resize_wq_cb`, and on an error the end of the
worker thread. -/
def serverWork (s : Server) (queue : ℕ) (work : ResizeWork) (rest : List ResizeWork) (fb : Fb)
    (block : Option (ℕ → FbPixel)) : ServerReply×Server :=
  let out := fbResize fb block work.size
  (.code out.1,{s with
    fbs := s.fbs.set work.fb out.2
    queues := fun q => if q=queue then rest else s.queues q
    stopped := fun q => decide (q=queue ∧ out.1≠0) || s.stopped q
    missed := fun k => decide (k=work.fb ∧ out.1≠0) || s.missed k})

/-- One step of the server; `none` is a failed assertion. -/
def serverStep (setup : Setup) : Step ServerEvent ServerReply Server
  | s,.connect look node block numaNode => some (serverConnect setup s look node block numaNode)
  | s,.command i c => serverCommand setup s i c
  | s,.coalesce rand =>
    (fbCoalesce setup.build rand s.main s.fbs).map fun out =>
      (.code out.ret,{s with main := out.fb, fbs := out.fbs, drawn := [], joined := false})
  | s,.pollResize size => some (.code 0,{s with phase := .queueing size 0})
  | s,.queueResize priv entry =>
    match s.phase with
    | .queueing size i =>
      match s.fbs[i]? with
      | none => none
      | some fb => some (serverQueueResize setup s size i fb priv entry)
    | _ => none
  | s,.leaveQueueing =>
    match s.phase with
    | .queueing size _ => some (.code 0,{s with phase := .queued size})
    | _ => none
  | s,.resizeMain texture block =>
    match s.phase with
    | .queued size => some (serverResizeMain s size texture block)
    | _ => none
  | s,.work queue block =>
    match s.queues queue with
    | [] => none
    | work::rest =>
      match s.fbs[work.fb]? with
      | none => none
      | some fb => some (serverWork s queue work rest fb block)

/-- The steps that threads can take: the main thread does one thing after
the other, connections and workers go on until they leave. -/
def Possible (s : Server) : ServerEvent → Prop
  | .connect _ _ _ _ => True
  | .command i _ => s.clients[i]?.any Client.live=true
  | .coalesce _ => s.phase=.idle
  | .pollResize _ => s.phase=.idle
  | .queueResize _ _ =>
    match s.phase with
    | .queueing _ i => i<s.fbs.length
    | _ => False
  | .leaveQueueing =>
    match s.phase with
    | .queueing _ i => s.fbs.length ≤ i
    | _ => False
  | .resizeMain _ _ =>
    match s.phase with
    | .queued _ => True
    | _ => False
  | .work queue _ => s.stopped queue=false ∧ s.queues queue≠[]

instance (s : Server) : ∀ e, Decidable (Possible s e)
  | .connect _ _ _ _ => inferInstanceAs (Decidable True)
  | .command _ _ => inferInstanceAs (Decidable (_=true))
  | .coalesce _ => inferInstanceAs (Decidable (_=_))
  | .pollResize _ => inferInstanceAs (Decidable (_=_))
  | .queueResize _ _ =>
    match h : s.phase with
    | .idle => isFalse (by simp only [Possible,h,not_false_eq_true])
    | .queueing _ i => decidable_of_iff (i<s.fbs.length) (by simp only [Possible,h])
    | .queued _ => isFalse (by simp only [Possible,h,not_false_eq_true])
  | .leaveQueueing =>
    match h : s.phase with
    | .idle => isFalse (by simp only [Possible,h,not_false_eq_true])
    | .queueing _ i => decidable_of_iff (s.fbs.length ≤ i) (by simp only [Possible,h])
    | .queued _ => isFalse (by simp only [Possible,h,not_false_eq_true])
  | .resizeMain _ _ =>
    match h : s.phase with
    | .idle => isFalse (by simp only [Possible,h,not_false_eq_true])
    | .queueing _ _ => isFalse (by simp only [Possible,h,not_false_eq_true])
    | .queued _ => isTrue (by simp only [Possible,h])
  | .work _ _ => inferInstanceAs (Decidable (_=_ ∧ _≠_))

/-- A server that has just started to listen. -/
def started (main : Fb) : Server :=
  ⟨main,[],[],fun _ => [],fun _ => false,.idle,[],false,fun _ => false⟩

/-- A pixel is read from the main framebuffer once it was found inside that
of the connection. -/
theorem netGetPixel_aborted_iff (env : NetEnv) (x y : UInt32) (session : Session) :
    (∃ site, (netGetPixel env x y session).1=.aborted site) ↔
      session.fb.size.Contains x y ∧ ¬env.netFb.size.Contains x y := by
  simp only [netGetPixel,fbGetPixel]
  by_cases hin : session.fb.size.Contains x y
  · by_cases hmain : env.netFb.size.Contains x y
    · rw [if_pos hin,if_pos hmain]
      constructor
      · rintro ⟨site,h⟩
        dsimp only at h
        split at h <;> cases h
      · rintro ⟨_,hout⟩
        exact absurd hmain hout
    · rw [if_pos hin,if_neg hmain]
      constructor
      · intro _
        exact ⟨hin,hmain⟩
      · intro _
        exact ⟨_,rfl⟩
  · rw [if_neg hin]
    constructor
    · rintro ⟨_,h⟩
      cases h
    · rintro ⟨hin',_⟩
      exact absurd hin' hin

/-- Drawing never aborts. -/
theorem netDraw_done (env : NetEnv) (x y : UInt32) (pixel : FbPixel) (session : Session) :
    (netDraw env x y pixel session).1=.done := by
  by_cases hin : session.fb.size.Contains x y
  · obtain ⟨_,_,hdraw,_⟩ := netDraw_inside env pixel hin
    rw [hdraw]
  · rw [netDraw_outside env pixel hin]

/-- Only a get aborts. -/
theorem get_of_aborted {env : NetEnv} {session : Session} {c : Command} {site : AssertSite}
    (h : (exec env session c).1=.aborted site) : ∃ x y, c=.get x y := by
  cases c with
  | unknown => cases h
  | get x y => exact ⟨x,y,rfl⟩
  | set x y digits =>
    dsimp only [exec] at h
    rw [netDraw_done] at h
    cases h
  | size =>
    dsimp only [exec] at h
    split at h <;> cases h
  | offset x y => cases h

/-- A command aborts exactly when it is a get inside the framebuffer of the
connection and outside the main one. -/
theorem exec_aborted_iff (env : NetEnv) (session : Session) (c : Command) :
    (∃ site, (exec env session c).1=.aborted site) ↔
      ∃ x y, c=.get x y ∧
        session.fb.size.Contains (x+session.offsetX) (y+session.offsetY) ∧
        ¬env.netFb.size.Contains (x+session.offsetX) (y+session.offsetY) := by
  constructor
  · rintro ⟨site,h⟩
    obtain ⟨x,y,rfl⟩ := get_of_aborted h
    exact ⟨x,y,rfl,(netGetPixel_aborted_iff env _ _ session).mp ⟨site,h⟩⟩
  · rintro ⟨x,y,rfl,hout⟩
    exact (netGetPixel_aborted_iff env _ _ session).mpr hout

/-- A get leaves the framebuffer alone. -/
theorem netGetPixel_fb (env : NetEnv) (x y : UInt32) (session : Session) :
    (netGetPixel env x y session).2.fb=session.fb := by
  unfold netGetPixel
  dsimp only
  split
  · split
    · rfl
    · split <;> rfl
  · rfl

/-- A command leaves the framebuffer alone, unless it is an in-bounds set;
that stores one pixel. -/
theorem exec_fb (env : NetEnv) (session : Session) (c : Command) :
    shape (exec env session c).2.fb=shape session.fb ∧
      ((exec env session c).2.fb.pixels=session.fb.pixels ∧ drawnBy session c=[] ∨
        ∃ x y pixel, drawnBy session c=[(x,y)] ∧ session.fb.size.Contains x y ∧
          (exec env session c).2.fb.pixels=
            writePixel session.fb.pixels (fbIndex session.fb x y) pixel) := by
  cases c with
  | unknown => exact ⟨rfl,Or.inl ⟨rfl,rfl⟩⟩
  | get x y =>
    dsimp only [exec]
    rw [netGetPixel_fb]
    exact ⟨rfl,Or.inl ⟨rfl,rfl⟩⟩
  | set x y digits =>
    dsimp only [exec,drawnBy]
    by_cases hin : session.fb.size.Contains (x+session.offsetX) (y+session.offsetY)
    · obtain ⟨out,fb,hdraw,hsize,hpixels,_⟩ := netDraw_inside env (colour env.build.host digits) hin
      have hnode := netDraw_numaNode env (x+session.offsetX) (y+session.offsetY)
        (colour env.build.host digits) session
      rw [hdraw] at hnode ⊢
      rw [if_pos hin]
      exact ⟨Prod.ext hsize hnode,Or.inr ⟨_,_,out,rfl,hin,hpixels⟩⟩
    · rw [netDraw_outside env _ hin,if_neg hin]
      exact ⟨rfl,Or.inl ⟨rfl,rfl⟩⟩
  | size =>
    dsimp only [exec]
    split <;> exact ⟨rfl,Or.inl ⟨rfl,rfl⟩⟩
  | offset x y => exact ⟨rfl,Or.inl ⟨rfl,rfl⟩⟩

variable {setup : Setup} {s : Server}

/-- A connection that can handle a command exists. -/
theorem possible_command {i : ℕ} {c : Command} (h : Possible s (.command i c)) :
    ∃ client, s.clients[i]?=some client := by
  cases hclient : s.clients[i]? with
  | none =>
    rw [Possible,hclient] at h
    cases h
  | some client => exact ⟨client,rfl⟩

/-- A framebuffer is asked for its size while the main thread goes through
the list. -/
theorem possible_queueResize {priv entry : Bool} (h : Possible s (.queueResize priv entry)) :
    ∃ size i, s.phase=.queueing size i ∧ i<s.fbs.length := by
  cases hphase : s.phase with
  | queueing size i =>
    simp only [Possible,hphase] at h
    exact ⟨size,i,rfl,h⟩
  | idle => simp only [Possible,hphase] at h
  | queued size => simp only [Possible,hphase] at h

/-- The main thread leaves the list at its end. -/
theorem possible_leaveQueueing (h : Possible s .leaveQueueing) :
    ∃ size i, s.phase=.queueing size i ∧ s.fbs.length ≤ i := by
  cases hphase : s.phase with
  | queueing size i =>
    simp only [Possible,hphase] at h
    exact ⟨size,i,rfl,h⟩
  | idle => simp only [Possible,hphase] at h
  | queued size => simp only [Possible,hphase] at h

/-- The main framebuffer is resized after the list. -/
theorem possible_resizeMain {texture : Bool} {block : Option (ℕ → FbPixel)}
    (h : Possible s (.resizeMain texture block)) : ∃ size, s.phase=.queued size := by
  cases hphase : s.phase with
  | queued size => exact ⟨size,rfl⟩
  | idle => simp only [Possible,hphase] at h
  | queueing size i => simp only [Possible,hphase] at h

/-- An entry is queued, or an error leaves the queues alone. -/
theorem workqueueEnqueue_cases (workqueues : ℕ) (queues : ℕ → List ResizeWork) (numaNode : ℕ)
    (work : ResizeWork) (entry : Bool) :
    (∃ e, e≠0 ∧ workqueueEnqueue workqueues queues numaNode work entry=(e,queues)) ∨
      workqueueEnqueue workqueues queues numaNode work entry=
        (0,fun q => if q=numaNode then queues q++[work] else queues q) := by
  unfold workqueueEnqueue
  split
  · exact Or.inl ⟨-EINVAL,by decide,rfl⟩
  · split
    · exact Or.inr rfl
    · exact Or.inl ⟨-ENOMEM,by decide,rfl⟩

/-- A round of the loop of `resize_cb` queues an entry and goes on, or leaves
`sdl_update`; then every framebuffer may have missed the resize. -/
theorem serverQueueResize_cases (setup : Setup) (s : Server) (size : FbSize) (i : ℕ) (fb : Fb)
    (priv entry : Bool) :
    (serverQueueResize setup s size i fb priv entry).2=
        {s with phase := .idle, missed := fun _ => true} ∨
      (serverQueueResize setup s size i fb priv entry).2={s with
        queues := fun q => if q=fb.numaNode then s.queues q++[⟨i,size⟩] else s.queues q
        phase := .queueing size (i+1)
        missed := fun k => if k=i then false else s.missed k} := by
  unfold serverQueueResize
  cases priv with
  | false => exact Or.inl rfl
  | true =>
    simp only [if_true]
    rcases workqueueEnqueue_cases setup.workqueues s.queues fb.numaNode ⟨i,size⟩ entry with
      ⟨e,hne,he⟩ | he
    · rw [he,if_neg hne]
      exact Or.inl rfl
    · rw [he,if_pos rfl]
      exact Or.inr rfl

section Inversion

variable {s' : Server} {reply : ServerReply}

/-- The state after a command that does not abort. -/
theorem serverCommand_some {i : ℕ} {c : Command} (h : serverCommand setup s i c=some (reply,s')) :
    ∃ client fb live, s.clients[i]?=some client ∧ s.fbs[client.fb]?=some fb ∧ s'={s with
      fbs := s.fbs.set client.fb
        (exec ⟨setup.build,s.main,setup.socket i⟩ (client.enter fb) c).2.fb
      clients := s.clients.set i ⟨client.fb,
        (exec ⟨setup.build,s.main,setup.socket i⟩ (client.enter fb) c).2,live⟩
      drawn := s.drawn++drawnBy (client.enter fb) c} := by
  unfold serverCommand at h
  split at h
  · cases h
  · rename_i client hclient
    split at h
    · cases h
    · rename_i fb hfb
      dsimp only at h
      split at h
      · cases h
      · cases h
        exact ⟨client,fb,_,hclient,hfb,rfl⟩

/-- A coalesce leaves sizes and nodes alone. -/
theorem coalesce_cases {rand : Rand} (h : serverStep setup s (.coalesce rand)=some (reply,s')) :
    ∃ out : CoalesceReport, shape out.fb=shape s.main ∧ out.fbs.map shape=s.fbs.map shape ∧
      s'={s with main := out.fb, fbs := out.fbs, drawn := [], joined := false} := by
  obtain ⟨out,hrun,hfb,hfbs⟩ := fbCoalesce_shape setup.build rand s.main s.fbs
  simp only [serverStep,hrun,Option.map_some,Option.some.injEq,Prod.mk.injEq] at h
  exact ⟨out,hfb,hfbs,h.2.symm⟩

/-- A round of the loop of `resize_cb`. -/
theorem queueResize_cases {priv entry : Bool}
    (h : serverStep setup s (.queueResize priv entry)=some (reply,s')) :
    ∃ size i fb, s.phase=.queueing size i ∧ s.fbs[i]?=some fb ∧
      s'=(serverQueueResize setup s size i fb priv entry).2 := by
  simp only [serverStep] at h
  split at h
  · rename_i size i hphase
    split at h
    · cases h
    · rename_i fb hfb
      exact ⟨size,i,fb,hphase,hfb,(congrArg Prod.snd (Option.some.inj h)).symm⟩
  · cases h

/-- The end of that loop. -/
theorem leaveQueueing_cases (h : serverStep setup s .leaveQueueing=some (reply,s')) :
    ∃ size i, s.phase=.queueing size i ∧ s'={s with phase := .queued size} := by
  simp only [serverStep] at h
  split at h
  · rename_i size i hphase
    exact ⟨size,i,hphase,(congrArg Prod.snd (Option.some.inj h)).symm⟩
  · cases h

/-- The resize of the main framebuffer. -/
theorem resizeMain_cases {texture : Bool} {block : Option (ℕ → FbPixel)}
    (h : serverStep setup s (.resizeMain texture block)=some (reply,s')) :
    ∃ size, s.phase=.queued size ∧ s'=(serverResizeMain s size texture block).2 := by
  simp only [serverStep] at h
  split at h
  · rename_i size hphase
    exact ⟨size,hphase,(congrArg Prod.snd (Option.some.inj h)).symm⟩
  · cases h

/-- A worker handles the first entry of its queue. -/
theorem work_cases {queue : ℕ} {block : Option (ℕ → FbPixel)}
    (h : serverStep setup s (.work queue block)=some (reply,s')) :
    ∃ work rest fb, s.queues queue=work::rest ∧ s.fbs[work.fb]?=some fb ∧
      s'=(serverWork s queue work rest fb block).2 := by
  simp only [serverStep] at h
  split at h
  · cases h
  · rename_i work rest hqueue
    split at h
    · cases h
    · rename_i fb hfb
      exact ⟨work,rest,fb,hqueue,hfb,(congrArg Prod.snd (Option.some.inj h)).symm⟩

end Inversion

/-- A command aborts the server exactly when it is a get inside the
framebuffer of the connection and outside the main one. -/
theorem serverCommand_none_iff {i : ℕ} {client : Client} {fb : Fb}
    (hclient : s.clients[i]?=some client) (hfb : s.fbs[client.fb]?=some fb) {c : Command} :
    serverCommand setup s i c=none ↔
      ∃ x y, c=.get x y ∧
        fb.size.Contains (x+client.session.offsetX) (y+client.session.offsetY) ∧
        ¬s.main.size.Contains (x+client.session.offsetX) (y+client.session.offsetY) := by
  refine Iff.trans ?_ (exec_aborted_iff ⟨setup.build,s.main,setup.socket i⟩ (client.enter fb) c)
  rw [serverCommand,hclient]
  dsimp only
  rw [hfb]
  dsimp only
  split
  · rename_i site hsite
    constructor
    · intro _
      exact ⟨site,hsite⟩
    · intro _
      rfl
  · rename_i hne
    constructor
    · intro hn
      cases hn
    · rintro ⟨site,hsite⟩
      exact absurd hsite (hne site)

/-- A framebuffer that `fb_alloc` returns has the size and the node. -/
theorem fbAlloc_shape {host : Host} {node : Option UInt32} {block : Option (ℕ → FbPixel)}
    {numaNode : ℕ} {size : FbSize} {fb : Fb} (h : fbAlloc host node block numaNode size=.ok fb) :
    shape fb=(size,numaNode) := by
  cases node with
  | none => cases h
  | some garbage =>
    cases block with
    | none => cases h
    | some heap =>
      cases h
      rfl

/-- The default features on a little-endian host with one work queue. -/
def plainSetup : Setup := ⟨(plainEnv 4 4).build,fun _ => takingSocket,1⟩

/-- An opaque black framebuffer. -/
def blackFb (width height : UInt32) : Fb :=
  ⟨⟨width,height⟩,(width*height).toNat,fun _ => ⟨0xff,0,0,0⟩,0,0⟩

/-- A client connects on the given node, with all allocations succeeding. -/
def arrival (numaNode : ℕ) : ServerEvent :=
  .connect numaNode (some 0) (some fun _ => ⟨0,0,0,0⟩) numaNode

end Shoreline.ServerRun
