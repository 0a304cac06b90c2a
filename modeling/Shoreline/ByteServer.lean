import Shoreline.CommandLoop
import Shoreline.Library.Simulation
import Shoreline.Resizing

/-!
# The server on bytes

The server below its commands: every connection has a ring of its own that is
filled by reads of any length and emptied by rounds of the command loop. The
rounds of all connections, the screen loop, resizing and the workers come in
any order. Every such run is a run of the server on commands, in which a round
is the command that the scan of the connection's unread bytes finds.
-/

namespace Shoreline.ByteServer

open CircularMemory RingBuffer RingContent NetToken NetConnection TokenScan CommandScan CommandGrammar
open CommandLoop Coordinates Framebuffer Coalesce StateMachine Simulation ServerRun Resizing

/-- Where a connection thread is in its two loops. -/
inductive WireState where
  | reading
  | parsing
  | left (ending : LoopEnd)
  deriving DecidableEq

/-- The receiving side of a connection. -/
structure Wire where
  /-- The ring. -/
  reader : Reader
  /-- History: looks back at a byte the current command has not consumed. -/
  strayPeeks : ℕ
  /-- `thread->byte_count`. -/
  byteCount : UInt32
  /-- Where its thread is. -/
  state : WireState

/-- What does not change while the server runs. -/
structure ByteSetup extends Setup where
  /-- `net->ring_size`. -/
  ringSize : ℕ

/-- All threads, with what has been received. -/
structure ByteState where
  /-- What commands act on. -/
  server : Server
  /-- The receiving side of every connection. -/
  wires : List Wire

/-- One step of one thread: a new connection with its ring, what a connection
finds at the top of its receive loop, a round of its command loop, or a step
of the main thread or of a worker. -/
inductive ByteEvent where
  | connect (look : ℕ) (node : Option UInt32) (block : Option (ℕ → FbPixel)) (numaNode : ℕ)
      (data : Memory UInt8)
  | read (k : ℕ) (found : Recv)
  | round (k : ℕ)
  | other (e : ServerEvent)

/-- A wire together with the session of its connection. -/
def Wire.conn (w : Wire) (session : Session) : Conn := ⟨w.reader,w.strayPeeks,w.byteCount,session⟩

/-- The wire of a connection. -/
def wireOf (conn : Conn) (state : WireState) : Wire :=
  ⟨conn.reader,conn.strayPeeks,conn.byteCount,state⟩

/-- The wire of a connection that has just allocated its ring. -/
def newWire (size : ℕ) (data : Memory UInt8) : Wire := ⟨⟨⟨size,data,0,0⟩,0⟩,0,0,.reading⟩

/-- Where the thread is behind a round of the command loop. -/
def afterRound : CommandEnd → WireState
  | .done => .parsing
  | ending => if ending.leave=.reading then .reading else .left ending.leave

/-- Whether a connection can still send commands behind a round. -/
def keepsOn : CommandEnd → Bool
  | .sendFailed _ => false
  | _ => true

/-- The pixels that events drew. -/
def drewOf (events : List Event) : List (UInt32×UInt32) :=
  events.filterMap fun
    | .drew x y _ => some (x,y)
    | _ => none

/-- The environment of a connection. -/
def ByteSetup.env (setup : ByteSetup) (s : ByteState) (k : ℕ) : NetEnv :=
  ⟨setup.build,s.server.main,setup.socket k⟩

/-- The start of a connection thread up to its receive loop. -/
def byteConnect (setup : ByteSetup) (s : ByteState) (look : ℕ) (node : Option UInt32)
    (block : Option (ℕ → FbPixel)) (numaNode : ℕ) (data : Memory UInt8) : ByteState :=
  let out := serverConnect setup.toSetup s.server look node block numaNode
  match out.1 with
  | .code 0 => ⟨out.2,s.wires++[newWire setup.ringSize data]⟩
  | _ => {s with server := out.2}

/-- The top of the receive loop: shutdown, the end of the stream, or bytes that
are taken over into the ring. `none` is a failed assertion. -/
def byteRead (setup : ByteSetup) (s : ByteState) (k : ℕ) (found : Recv) : Option ByteState :=
  match s.wires[k]?,s.server.clients[k]? with
  | some w,some client =>
    match found with
    | .shutdown => some {s with wires := s.wires.set k {w with state := .left .shutdown}}
    | .closed => some {s with wires := s.wires.set k {w with state := .left .closedByPeer}}
    | .data bytes =>
      (netAcknowledge (setup.env s k) (w.conn client.session) bytes).map fun conn =>
        {s with wires := s.wires.set k (wireOf conn .parsing)}
  | _,_ => none

/-- What a round leaves behind. `none` is a failed assertion. -/
def storeRound (s : ByteState) (k : ℕ) (client : Client) (out : CommandEnd×Conn) :
    Option ByteState :=
  match out.1 with
  | .aborted _ => none
  | ending => some ⟨{s.server with
      fbs := s.server.fbs.set client.fb out.2.session.fb
      clients := s.server.clients.set k ⟨client.fb,out.2.session,keepsOn ending⟩
      drawn := s.server.drawn++drewOf (out.2.session.events.drop client.session.events.length)},
    s.wires.set k (wireOf out.2 (afterRound ending))⟩

/-- The test of the command loop and one round of it, on the framebuffers as
they are then. `none` is a failed assertion. -/
def byteRound (setup : ByteSetup) (s : ByteState) (k : ℕ) : Option ByteState :=
  match s.wires[k]?,s.server.clients[k]? with
  | some w,some client =>
    match s.server.fbs[client.fb]? with
    | none => none
    | some fb =>
      if ringAnyAvailable w.reader.ring then
        storeRound s k client (netIteration (setup.env s k) (w.conn (client.enter fb)))
      else some {s with wires := s.wires.set k {w with state := .reading}}
  | _,_ => none

/-- One step; `none` is a failed assertion. -/
def byteStep (setup : ByteSetup) : Step ByteEvent Unit ByteState
  | s,.connect look node block numaNode data =>
    some ((),byteConnect setup s look node block numaNode data)
  | s,.read k found => (byteRead setup s k found).map fun s => ((),s)
  | s,.round k => (byteRound setup s k).map fun s => ((),s)
  | s,.other e => (serverStep setup.toSetup s.server e).map fun out => ((),{s with server := out.2})

/-- A step of the main thread or of a worker. -/
def IsOther : ServerEvent → Prop
  | .connect _ _ _ _ => False
  | .command _ _ => False
  | _ => True

/-- The state of a connection's thread. -/
def wireState (s : ByteState) (k : ℕ) : Option WireState := s.wires[k]?.map Wire.state

/-- A read returns at least one byte and no more than it was offered. -/
def RecvFits (w : Wire) : Recv → Prop
  | .data bytes => 0<bytes.length ∧ bytes.length≤ringFreeSpaceContig w.reader.ring
  | _ => True

/-- The steps that threads can take: a connection reads or parses, whichever
it is at, and the others do what they do in the server on commands. -/
def BytePossible (s : ByteState) : ByteEvent → Prop
  | .connect _ _ _ _ _ => True
  | .read k found => wireState s k=some .reading ∧ ∀ w∈s.wires[k]?,RecvFits w found
  | .round k => wireState s k=some .parsing
  | .other e => IsOther e ∧ Possible s.server e

/-- The command that a connection's next round is: the one found in front of
its unread bytes, and one without effect where nothing complete is found. -/
def nextCommand (build : Build) (w : Wire) : Command :=
  match scan build (content w.reader.ring) with
  | .item c _ => c
  | _ => .unknown

/-- The steps of the server on commands that a step stands for: none for a
read, and for a round the command that it executes. -/
def commandsOf (setup : ByteSetup) (s : ByteState) : ByteEvent → List ServerEvent
  | .connect look node block numaNode _ => [.connect look node block numaNode]
  | .read _ _ => []
  | .round k =>
    match s.wires[k]? with
    | none => []
    | some w =>
      if ringAnyAvailable w.reader.ring then [.command k (nextCommand setup.build w)] else []
  | .other e => [e]

/-- What holds in every state. -/
structure ByteInv (s : ByteState) : Prop where
  /-- What holds of the server on commands. -/
  server : ResizeInv s.server
  /-- Every connection has a receiving side. -/
  length : s.wires.length=s.server.clients.length
  /-- Its ring is valid. -/
  ring : ∀ w∈s.wires,RingInv w.reader.ring
  /-- Nothing was read behind the received bytes. -/
  overruns : ∀ w∈s.wires,w.reader.overruns=0
  /-- Nothing was looked back at before the current command. -/
  strayPeeks : ∀ w∈s.wires,w.strayPeeks=0
  /-- A connection that has not left can send commands. -/
  live : ∀ (k : ℕ) w client, s.wires[k]?=some w → s.server.clients[k]?=some client →
    (∀ ending, w.state≠.left ending) → client.live=true

/-- The events of a command drew what the command draws. -/
theorem exec_drew (env : NetEnv) (session : Session) (c : Command) :
    drewOf ((exec env session c).2.events.drop session.events.length)=drawnBy session c := by
  have hnew : ∀ events : List Event, (session.events++events).drop session.events.length=events :=
    fun events => List.drop_left
  cases c with
  | unknown => rw [exec,List.drop_length]; rfl
  | get x y =>
    dsimp only [exec,netGetPixel,drawnBy]
    split
    · split
      · rw [hnew]; rfl
      · split <;> rw [netReply,List.append_assoc,hnew] <;> rfl
    · rw [hnew]; rfl
  | set x y digits =>
    dsimp only [exec,drawnBy]
    by_cases hin : session.fb.size.Contains (x+session.offsetX) (y+session.offsetY)
    · obtain ⟨out,fb,hdraw,_⟩ := netDraw_inside env (colour env.build.host digits) hin
      rw [hdraw,if_pos hin,List.append_assoc,hnew]
      rfl
    · rw [netDraw_outside env _ hin,if_neg hin,hnew]
      rfl
  | size =>
    dsimp only [exec,drawnBy]
    split <;> rw [netReply,hnew] <;> rfl
  | offset x y => rw [exec,hnew]; rfl

/-- A round executes the command that is next, or does nothing. -/
theorem netIteration_next (env : NetEnv) {w : Wire} (hr : RingInv w.reader.ring) (session : Session) :
    ∃ ending, ∃ m≤ringAvailable w.reader.ring,
      netIteration env (w.conn session)=
        (ending,after (w.conn session) m (exec env session (nextCommand env.build w)).2) ∧
      (ending=(exec env session (nextCommand env.build w)).1 ∨
        (ending=.recv ∨ ending=.misbehaving) ∧ (exec env session (nextCommand env.build w)).1=.done) := by
  have hr' : RingInv (w.conn session).reader.ring := hr
  have hcontent : content (w.conn session).reader.ring=content w.reader.ring := rfl
  unfold nextCommand
  cases hscan : scan env.build (content w.reader.ring) with
  | wait =>
    refine ⟨.recv,0,Nat.zero_le _,?_,Or.inr ⟨Or.inl rfl,rfl⟩⟩
    rw [netIteration_wait env hr' (hcontent ▸ hscan)]
    exact congrArg _ (after_zero hr').symm
  | reject =>
    refine ⟨.misbehaving,0,Nat.zero_le _,?_,Or.inr ⟨Or.inr rfl,rfl⟩⟩
    rw [netIteration_reject env hr' (hcontent ▸ hscan)]
    exact congrArg _ (after_zero hr').symm
  | item c n =>
    obtain ⟨_,m,hm,_,hit,_⟩ := netIteration_item env hr' (hcontent ▸ hscan)
    exact ⟨_,m,hm,hit,Or.inl rfl⟩

variable {setup : ByteSetup} {s s' : ByteState}

/-- What a round that finds bytes does to the server on commands is what its
command does there, and its ring only loses bytes. -/
theorem byteRound_command {k : ℕ} {w : Wire} (hw : s.wires[k]?=some w) {client : Client}
    (hclient : s.server.clients[k]?=some client) {fb : Fb}
    (hfb : s.server.fbs[client.fb]?=some fb) (hr : RingInv w.reader.ring)
    (hany : ringAnyAvailable w.reader.ring=true) :
    (byteRound setup s k=none ∧
      serverCommand setup.toSetup s.server k (nextCommand setup.build w)=none) ∨
    ∃ s' reply state, ∃ m≤ringAvailable w.reader.ring, byteRound setup s k=some s' ∧
      serverCommand setup.toSetup s.server k (nextCommand setup.build w)=some (reply,s'.server) ∧
      s'.wires=s.wires.set k {w with reader := w.reader.skip m, state := state} ∧
      ((∀ ending, state≠.left ending) → ∀ client', s'.server.clients[k]?=some client' →
        client'.live=true) := by
  obtain ⟨ending,m,hm,hit,hcase⟩ :=
    netIteration_next (setup.env s k) hr (client.enter fb)
  change ending=(exec _ _ (nextCommand setup.build w)).1 ∨
    _ ∧ (exec _ _ (nextCommand setup.build w)).1=_ at hcase
  have hlt : k<s.server.clients.length := (List.getElem?_eq_some_iff.mp hclient).1
  have hdrew := exec_drew (setup.env s k) (client.enter fb) (nextCommand setup.build w)
  have hround : byteRound setup s k=storeRound s k client (ending,after (w.conn (client.enter fb)) m
      (exec (setup.env s k) (client.enter fb) (nextCommand setup.build w)).2) := by
    rw [byteRound,hw,hclient]
    dsimp only
    rw [hfb]
    dsimp only
    rw [if_pos hany,hit]
    rfl
  have hlive : ∀ session keeps,keeps=true →
      ∀ client'∈(s.server.clients.set k ⟨client.fb,session,keeps⟩)[k]?,client'.live=true := by
    rintro session keeps rfl client' hget
    rw [List.getElem?_set_self hlt] at hget
    cases hget
    rfl
  generalize hout : exec (setup.env s k) (client.enter fb) (nextCommand setup.build w)=out
    at hround hcase hdrew
  have hcommand : serverCommand setup.toSetup s.server k (nextCommand setup.build w)=
      match out.1 with
      | .aborted _ => none
      | ended => some (.ended ended,{s.server with
          fbs := s.server.fbs.set client.fb out.2.fb
          clients := s.server.clients.set k ⟨client.fb,out.2,decide (ended=.done)⟩
          drawn := s.server.drawn++drawnBy (client.enter fb) (nextCommand setup.build w)}) := by
    rw [serverCommand,hclient]
    dsimp only
    rw [hfb,←hout]
    rfl
  rw [hround,hcommand,←hdrew]
  obtain ⟨ended,session⟩ := out
  dsimp only at hcase ⊢
  rcases hcase with rfl | ⟨hback,rfl⟩
  · -- the round executed a command
    have hend := exec_end (setup.env s k) (client.enter fb) (nextCommand setup.build w)
    rw [hout] at hend
    rcases hend with rfl | ⟨err,rfl⟩ | ⟨site,_,rfl⟩
    · exact Or.inr ⟨_,_,_,m,hm,rfl,rfl,rfl,fun _ => hlive _ _ rfl⟩
    · exact Or.inr ⟨_,_,_,m,hm,rfl,rfl,rfl,fun hne => absurd rfl (hne (.sendFailed err))⟩
    · exact Or.inl ⟨rfl,rfl⟩
  · -- the round went back to reading, or left
    rcases hback with rfl | rfl
    · exact Or.inr ⟨_,_,_,m,hm,rfl,rfl,rfl,fun _ => hlive _ _ rfl⟩
    · exact Or.inr ⟨_,_,_,m,hm,rfl,rfl,rfl,fun hne => absurd rfl (hne .misbehaving)⟩

/-- What holds is kept when one wire changes. -/
theorem ByteInv.set (h : ByteInv s) {k : ℕ} {w w' : Wire} (hw : s.wires[k]?=some w)
    (hwires : s'.wires=s.wires.set k w') (hserver : ResizeInv s'.server)
    (hlength : s'.server.clients.length=s.server.clients.length)
    (hothers : ∀ j≠k, s'.server.clients[j]?=s.server.clients[j]?)
    (hring : RingInv w'.reader.ring) (hoverruns : w'.reader.overruns=w.reader.overruns)
    (hstray : w'.strayPeeks=w.strayPeeks)
    (hlive : (∀ ending, w'.state≠.left ending) →
      ∀ client, s'.server.clients[k]?=some client → client.live=true) : ByteInv s' where
  server := hserver
  length := by rw [hwires,List.length_set,h.length,hlength]
  ring v hv := by
    rw [hwires] at hv
    rcases List.mem_or_eq_of_mem_set hv with hold | rfl
    · exact h.ring v hold
    · exact hring
  overruns v hv := by
    rw [hwires] at hv
    rcases List.mem_or_eq_of_mem_set hv with hold | rfl
    · exact h.overruns v hold
    · exact hoverruns.trans (h.overruns w (List.mem_of_getElem? hw))
  strayPeeks v hv := by
    rw [hwires] at hv
    rcases List.mem_or_eq_of_mem_set hv with hold | rfl
    · exact h.strayPeeks v hold
    · exact hstray.trans (h.strayPeeks w (List.mem_of_getElem? hw))
  live j v client hv hclient hstays := by
    rw [hwires] at hv
    by_cases hj : j=k
    · rw [hj,List.getElem?_set_self (List.getElem?_eq_some_iff.mp hw).1] at hv
      cases hv
      rw [hj] at hclient
      exact hlive hstays client hclient
    · rw [List.getElem?_set_ne (Ne.symm hj)] at hv
      rw [hothers j hj] at hclient
      exact h.live j v client hv hclient hstays

/-- A connection that reads or parses has its wire, its session and its
framebuffer. -/
theorem ByteInv.at_wire (h : ByteInv s) {k : ℕ} {state : WireState} (hk : wireState s k=some state) :
    ∃ w client fb, s.wires[k]?=some w ∧ w.state=state ∧ s.server.clients[k]?=some client ∧
      s.server.fbs[client.fb]?=some fb ∧ RingInv w.reader.ring := by
  obtain ⟨w,hw,hstate⟩ := Option.map_eq_some_iff.mp hk
  have hlt := (List.getElem?_eq_some_iff.mp hw).1
  rw [h.length] at hlt
  have hclient := List.getElem?_eq_getElem hlt
  obtain ⟨fb,hfb⟩ := h.server.client_fb hclient
  exact ⟨w,_,fb,hw,hstate,hclient,hfb,h.ring w (List.mem_of_getElem? hw)⟩

/-- What a read does: only the wire changes, and it stays valid. -/
theorem byteRead_spec (h : ByteInv s) {k : ℕ} {found : Recv} (hp : BytePossible s (.read k found)) :
    ∃ s', byteRead setup s k found=some s' ∧ s'.server=s.server ∧ ByteInv s' := by
  obtain ⟨hreading,hfits⟩ := hp
  obtain ⟨w,client,fb,hw,hstate,hclient,_,hr⟩ := h.at_wire hreading
  have hlive : client.live=true :=
    h.live k w client hw hclient fun ending hc => by rw [hstate] at hc; cases hc
  have hlive' : ∀ client', s.server.clients[k]?=some client' → client'.live=true := by
    intro client' hget
    rw [hclient] at hget
    cases hget
    exact hlive
  rw [byteRead,hw,hclient]
  cases found with
  | shutdown =>
    exact ⟨_,rfl,rfl,h.set hw rfl h.server rfl (fun _ _ => rfl) hr rfl rfl fun _ => hlive'⟩
  | closed =>
    exact ⟨_,rfl,rfl,h.set hw rfl h.server rfl (fun _ _ => rfl) hr rfl rfl fun _ => hlive'⟩
  | data bytes =>
    have hlen : bytes.length≤ringFreeSpaceContig w.reader.ring := (hfits w hw).2
    obtain ⟨conn,hconn,hrec⟩ := @netAcknowledge_received (setup.env s k) (w.conn client.session) hr
      bytes hlen
    refine ⟨{s with wires := s.wires.set k (wireOf conn .parsing)},?_,rfl,?_⟩
    · dsimp only
      rw [hconn,Option.map_some]
    · exact h.set hw rfl h.server rfl (fun _ _ => rfl) hrec.appends.inv hrec.overruns
        hrec.strayPeeks fun _ => hlive'

/-- A new connection is appended, or its framebuffer could not be allocated. -/
theorem serverConnect_cases (setup : Setup) (s : Server) (look : ℕ) (node : Option UInt32)
    (block : Option (ℕ → FbPixel)) (numaNode : ℕ) :
    (serverConnect setup s look node block numaNode).1=.code 0 ∧
        (∃ client, client.live=true ∧
          (serverConnect setup s look node block numaNode).2.clients=s.clients++[client]) ∨
      serverConnect setup s look node block numaNode=(.code (-ENOMEM),s) := by
  unfold serverConnect
  cases fbGetFbOnNode s.fbs look with
  | some k => exact Or.inl ⟨rfl,_,rfl,rfl⟩
  | none =>
    cases node with
    | none => exact Or.inr rfl
    | some garbage =>
      cases block with
      | none => exact Or.inr rfl
      | some heap => exact Or.inl ⟨rfl,_,rfl,rfl⟩

/-- A connection keeps what holds. -/
theorem ByteInv.connect (h : ByteInv s) (hring : 0<setup.ringSize) (look : ℕ) (node : Option UInt32)
    (block : Option (ℕ → FbPixel)) (numaNode : ℕ) (data : Memory UInt8) :
    (byteConnect setup s look node block numaNode data).server=
        (serverConnect setup.toSetup s.server look node block numaNode).2 ∧
      ByteInv (byteConnect setup s look node block numaNode data) := by
  have hserver := @ResizeInv.connect setup.toSetup _ h.server look node block numaNode
  rcases serverConnect_cases setup.toSetup s.server look node block numaNode with
    ⟨hcode,client,hlive,hclients⟩ | hfailed
  · have hsize : (0 : ℤ)<setup.ringSize := by omega
    have hnew : byteConnect setup s look node block numaNode data=
        ⟨(serverConnect setup.toSetup s.server look node block numaNode).2,
          s.wires++[newWire setup.ringSize data]⟩ := by
      rw [byteConnect,hcode]
      rfl
    rw [hnew]
    have hmem : ∀ w∈s.wires++[newWire setup.ringSize data],
        w∈s.wires ∨ w=newWire setup.ringSize data := by
      simp only [List.mem_append,List.mem_singleton,imp_self,implies_true]
    refine ⟨rfl,hserver,?_,?_,?_,?_,?_⟩
    · dsimp only
      rw [hclients,List.length_append,List.length_append,h.length]
      rfl
    · intro w hw
      rcases hmem w hw with hw | rfl
      · exact h.ring w hw
      · exact ⟨le_refl _,hsize,le_refl _,hsize⟩
    · intro w hw
      rcases hmem w hw with hw | rfl
      · exact h.overruns w hw
      · rfl
    · intro w hw
      rcases hmem w hw with hw | rfl
      · exact h.strayPeeks w hw
      · rfl
    · intro k w client' hw hclient' hstays
      dsimp only at hw hclient'
      rw [hclients] at hclient'
      by_cases hk : k<s.wires.length
      · rw [List.getElem?_append_left hk] at hw
        rw [List.getElem?_append_left (by rw [←h.length]; exact hk)] at hclient'
        exact h.live k w client' hw hclient' hstays
      · rw [List.getElem?_append_right (by rw [←h.length]; omega)] at hclient'
        rw [List.mem_singleton.mp (List.mem_of_getElem? hclient')]
        exact hlive
  · rw [byteConnect,hfailed]
    exact ⟨rfl,h⟩

/-- Steps of the main thread and of workers leave the connections alone. -/
theorem clients_of_other {setup : Setup} {s s' : Server} {e : ServerEvent} (hother : IsOther e)
    {reply : ServerReply} (hstep : serverStep setup s e=some (reply,s')) : s'.clients=s.clients := by
  cases e with
  | connect => exact hother.elim
  | command => exact hother.elim
  | coalesce rand =>
    obtain ⟨out,_,_,rfl⟩ := coalesce_cases hstep
    rfl
  | pollResize size =>
    cases hstep
    rfl
  | queueResize priv entry =>
    obtain ⟨size,i,fb,_,_,rfl⟩ := queueResize_cases hstep
    rcases serverQueueResize_cases setup s size i fb priv entry with he | he <;> rw [he]
  | leaveQueueing =>
    obtain ⟨size,i,_,rfl⟩ := leaveQueueing_cases hstep
    rfl
  | resizeMain texture block =>
    obtain ⟨size,_,rfl⟩ := resizeMain_cases hstep
    unfold serverResizeMain
    split <;> rfl
  | work queue block =>
    obtain ⟨work,rest,fb,_,_,rfl⟩ := work_cases hstep
    rfl

/-- The server on commands of a state with bytes. -/
def Commands (s : ByteState) (t : Server) : Prop := ByteInv s ∧ s.server=t

/-- Without unread bytes a round only goes back to reading. -/
theorem byteRound_empty {k : ℕ} {w : Wire} (hw : s.wires[k]?=some w) {client : Client}
    (hclient : s.server.clients[k]?=some client) {fb : Fb}
    (hfb : s.server.fbs[client.fb]?=some fb) (hany : ringAnyAvailable w.reader.ring=false) :
    byteRound setup s k=some {s with wires := s.wires.set k {w with state := .reading}} := by
  rw [byteRound,hw,hclient]
  dsimp only
  rw [hfb]
  dsimp only
  rw [hany,if_neg Bool.false_ne_true]

/-- A round stands for the command that it executes. -/
theorem byteRound_spec (h : ByteInv s) {k : ℕ} (hp : BytePossible s (.round k)) :
    Admitted Possible (serverStep setup.toSetup) s.server (commandsOf setup s (.round k)) ∧
      match byteRound setup s k with
      | none => run (serverStep setup.toSetup) s.server (commandsOf setup s (.round k))=none
      | some s' => ByteInv s' ∧ ∃ replies, run (serverStep setup.toSetup) s.server
          (commandsOf setup s (.round k))=some (replies,s'.server) := by
  obtain ⟨w,client,fb,hw,hstate,hclient,hfb,hr⟩ := h.at_wire hp
  have hlive : client.live=true :=
    h.live k w client hw hclient fun ending hc => by rw [hstate] at hc; cases hc
  rw [commandsOf,hw]
  dsimp only
  cases hany : ringAnyAvailable w.reader.ring with
  | false =>
    rw [if_neg Bool.false_ne_true,byteRound_empty hw hclient hfb hany]
    refine ⟨trivial,h.set hw rfl h.server rfl (fun _ _ => rfl) hr rfl rfl fun _ client' hget => ?_,
      [],rfl⟩
    rw [hclient] at hget
    cases hget
    exact hlive
  | true =>
    have hpossible : Possible s.server (.command k (nextCommand setup.build w)) := by
      rw [Possible,hclient]
      exact hlive
    rw [if_pos rfl]
    refine ⟨⟨hpossible,fun _ _ _ => trivial⟩,?_⟩
    rcases @byteRound_command setup s k w hw client hclient fb hfb hr hany with
      ⟨hround,hcommand⟩ | ⟨s',reply,state,m,hm,hround,hcommand,hwires,hkeeps⟩
    · rw [hround,run]
      dsimp only
      rw [serverStep,hcommand]
    · rw [hround]
      obtain ⟨client',fb',_,_,_,hs'⟩ := serverCommand_some hcommand
      refine ⟨h.set hw hwires (resizeInv_step h.server hpossible hcommand) ?_ ?_ (skip_inv hr hm) rfl
        rfl hkeeps,[reply],?_⟩
      · rw [hs']
        exact List.length_set
      · intro j hj
        rw [hs']
        exact List.getElem?_set_ne (Ne.symm hj)
      · rw [run,serverStep,hcommand]
        rfl

/-- Every step stands for steps of the server on commands. -/
theorem byteStep_simulates (hring : 0<setup.ringSize) :
    Simulates BytePossible (byteStep setup) Possible (serverStep setup.toSetup) Commands
      (commandsOf setup) where
  admitted s t e hrel hp := by
    obtain ⟨h,rfl⟩ := hrel
    cases e with
    | connect look node block numaNode data => exact ⟨trivial,fun _ _ _ => trivial⟩
    | read k found => exact trivial
    | round k => exact (byteRound_spec h hp).1
    | other e => exact ⟨hp.2,fun _ _ _ => trivial⟩
  follows s t e r s' hrel hp hstep := by
    obtain ⟨h,rfl⟩ := hrel
    cases e with
    | connect look node block numaNode data =>
      cases hstep
      obtain ⟨hserver,hinv⟩ := h.connect hring look node block numaNode data
      exact ⟨[_],_,rfl,hinv,hserver⟩
    | read k found =>
      obtain ⟨s'',hread,hserver,hinv⟩ := @byteRead_spec setup s h k found hp
      rw [byteStep,hread] at hstep
      cases hstep
      exact ⟨[],_,rfl,hinv,hserver⟩
    | round k =>
      have hspec := (@byteRound_spec setup s h k hp).2
      rw [byteStep] at hstep
      obtain ⟨s'',hround,hout⟩ := Option.map_eq_some_iff.mp hstep
      cases hout
      rw [hround] at hspec
      obtain ⟨hinv,replies,hrun⟩ := hspec
      exact ⟨replies,_,hrun,hinv,rfl⟩
    | other e =>
      rw [byteStep] at hstep
      obtain ⟨out,hother,hout⟩ := Option.map_eq_some_iff.mp hstep
      cases hout
      have hclients := clients_of_other hp.1 hother
      refine ⟨[out.1],out.2,?_,⟨resizeInv_step h.server hp.2 hother,?_,h.ring,h.overruns,
        h.strayPeeks,?_⟩,rfl⟩
      · rw [commandsOf,run,hother]
        rfl
      · exact h.length.trans (congrArg List.length hclients).symm
      · intro k w client hw hclient hstays
        dsimp only at hclient
        rw [hclients] at hclient
        exact h.live k w client hw hclient hstays
  stuck s t e hrel hp hstep := by
    obtain ⟨h,rfl⟩ := hrel
    cases e with
    | connect look node block numaNode data => cases hstep
    | read k found =>
      obtain ⟨s'',hread,_⟩ := @byteRead_spec setup s h k found hp
      rw [byteStep,hread] at hstep
      cases hstep
    | round k =>
      have hspec := (@byteRound_spec setup s h k hp).2
      rw [byteStep,Option.map_eq_none_iff] at hstep
      rw [hstep] at hspec
      exact hspec
    | other e =>
      rw [byteStep,Option.map_eq_none_iff] at hstep
      rw [commandsOf,run,hstep]

/-- A server that listens, before its first connection. -/
def listening (main : Fb) : ByteState := ⟨started main,[]⟩

/-- There what holds in every state does. -/
theorem byteInv_listening (main : Fb) : ByteInv (listening main) where
  server := resizeInv_started main
  length := rfl
  ring _ h := absurd h List.not_mem_nil
  overruns _ h := absurd h List.not_mem_nil
  strayPeeks _ h := absurd h List.not_mem_nil
  live _ _ _ h := by cases h

/-- Every run on bytes, with the rounds of all connections in any order, is a
run on commands that goes through as far: it fails an assertion only where a
command does, and otherwise every ring stays valid and nothing is read behind
what was received. -/
theorem bytes_refine_commands (setup : ByteSetup) (hring : 0<setup.ringSize) (main : Fb)
    {events : List ByteEvent} (hadm : Admitted BytePossible (byteStep setup) (listening main) events) :
    (run (byteStep setup) (listening main) events=none →
      run (serverStep setup.toSetup) (started main)
        (trace (byteStep setup) (commandsOf setup) (listening main) events)=none) ∧
    ∀ replies s, run (byteStep setup) (listening main) events=some (replies,s) →
      (Admitted Possible (serverStep setup.toSetup) (started main)
        (trace (byteStep setup) (commandsOf setup) (listening main) events) ∧
      ∃ replies', run (serverStep setup.toSetup) (started main)
        (trace (byteStep setup) (commandsOf setup) (listening main) events)=
          some (replies',s.server)) ∧
      ∀ w∈s.wires,RingInv w.reader.ring ∧ w.reader.overruns=0 ∧ w.strayPeeks=0 := by
  have hstart : Commands (listening main) (started main) := ⟨byteInv_listening main,rfl⟩
  have hsim := @byteStep_simulates setup hring
  refine ⟨hsim.run_stuck hstart hadm,fun replies s hrun => ?_⟩
  obtain ⟨hadm',replies',t,hrun',hinv,rfl⟩ := hsim.run hstart hadm hrun
  exact ⟨⟨hadm',replies',hrun'⟩,fun w hw => ⟨hinv.ring w hw,hinv.overruns w hw,hinv.strayPeeks w hw⟩⟩

/-- A small ring on the default features. -/
def smallSetup : ByteSetup := ⟨plainSetup,16⟩

/-- `PX 1 1 `, then `ff0000` and a line end, with a coalesce in between. -/
def smallEvents : List ByteEvent :=
  [.connect 0 (some 0) (some fun _ => ⟨0,0,0,0⟩) 0 fun _ => 0,
    .read 0 (.data (verbPx++[0x20,0x31,0x20,0x31,0x20])),.round 0,.other (.coalesce zeroRand),
    .read 0 (.data [0x66,0x66,0x30,0x30,0x30,0x30,0x0a]),.round 0,.round 0]

instance (w : Wire) : ∀ found, Decidable (RecvFits w found)
  | .shutdown | .closed => isTrue trivial
  | .data _ => inferInstanceAs (Decidable (_ ∧ _))

instance : ∀ e, Decidable (IsOther e)
  | .connect _ _ _ _ | .command _ _ => isFalse not_false
  | .coalesce _ | .pollResize _ | .queueResize _ _ | .leaveQueueing | .resizeMain _ _ | .work _ _ =>
    isTrue trivial

instance (s : ByteState) : ∀ e, Decidable (BytePossible s e)
  | .connect _ _ _ _ _ => isTrue trivial
  | .read k found => inferInstanceAs
    (Decidable (wireState s k=some .reading ∧ ∀ w∈s.wires[k]?,RecvFits w found))
  | .round _ => inferInstanceAs (Decidable (_=_))
  | .other _ => inferInstanceAs (Decidable (_ ∧ _))

/-- The steps of that run are possible. -/
theorem smallEvents_admitted :
    Admitted BytePossible (byteStep smallSetup) (listening (blackFb 4 4)) smallEvents := by
  decide +kernel

/-- It goes through, and is a run on commands. -/
theorem bytes_refine_commands_small :
    ∃ replies s replies', run (byteStep smallSetup) (listening (blackFb 4 4)) smallEvents=
        some (replies,s) ∧
      run (serverStep smallSetup.toSetup) (started (blackFb 4 4))
        (trace (byteStep smallSetup) (commandsOf smallSetup) (listening (blackFb 4 4)) smallEvents)=
          some (replies',s.server) := by
  have hsome : (run (byteStep smallSetup) (listening (blackFb 4 4)) smallEvents).isSome=true := by
    decide +kernel
  obtain ⟨⟨replies,s⟩,hrun⟩ := Option.isSome_iff_exists.mp hsome
  obtain ⟨⟨_,replies',hrun'⟩,_⟩ := (bytes_refine_commands smallSetup (by decide) (blackFb 4 4)
    smallEvents_admitted).2 replies s hrun
  exact ⟨replies,s,replies',hrun,hrun'⟩

/-- No resize is under way, and none was ever missed. -/
structure Unresized (s : Server) : Prop where
  /-- The main thread handles no resize event. -/
  idle : s.phase=.idle
  /-- No entry waits. -/
  queues : ∀ queue, s.queues queue=[]
  /-- No framebuffer missed a resize. -/
  missed : ∀ k, s.missed k=false

/-- Every framebuffer is settled then. -/
theorem Unresized.settled {s : Server} (h : Unresized s) (k : ℕ) : ¬Unsettled s k := by
  rintro (hphase | ⟨queue,work,hwork,_⟩ | hmissed)
  · exact hphase h.idle
  · rw [h.queues queue] at hwork
    exact absurd hwork List.not_mem_nil
  · rw [h.missed k] at hmissed
    cases hmissed

/-- Without a resize event nothing is resized. -/
theorem Unresized.step {setup : Setup} {s s' : Server} (h : Unresized s) {e : ServerEvent}
    (hp : Possible s e) (hpoll : ∀ size, e≠.pollResize size) {reply : ServerReply}
    (hstep : serverStep setup s e=some (reply,s')) : Unresized s' := by
  cases e with
  | connect look node block numaNode =>
    have he : (serverConnect setup s look node block numaNode).2=s' :=
      congrArg Prod.snd (Option.some.inj hstep)
    rw [←he]
    unfold serverConnect
    split
    · exact ⟨h.idle,h.queues,h.missed⟩
    · split
      · exact h
      · refine ⟨h.idle,h.queues,fun k => ?_⟩
        dsimp only
        split
        · exact decide_eq_false fun hne => hne h.idle
        · exact h.missed k
  | command i c =>
    obtain ⟨client,fb,live,_,_,rfl⟩ := serverCommand_some hstep
    exact ⟨h.idle,h.queues,h.missed⟩
  | coalesce rand =>
    obtain ⟨out,_,_,rfl⟩ := coalesce_cases hstep
    exact ⟨h.idle,h.queues,h.missed⟩
  | pollResize size => exact absurd rfl (hpoll size)
  | queueResize priv entry =>
    obtain ⟨size,i,hphase,_⟩ := possible_queueResize hp
    rw [h.idle] at hphase
    cases hphase
  | leaveQueueing =>
    obtain ⟨size,i,hphase,_⟩ := possible_leaveQueueing hp
    rw [h.idle] at hphase
    cases hphase
  | resizeMain texture block =>
    obtain ⟨size,hphase⟩ := possible_resizeMain hp
    rw [h.idle] at hphase
    cases hphase
  | work queue block => exact absurd (h.queues queue) hp.2

/-- A risky get is one while something is unsettled. -/
theorem Unresized.not_risky {s : Server} (h : Unresized s) (e : ServerEvent) : ¬Risky s e := by
  intro hrisky
  cases e with
  | command i c =>
    cases c with
    | get x y =>
      obtain ⟨client,fb,_,_,hunsettled,_⟩ := hrisky
      exact h.settled client.fb hunsettled
    | _ => exact hrisky
  | _ => exact hrisky

/-- A step stands for one step of the server on commands at most, which is a
resize event only if the step is. -/
theorem commandsOf_cases (setup : ByteSetup) (s : ByteState) {e : ByteEvent}
    (hpoll : ∀ size, e≠.other (.pollResize size)) :
    commandsOf setup s e=[] ∨ ∃ c, commandsOf setup s e=[c] ∧ ∀ size, c≠.pollResize size := by
  cases e with
  | connect look node block numaNode data => exact Or.inr ⟨_,rfl,fun _ hc => by cases hc⟩
  | read k found => exact Or.inl rfl
  | round k =>
    rw [commandsOf]
    split
    · exact Or.inl rfl
    · split
      · exact Or.inr ⟨_,rfl,fun _ hc => by cases hc⟩
      · exact Or.inl rfl
  | other e => exact Or.inr ⟨e,rfl,fun size hc => hpoll size (congrArg ByteEvent.other hc)⟩

/-- Without a resize event every step goes through. -/
theorem byteStep_unresized (hring : 0<setup.ringSize) (h : ByteInv s) (hu : Unresized s.server)
    {e : ByteEvent} (hpoll : ∀ size, e≠.other (.pollResize size)) (hp : BytePossible s e) :
    ∃ r s', byteStep setup s e=some (r,s') ∧ ByteInv s' ∧ Unresized s'.server := by
  have hsim := @byteStep_simulates setup hring
  have hadm := hsim.admitted s s.server e ⟨h,rfl⟩ hp
  cases hstep : byteStep setup s e with
  | none =>
    have hstuck := hsim.stuck s s.server e ⟨h,rfl⟩ hp hstep
    rcases commandsOf_cases setup s hpoll with hnil | ⟨c,hone,_⟩
    · rw [hnil] at hstuck
      cases hstuck
    · rw [hone] at hstuck hadm
      have hnone : serverStep setup.toSetup s.server c=none := by
        cases hc : serverStep setup.toSetup s.server c with
        | none => rfl
        | some out => simp only [run,hc,reduceCtorEq] at hstuck
      exact absurd ((serverStep_none_iff h.server hadm.1).mp hnone) (hu.not_risky c)
  | some out =>
    obtain ⟨replies,t,hrun,hinv,rfl⟩ := hsim.follows s s.server e out.1 out.2 ⟨h,rfl⟩ hp hstep
    refine ⟨out.1,out.2,rfl,hinv,?_⟩
    rcases commandsOf_cases setup s hpoll with hnil | ⟨c,hone,hc⟩
    · rw [hnil] at hrun
      have hserver : s.server=out.2.server := congrArg Prod.snd (Option.some.inj hrun)
      rw [←hserver]
      exact hu
    · rw [hone] at hrun hadm
      obtain ⟨reply,t,rest,hfirst,hrest,_⟩ := of_run_cons hrun
      cases hrest
      exact hu.step hadm.1 hc hfirst

/-- No bytes that clients send, however they are cut into reads and however
the rounds of the connections are interleaved, make the server fail an
assertion while the window is not resized. -/
theorem no_input_aborts (setup : ByteSetup) (hring : 0<setup.ringSize) (main : Fb)
    {events : List ByteEvent} (hadm : Admitted BytePossible (byteStep setup) (listening main) events)
    (hpoll : ∀ size, .other (.pollResize size)∉events) :
    ∃ replies s, run (byteStep setup) (listening main) events=some (replies,s) ∧
      ∀ w∈s.wires,RingInv w.reader.ring ∧ w.reader.overruns=0 ∧ w.strayPeeks=0 := by
  have hgood : ∀ e∈events, ∀ size, e≠.other (.pollResize size) := by
    rintro e he size rfl
    exact hpoll size he
  have hinv : ByteInv (listening main) ∧ Unresized (listening main).server :=
    ⟨byteInv_listening main,rfl,fun _ => rfl,fun _ => rfl⟩
  obtain ⟨replies,s,hrun,hs,_⟩ := run_total (fun s e hs hp =>
    byteStep_unresized hring hs.1 hs.2 hp.1 hp.2) hinv (hadm.and_forall hgood)
  exact ⟨replies,s,hrun,fun w hw => ⟨hs.ring w hw,hs.overruns w hw,hs.strayPeeks w hw⟩⟩

/-- The small run does not. -/
theorem no_input_aborts_small :
    ∃ replies s, run (byteStep smallSetup) (listening (blackFb 4 4)) smallEvents=some (replies,s) ∧
      ∀ w∈s.wires,RingInv w.reader.ring ∧ w.reader.overruns=0 ∧ w.strayPeeks=0 := by
  refine no_input_aborts smallSetup (by decide) (blackFb 4 4) smallEvents_admitted fun size hmem => ?_
  simp only [smallEvents,List.mem_cons,reduceCtorEq,ByteEvent.other.injEq,List.not_mem_nil,
    or_self] at hmem

end Shoreline.ByteServer
