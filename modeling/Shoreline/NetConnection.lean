import Mathlib.Data.Nat.Digits.Defs
import Shoreline.Framebuffer
import Shoreline.NetToken

/-!
# The connection thread's receive and command loops

One connection from the first `read` to the end of its receive loop: the
command verbs, the argument fetches with every way back to `read`, the
pixel accesses and the replies. The main framebuffer, the socket and the
build are parameters; they do not change while received data is handled.
-/

namespace Shoreline.NetConnection

open RingBuffer RingContent NetToken Framebuffer

/-- `SCRATCH_STR_MAX`. -/
def scratchStrMax : ℕ := 32

/-- The bytes of `PX`. -/
def verbPx : List UInt8 := [0x50,0x58]

/-- The bytes of `SIZE`. -/
def verbSize : List UInt8 := [0x53,0x49,0x5a,0x45]

/-- The bytes of `OFFSET`. -/
def verbOffset : List UInt8 := [0x4f,0x46,0x46,0x53,0x45,0x54]

/-- The character of a digit, with lower-case letters from ten on. -/
def digitChar (d : ℕ) : UInt8 := UInt8.ofNat (if d<10 then 0x30+d else 0x57+d)

/-- `%u`. -/
def formatUnsigned (n : ℕ) : List UInt8 :=
  if n=0 then [0x30] else ((Nat.digits 10 n).reverse).map digitChar

/-- `%06x`. -/
def formatHex06 (n : ℕ) : List UInt8 :=
  (List.replicate (6-(Nat.digits 16 n).length) 0++(Nat.digits 16 n).reverse).map digitChar

/-- `PX %u %u %06x\n`. -/
def pixelReply (x y rgb : UInt32) : List UInt8 :=
  verbPx++[0x20]++formatUnsigned x.toNat++[0x20]++formatUnsigned y.toNat++[0x20]++
    formatHex06 rgb.toNat++[0x0a]

/-- `SIZE %u %u\n`. -/
def sizeReply (size : FbSize) : List UInt8 :=
  verbSize++[0x20]++formatUnsigned size.width.toNat++[0x20]++formatUnsigned size.height.toNat++[0x0a]

/-- `write` on the connection's socket, as a function of what was sent before
and of the buffer: an error number, or how many bytes were taken. -/
structure Socket where
  /-- One call. -/
  write : List UInt8 → List UInt8 → Except ℤ ℕ
  /-- Error numbers are positive. -/
  error_pos : ∀ sent buffer e, write sent buffer=.error e → 0<e
  /-- A successful call takes bytes of a non-empty buffer. -/
  taken_pos : ∀ sent buffer n, write sent buffer=.ok n → buffer≠[] → 0<n
  /-- A successful call takes no more than the buffer. -/
  taken_le : ∀ sent buffer n, write sent buffer=.ok n → n≤buffer.length

/-- The write loop of `net_sock_printf`; one unit of fuel per call. -/
def netSockWriteLoop (socket : Socket) : ℕ → List UInt8 → List UInt8 → ℤ×List UInt8
  | 0,sent,_ => (0,sent)
  | fuel+1,sent,rest =>
    if rest=[] then (0,sent)
    else
      match socket.write sent rest with
      | .error e => (-e,sent)
      | .ok n => netSockWriteLoop socket fuel (sent++rest.take n) (rest.drop n)

/-- `net_sock_printf` on the formatted text: its return value, and all bytes
sent on the connection so far. -/
def netSockPrintf (socket : Socket) (sent text : List UInt8) : ℤ×List UInt8 :=
  if text.length≥scratchStrMax then (-ENOBUFS,sent)
  else
    let out := netSockWriteLoop socket text.length sent text
    (if out.1<0 then out.1 else text.length,out.2)

/-- What happens on a connection, in order. Recognising a pixel command as a
get or a set is recorded besides its effect. -/
inductive Event where
  | gotGet (x y : UInt32)
  | gotSet (x y : UInt32) (pixel : FbPixel)
  | drew (x y : UInt32) (pixel : FbPixel)
  | replied (bytes : List UInt8)
  | movedOffset (x y : UInt32)
  deriving DecidableEq

/-- The part of a connection that commands act on. -/
structure Session where
  /-- `thread->offset.x`. -/
  offsetX : UInt32
  /-- `thread->offset.y`. -/
  offsetY : UInt32
  /-- The node framebuffer of the connection. -/
  fb : Fb
  /-- Bytes sent to the client so far. -/
  sent : List UInt8
  /-- History of the connection. -/
  events : List Event

/-- One connection inside its receive loop. -/
structure Conn where
  /-- The ring. -/
  reader : Reader
  /-- History: looks back at a byte the current command has not consumed. -/
  strayPeeks : ℕ
  /-- `thread->byte_count`. -/
  byteCount : UInt32
  /-- Offset, framebuffer and replies. -/
  session : Session

/-- What does not change while received data is handled. -/
structure NetEnv where
  /-- Features and host. -/
  build : Build
  /-- `net->fb`, from which reads of pixels are answered. -/
  netFb : Fb
  /-- The client's socket. -/
  socket : Socket

/-- The assertions that a command can run into. -/
inductive AssertSite where
  | ringAdvance
  | fbGetPixel
  | fbSetPixel
  deriving DecidableEq, Repr

/-- How the body of the command loop ends. -/
inductive CommandEnd where
  | done
  | recvMore
  | recv
  | misbehaving
  | sendFailed (err : ℤ)
  | aborted (site : AssertSite)
  deriving DecidableEq, Repr

/-- Fetch one decimal argument: skip whitespace, look for the end of the
token, parse it. `none` is `goto recv_more`. -/
def netFetchUint10 (s : Reader) : Option UInt32×Reader :=
  let skipped := netSkipWhitespace s
  if skipped.1<0 then (none,skipped.2)
  else
    let next := netNextWhitespace skipped.2
    if next.1<0 then (none,next.2)
    else
      let val := netStrToUint32_10 next.2 next.1
      (some val.1,val.2)

/-- Fetch both arguments, one after the other. -/
def netFetchPoint (s : Reader) : Option (UInt32×UInt32)×Reader :=
  match netFetchUint10 s with
  | (none,s) => (none,s)
  | (some x,s) =>
    match netFetchUint10 s with
    | (none,s) => (none,s)
    | (some y,s) => (some (x,y),s)

/-- Send a reply and record what reached the client. -/
def netReply (env : NetEnv) (session : Session) (text : List UInt8) : ℤ×Session :=
  let out := netSockPrintf env.socket session.sent text
  (out.1,{session with
    sent := out.2
    events := session.events++[.replied (out.2.drop session.sent.length)]})

/-- The get branch of `PX`. -/
def netGetPixel (env : NetEnv) (x y : UInt32) (session : Session) : CommandEnd×Session :=
  let session : Session := {session with events := session.events++[.gotGet x y]}
  if session.fb.size.Contains x y then
    match fbGetPixel env.netFb x y with
    | none => (.aborted .fbGetPixel,session)
    | some pixel =>
      let out := netReply env session (pixelReply x y (pixel.abgr env.build.host>>>8))
      if out.1<0 then (.sendFailed out.1,out.2) else (.done,out.2)
  else (.done,session)

/-- The colour of a set: more than six digits are the whole word, fewer are
shifted and made opaque. -/
def netColour (host : Host) (s : Reader) (offset : ℤ) : FbPixel×Reader :=
  let val := netStrToUint32_16 s offset
  if offset>6 then (FbPixel.ofAbgr host val.1,val.2)
  else ((FbPixel.ofAbgr host (val.1<<<8)).setAlpha 0xff,val.2)

/-- The pixel counter of a set, compiled in or not. -/
def netCountPixel (build : Build) (fb : Fb) : Fb :=
  if build.featureStatistics && build.featurePixelCount then
    {fb with pixelCount := fb.pixelCount+1}
  else fb

/-- The pixel that a set stores: blended with the old one where that is
compiled in and the colour is not opaque. -/
def netBlend (build : Build) (fb : Fb) (x y : UInt32) (pixel : FbPixel) : Option FbPixel :=
  if build.featureAlphaBlending && pixel.alpha≠0xff then
    (fbGetPixel fb x y).map fun old => fbAlphaBlendPixel build.host pixel old
  else some pixel

/-- The drawing part of a set: the bound check, the counter, the optional
blending and the store. -/
def netDraw (env : NetEnv) (x y : UInt32) (pixel : FbPixel) (session : Session) :
    CommandEnd×Session :=
  let session : Session := {session with events := session.events++[.gotSet x y pixel]}
  if session.fb.size.Contains x y then
    let counted := netCountPixel env.build session.fb
    match netBlend env.build counted x y pixel with
    | none => (.aborted .fbGetPixel,session)
    | some out =>
      match fbSetPixel counted x y out with
      | none => (.aborted .fbSetPixel,session)
      | some fb => (.done,{session with fb := fb, events := session.events++[.drew x y out]})
  else (.done,session)

/-- The `PX` branch behind both arguments: the whitespace there decides
between a get and a set. -/
def netPxAt (env : NetEnv) (lastCmd : ℤ) (x y : UInt32) (conn : Conn) : CommandEnd×Conn :=
  let skipped := netSkipWhitespace conn.reader
  if skipped.1<0 then (.recvMore,{conn with reader := skipped.2})
  else
    let x := x+conn.session.offsetX
    let y := y+conn.session.offsetY
    let conn := {conn with
      reader := skipped.2
      strayPeeks := conn.strayPeeks+if skipped.2.ring.ptrRead=lastCmd then 1 else 0}
    if netIsNewline (ringPeekPrev skipped.2.ring) then
      let out := netGetPixel env x y conn.session
      (out.1,{conn with session := out.2})
    else
      let next := netNextWhitespace skipped.2
      if next.1<0 then (.recvMore,{conn with reader := next.2})
      else
        let colour := netColour env.build.host next.2 next.1
        let out := netDraw env x y colour.1 conn.session
        (out.1,{conn with reader := colour.2, session := out.2})

/-- The `PX` branch, behind the verb. -/
def netPx (env : NetEnv) (lastCmd : ℤ) (conn : Conn) : CommandEnd×Conn :=
  match netFetchPoint conn.reader with
  | (none,s) => (.recvMore,{conn with reader := s})
  | (some (x,y),s) => netPxAt env lastCmd x y {conn with reader := s}

/-- The `SIZE` branch, behind the verb. -/
def netSize (env : NetEnv) (conn : Conn) : CommandEnd×Conn :=
  let out := netReply env conn.session (sizeReply conn.session.fb.size)
  if out.1<0 then (.sendFailed out.1,{conn with session := out.2})
  else (.done,{conn with session := out.2})

/-- The `OFFSET` branch, behind the verb. -/
def netOffset (conn : Conn) : CommandEnd×Conn :=
  match netFetchPoint conn.reader with
  | (none,s) => (.recvMore,{conn with reader := s})
  | (some (x,y),s) =>
    (.done,{conn with
      reader := s
      session := {conn.session with
        offsetX := x
        offsetY := y
        events := conn.session.events++[.movedOffset x y]}})

/-- The branch for unknown commands. -/
def netUnknown (conn : Conn) : CommandEnd×Conn :=
  let next := netNextWhitespace conn.reader
  if next.1≥0 then
    match next.2.advanceRead next.1 with
    | none => (.aborted .ringAdvance,{conn with reader := next.2})
    | some s => (.done,{conn with reader := s})
  else if next.1=-EINVAL then (.misbehaving,{conn with reader := next.2})
  else (.recv,{conn with reader := next.2})

/-- One test of the verb chain, compiled in or not: whether the verb matched
(and was consumed). -/
def netTryVerb (enabled : Bool) (verb : List UInt8) (s : Reader) : Option (Bool×Reader) :=
  if enabled then (s.memcmp verb).map fun out => (decide (out.1=0),out.2)
  else some (false,s)

/-- The body of the command loop up to the trailing whitespace. -/
def netCommand (env : NetEnv) (conn : Conn) : CommandEnd×Conn :=
  let lastCmd := conn.reader.ring.ptrRead
  match netTryVerb true verbPx conn.reader with
  | none => (.aborted .ringAdvance,conn)
  | some (true,s) => netPx env lastCmd {conn with reader := s}
  | some (false,s) =>
    match netTryVerb env.build.featureSize verbSize s with
    | none => (.aborted .ringAdvance,conn)
    | some (true,s) => netSize env {conn with reader := s}
    | some (false,s) =>
      match netTryVerb env.build.featureOffset verbOffset s with
      | none => (.aborted .ringAdvance,conn)
      | some (true,s) => netOffset {conn with reader := s}
      | some (false,s) => netUnknown {conn with reader := s}

/-- One round of the command loop: the body, then either the trailing
whitespace or the way out, with the roll-back of `recv_more`. -/
def netIteration (env : NetEnv) (conn : Conn) : CommandEnd×Conn :=
  let out := netCommand env conn
  match out.1 with
  | .done => (.done,{out.2 with reader := (netSkipWhitespace out.2.reader).2})
  | .recvMore =>
    (.recv,{out.2 with reader := {out.2.reader with
      ring := {out.2.reader.ring with ptrRead := conn.reader.ring.ptrRead}}})
  | ending => (ending,out.2)

/-- How the command loop or the receive loop ends. -/
inductive LoopEnd where
  | reading
  | closedByPeer
  | shutdown
  | misbehaving
  | sendFailed (err : ℤ)
  | aborted (site : AssertSite)
  | exhausted
  deriving DecidableEq, Repr

/-- Result of the command loop with the number of its rounds. -/
structure LoopReport where
  /-- Why the loop was left. -/
  ending : LoopEnd
  /-- The connection then. -/
  conn : Conn
  /-- Rounds executed. -/
  rounds : ℕ

/-- Leaving the command loop from inside a round. -/
def CommandEnd.leave : CommandEnd → LoopEnd
  | .done => .reading
  | .recvMore => .reading
  | .recv => .reading
  | .misbehaving => .misbehaving
  | .sendFailed err => .sendFailed err
  | .aborted site => .aborted site

/-- The command loop `while(ring_any_available(ring))`; one unit of fuel per
round, and an exhaustion mark for too little fuel. -/
def netCommandLoop (env : NetEnv) : ℕ → Conn → LoopReport
  | fuel,conn =>
    if ringAnyAvailable conn.reader.ring then
      match fuel with
      | 0 => ⟨.exhausted,conn,0⟩
      | fuel+1 =>
        let out := netIteration env conn
        if out.1=.done then
          let rest := netCommandLoop env fuel out.2
          {rest with rounds := rest.rounds+1}
        else ⟨out.1.leave,out.2,1⟩
    else ⟨.reading,conn,0⟩

/-- What one pass of the receive loop finds: the shutdown state of the net,
the end of the stream or a failing `read`, or bytes. -/
inductive Recv where
  | shutdown
  | closed
  | data (bytes : List UInt8)
  deriving DecidableEq

/-- Take received bytes over: `ring_advance_write` and the statistics. -/
def netAcknowledge (env : NetEnv) (conn : Conn) (bytes : List UInt8) : Option Conn :=
  (ringReceive conn.reader.ring bytes).map fun ring => {conn with
    reader := {conn.reader with ring := ring}
    byteCount :=
      if env.build.featureStatistics then conn.byteCount+UInt32.ofNat bytes.length
      else conn.byteCount}

/-- Handle received bytes: take them over, then run the command loop with one
round of fuel for every unread byte. -/
def netReceive (env : NetEnv) (conn : Conn) (bytes : List UInt8) : LoopReport :=
  match netAcknowledge env conn bytes with
  | none => ⟨.aborted .ringAdvance,conn,0⟩
  | some conn => netCommandLoop env (ringAvailable conn.reader.ring) conn

/-- The receive loop over what its passes find; it is still reading when all
of them are used up. -/
def netReceiveLoop (env : NetEnv) : Conn → List Recv → LoopEnd×Conn
  | conn,[] => (.reading,conn)
  | conn,.shutdown::_ => (.shutdown,conn)
  | conn,.closed::_ => (.closedByPeer,conn)
  | conn,.data bytes::rest =>
    let out := netReceive env conn bytes
    if out.ending=.reading then netReceiveLoop env out.conn rest else (out.ending,out.conn)

/-- Every read returns at least one byte and no more than the contiguous free
space it was offered. -/
def ReadsFit (env : NetEnv) : Conn → List (List UInt8) → Prop
  | _,[] => True
  | conn,bytes::rest =>
    0<bytes.length ∧ bytes.length≤ringFreeSpaceContig conn.reader.ring ∧
      ((netReceive env conn bytes).ending=.reading →
        ReadsFit env (netReceive env conn bytes).conn rest)

/-- A socket that takes every buffer whole. -/
def takingSocket : Socket where
  write _ buffer := .ok buffer.length
  error_pos _ _ _ h := by cases h
  taken_pos _ _ _ h hne := by
    cases h
    exact List.length_pos_iff.mpr hne
  taken_le _ _ _ h := by
    cases h
    exact le_refl _

/-- A transparent framebuffer of the given size. -/
def blankFb (width height : UInt32) : Fb :=
  ⟨⟨width,height⟩,(width*height).toNat,fun _ => ⟨0,0,0,0⟩,0,0⟩

/-- The default features on a little-endian host, a picture of the given size
and a socket that never fails. -/
def plainEnv (width height : UInt32) : NetEnv :=
  ⟨⟨true,true,true,false,false,.littleEndian⟩,blankFb width height,takingSocket⟩

/-- A connection that has just been accepted, with the given ring. -/
def freshConn (ring : Ring) (session : Session) : Conn := ⟨⟨ring,0⟩,0,0,session⟩

/-- The session of a new connection on a framebuffer. -/
def freshSession (fb : Fb) : Session := ⟨0,0,fb,[],[]⟩

end Shoreline.NetConnection
