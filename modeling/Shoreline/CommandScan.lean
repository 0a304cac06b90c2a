import Shoreline.Library.IncrementalReader
import Shoreline.NetConnection
import Shoreline.TokenScan

/-!
# Commands at the front of the unread bytes

The decisions of the command loop as a scanner of the unread bytes, and the
effects of its commands on a session. One round of the loop is exactly one
scan: it waits and rolls back, rejects the client, or consumes the command
and the whitespace behind it.
-/

namespace Shoreline.CommandScan

open IncrementalReader RingBuffer RingContent NetToken NetConnection TokenScan Framebuffer

/-- What the command loop recognises. -/
inductive Command where
  | unknown
  | get (x y : UInt32)
  | set (x y : UInt32) (digits : List UInt8)
  | size
  | offset (x y : UInt32)
  deriving DecidableEq, Repr

/-- Whether the byte before the read pointer is a newline once the given
whitespace has been consumed. -/
def endsLine (run : List UInt8) : Bool := run.getLast?.any netIsNewline

/-- Recognise a pixel command behind its arguments, `n` bytes from its
start: a get when the whitespace there ends a line, else a colour follows. -/
def scanPxAt (x y : UInt32) (n : ℕ) (tail : List UInt8) : Scan Command :=
  if endsLine (tail.take (blanks tail)) then .item (.get x y) n
  else
    match token (tail.drop (blanks tail)) with
    | .closed len =>
      .item (.set x y ((tail.drop (blanks tail)).take len)) (n+blanks tail+len)
    | _ => .wait

/-- Recognise a pixel command behind its verb. -/
def scanPx (bytes : List UInt8) : Scan Command :=
  match arguments bytes with
  | none => .wait
  | some (x,y,used) => scanPxAt x y (2+used) (bytes.drop used)

/-- Recognise an offset command behind its verb. -/
def scanOffset (bytes : List UInt8) : Scan Command :=
  match arguments bytes with
  | none => .wait
  | some (x,y,used) => .item (.offset x y) (6+used)

/-- Recognise a token that is no command. -/
def scanUnknown (bytes : List UInt8) : Scan Command :=
  match token bytes with
  | .missing => .wait
  | .garbage => .reject
  | .closed len => .item .unknown len

/-- Recognise the command at the front. -/
def scan (build : Build) (bytes : List UInt8) : Scan Command :=
  if verbPx<+:bytes then scanPx (bytes.drop 2)
  else if build.featureSize=true ∧ verbSize<+:bytes then .item .size 4
  else if build.featureOffset=true ∧ verbOffset<+:bytes then scanOffset (bytes.drop 6)
  else scanUnknown bytes

/-- The pixel that the digits of a set denote. -/
def colour (host : Host) (digits : List UInt8) : FbPixel :=
  if 6<digits.length then FbPixel.ofAbgr host (hexadecimal digits)
  else (FbPixel.ofAbgr host (hexadecimal digits<<<8)).setAlpha 0xff

/-- Execute a command. -/
def exec (env : NetEnv) (session : Session) : Command → CommandEnd×Session
  | .unknown => (.done,session)
  | .get x y => netGetPixel env (x+session.offsetX) (y+session.offsetY) session
  | .set x y digits =>
    netDraw env (x+session.offsetX) (y+session.offsetY) (colour env.build.host digits) session
  | .size =>
    let out := netReply env session (sizeReply session.fb.size)
    if out.1<0 then (.sendFailed out.1,out.2) else (.done,out.2)
  | .offset x y =>
    (.done,{session with
      offsetX := x
      offsetY := y
      events := session.events++[.movedOffset x y]})

/-- The reader with its read pointer set. -/
def seek (s : Reader) (ptr : ℤ) : Reader := {s with ring := {s.ring with ptrRead := ptr}}

/-- What one branch of the verb chain, or the chain as a whole, does to a
connection when the scan of its unread bytes finds the given result. -/
def Follows (env : NetEnv) (conn : Conn) (out : CommandEnd×Conn) : Scan Command → Prop
  | .wait => (∃ ptr, out=(.recvMore,{conn with reader := seek conn.reader ptr})) ∨ out=(.recv,conn)
  | .reject => out=(.misbehaving,conn)
  | .item c n => ∃ m, n ≤ m ∧ m≤n+blanks ((content conn.reader.ring).drop n) ∧
      m≤ringAvailable conn.reader.ring ∧
      out=((exec env conn.session c).1,
        {conn with reader := conn.reader.skip m, session := (exec env conn.session c).2})

/-- Bytes consumed when a command takes effect: a get has also consumed the
whitespace that made it one. -/
def spent (bytes : List UInt8) : Command → ℕ → ℕ
  | .get _ _,n => n+blanks (bytes.drop n)
  | _,n => n

/-- The same with the exact number of bytes. -/
def FollowsExactly (env : NetEnv) (conn : Conn) (out : CommandEnd×Conn) : Scan Command → Prop
  | .wait => (∃ ptr, out=(.recvMore,{conn with reader := seek conn.reader ptr})) ∨ out=(.recv,conn)
  | .reject => out=(.misbehaving,conn)
  | .item c n => spent (content conn.reader.ring) c n≤ringAvailable conn.reader.ring ∧
      out=((exec env conn.session c).1,{conn with
        reader := conn.reader.skip (spent (content conn.reader.ring) c n)
        session := (exec env conn.session c).2})

/-- At least the command is consumed, at most the whitespace behind it. -/
theorem spent_bounds (bytes : List UInt8) (c : Command) (n : ℕ) :
    n ≤ spent bytes c n ∧ spent bytes c n≤n+blanks (bytes.drop n) := by
  cases c <;> exact ⟨by simp [spent],by simp [spent]⟩

/-- The exact number is one of those allowed. -/
theorem FollowsExactly.follows {env : NetEnv} {conn : Conn} {out : CommandEnd×Conn}
    {found : Scan Command} (h : FollowsExactly env conn out found) : Follows env conn out found := by
  cases found with
  | wait => exact h
  | reject => exact h
  | item c n =>
    obtain ⟨hle,hout⟩ := h
    obtain ⟨hn,hm⟩ := spent_bounds (content conn.reader.ring) c n
    exact ⟨_,hn,hm,hle,hout⟩

/-- An argument fetch consumes the argument, or moves only the read pointer. -/
theorem netFetchUint10_eq {s : Reader} (hs : RingInv s.ring) :
    match argument (content s.ring) with
    | some (val,used) => netFetchUint10 s=(some val,s.skip used)
    | none => ∃ m, netFetchUint10 s=(none,s.skip m) := by
  have hb := blanks_le (content s.ring)
  rw [content_length] at hb
  have hc := content_reader_skip hs hb
  unfold argument netFetchUint10
  rw [netSkipWhitespace_eq hs]
  dsimp only
  by_cases hz : blanks (content s.ring)=0
  · rw [if_pos hz,if_pos hz,if_pos (by omega)]
    exact ⟨_,rfl⟩
  · rw [if_neg hz,if_neg hz,if_neg (by omega),netNextWhitespace_eq (skip_inv hs hb),hc]
    cases ht : token ((content s.ring).drop (blanks (content s.ring))) with
    | missing => exact ⟨_,rfl⟩
    | garbage => exact ⟨_,rfl⟩
    | closed len =>
      obtain ⟨_,_,hlt⟩ := token_closed_iff.mp ht
      rw [List.length_drop,content_length] at hlt
      have ha := available_skip hs hb
      have hcode : ¬(Token.closed len).code<0 := by rw [Token.code]; omega
      dsimp only
      rw [if_neg hcode,Token.code,
        netStrToUint32_10_eq (skip_inv hs hb) (by dsimp only [Reader.skip]; omega),hc,
        reader_skip_skip hs (by omega)]

/-- Behind consumed whitespace, `ring_peek_prev` sees its last byte. -/
theorem ringPeekPrev_skip {r : Ring} (hr : RingInv r) {k : ℕ} (hk : k<ringAvailable r) :
    (content r)[k]?=some (ringPeekPrev (skip r (k+1))) := by
  have hone := ringPeekPrev_skip_one (skip_inv hr (by omega : k≤ringAvailable r))
  have ha := available_skip hr (by omega : k≤ringAvailable r)
  have hhead := content_head (skip_inv hr (by omega : k≤ringAvailable r)) (by omega)
  rw [skip_skip hr (by omega)] at hone
  rw [content_skip hr (by omega)] at hhead
  rw [hone,←List.head?_drop,hhead,List.head?_cons]

/-- The get decision looks at the last byte of the whitespace behind Y. -/
theorem netIsNewline_peekPrev {r : Ring} (hr : RingInv r) {i run : ℕ} (hrun : 0<run)
    (h : i+run≤ringAvailable r) :
    netIsNewline (ringPeekPrev (skip r (i+run)))=endsLine (((content r).drop i).take run) := by
  have hp := @ringPeekPrev_skip r hr (i+(run-1)) (by omega)
  rw [show i+(run-1)+1=i+run by omega] at hp
  have hlen : (((content r).drop i).take run).length=run := by
    rw [List.length_take,List.length_drop,content_length]
    omega
  have hlast : (((content r).drop i).take run).getLast?=some (ringPeekPrev (skip r (i+run))) := by
    rw [List.getLast?_eq_getElem?,hlen,List.getElem?_take_of_lt (by omega),List.getElem?_drop,hp]
  rw [endsLine,hlast]
  rfl

/-- A test of the verb chain consumes the verb, or nothing. -/
theorem netTryVerb_eq {s : Reader} (hs : RingInv s.ring) (enabled : Bool) (verb : List UInt8) :
    netTryVerb enabled verb s=
      if enabled=true ∧ verb<+:content s.ring then some (true,s.skip verb.length)
      else some (false,s) := by
  have hlen := content_length s.ring
  have hpre : verb<+:content s.ring ↔
      ¬ringAvailable s.ring<verb.length ∧ (content s.ring).take verb.length=verb := by
    constructor
    · intro h
      have hle := h.length_le
      exact ⟨by omega,(List.prefix_iff_eq_take.mp h).symm⟩
    · rintro ⟨_,h⟩
      exact List.prefix_iff_eq_take.mpr h.symm
  unfold netTryVerb
  cases enabled with
  | false => rfl
  | true =>
    rw [if_pos rfl,Reader.memcmp,ringMemcmp_eq hs]
    simp only [true_and,hpre,Bool.false_eq_true,if_false]
    by_cases hshort : ringAvailable s.ring<verb.length
    · rw [if_pos hshort,if_neg (fun h => h.1 hshort)]
      rfl
    · rw [if_neg hshort]
      by_cases hm : (content s.ring).take verb.length=verb
      · rw [if_pos hm,if_pos ⟨hshort,hm⟩]
        rfl
      · rw [if_neg hm,if_neg (fun h => hm h.2)]
        rfl

/-- The read pointer leaves the start of the command as soon as a byte is
consumed. -/
theorem ptrRead_skip_ne {r : Ring} (hr : RingInv r) {k : ℕ} (h0 : 0<k) (hk : k≤ringAvailable r) :
    (skip r k).ptrRead≠r.ptrRead := by
  have ha := available_lt hr
  intro h
  rw [skip,←CircularMemory.cell_zero hr.read_lt,
    CircularMemory.cell_cell hr.read_lt (by omega),
    CircularMemory.cell_injective (by omega) (by omega)] at h
  omega

/-- Fetching both arguments consumes them, or moves only the read pointer. -/
theorem netFetchPoint_eq {s : Reader} (hs : RingInv s.ring) :
    match arguments (content s.ring) with
    | some (x,y,used) => netFetchPoint s=(some (x,y),s.skip used)
    | none => ∃ ptr, netFetchPoint s=(none,seek s ptr) := by
  have hfx := netFetchUint10_eq hs
  unfold arguments netFetchPoint
  cases hx : argument (content s.ring) with
  | none =>
    rw [hx] at hfx
    obtain ⟨m,hfx⟩ := hfx
    rw [hfx]
    exact ⟨_,rfl⟩
  | some out =>
    obtain ⟨x,i⟩ := out
    rw [hx] at hfx
    have hbx := (argument_bounds hx).2
    rw [content_length] at hbx
    have hfy := @netFetchUint10_eq (s.skip i) (skip_inv hs (by omega))
    rw [content_reader_skip hs (by omega)] at hfy
    rw [hfx]
    dsimp only at hfy ⊢
    cases hy : argument ((content s.ring).drop i) with
    | none =>
      rw [hy] at hfy
      obtain ⟨m,hfy⟩ := hfy
      rw [hfy]
      exact ⟨_,rfl⟩
    | some out =>
      obtain ⟨y,j⟩ := out
      rw [hy] at hfy
      have hby := (argument_bounds hy).2
      rw [List.length_drop,content_length] at hby
      dsimp only at hfy ⊢
      rw [hfy,reader_skip_skip hs (by omega)]

/-- The colour fetch consumes its token. -/
theorem netColour_eq (host : Host) {s : Reader} (hs : RingInv s.ring) {len : ℕ}
    (h : len≤ringAvailable s.ring) :
    netColour host s len=(colour host ((content s.ring).take len),s.skip len) := by
  have hlen : ((content s.ring).take len).length=len := by
    rw [List.length_take,content_length]
    omega
  unfold netColour colour
  rw [netStrToUint32_16_eq hs h,hlen]
  dsimp only
  by_cases h6 : 6<len
  · rw [if_pos h6,if_pos (by omega)]
  · rw [if_neg h6,if_neg (by omega)]

/-- Behind both arguments the pixel branch follows its scan. -/
theorem netPxAt_follows (env : NetEnv) {conn : Conn} (hr : RingInv conn.reader.ring) {n : ℕ}
    (h0 : 0<n) (hn : n≤ringAvailable conn.reader.ring) (x y : UInt32)
    (hrun : 0<blanks ((content conn.reader.ring).drop n)) :
    FollowsExactly env conn
      (netPxAt env conn.reader.ring.ptrRead x y {conn with reader := conn.reader.skip n})
      (scanPxAt x y n ((content conn.reader.ring).drop n)) := by
  have hsn : RingInv (conn.reader.skip n).ring := skip_inv hr hn
  have hskip := netSkipWhitespace_eq hsn
  rw [content_reader_skip hr hn] at hskip
  have hget : ∀ x y, spent (content conn.reader.ring) (.get x y) n=
      n+blanks ((content conn.reader.ring).drop n) := fun _ _ => rfl
  unfold scanPxAt
  generalize hb : blanks ((content conn.reader.ring).drop n)=run at *
  have hle : n+run≤ringAvailable conn.reader.ring := by
    have hle := blanks_le ((content conn.reader.ring).drop n)
    rw [List.length_drop,content_length] at hle
    omega
  rw [if_neg (by omega),reader_skip_skip hr hle] at hskip
  have hsr : RingInv (conn.reader.skip (n+run)).ring := skip_inv hr hle
  have hcr := content_reader_skip hr hle
  rw [←List.drop_drop] at hcr
  have hpeek : netIsNewline (ringPeekPrev (conn.reader.skip (n+run)).ring)=_ :=
    netIsNewline_peekPrev hr hrun hle
  have hstray : (conn.reader.skip (n+run)).ring.ptrRead≠conn.reader.ring.ptrRead :=
    ptrRead_skip_ne hr (by omega : 0<n+run) hle
  unfold netPxAt
  dsimp only
  rw [hskip]
  dsimp only
  rw [if_neg (by omega),if_neg hstray,Nat.add_zero,hpeek]
  cases hline : endsLine (((content conn.reader.ring).drop n).take run) with
  | true =>
    rw [if_pos rfl,if_pos rfl]
    refine ⟨by rw [hget]; exact hle,?_⟩
    rw [hget]
    rfl
  | false =>
    rw [if_neg Bool.false_ne_true,if_neg Bool.false_ne_true,netNextWhitespace_eq hsr,hcr]
    dsimp only
    cases ht : token (((content conn.reader.ring).drop n).drop run) with
    | missing => exact Or.inl ⟨_,rfl⟩
    | garbage => exact Or.inl ⟨_,rfl⟩
    | closed len =>
      obtain ⟨_,_,hlt⟩ := token_closed_iff.mp ht
      rw [List.drop_drop,List.length_drop,content_length] at hlt
      have har : ringAvailable (conn.reader.skip (n+run)).ring=ringAvailable conn.reader.ring-(n+run) :=
        available_skip hr hle
      have hcode : ¬(Token.closed len).code<0 := by rw [Token.code]; omega
      rw [if_neg hcode,Token.code,netColour_eq _ hsr (by omega),hcr,reader_skip_skip hr (by omega)]
      exact ⟨by dsimp only [spent]; omega,rfl⟩

/-- The pixel branch follows its scan. -/
theorem netPx_follows (env : NetEnv) {conn : Conn} (hr : RingInv conn.reader.ring)
    (h2 : 2≤ringAvailable conn.reader.ring) :
    FollowsExactly env conn
      (netPx env conn.reader.ring.ptrRead {conn with reader := conn.reader.skip 2})
      (scanPx ((content conn.reader.ring).drop 2)) := by
  have hs2 : RingInv (conn.reader.skip 2).ring := skip_inv hr h2
  have hfetch := netFetchPoint_eq hs2
  rw [content_reader_skip hr h2] at hfetch
  unfold scanPx netPx
  cases hargs : arguments ((content conn.reader.ring).drop 2) with
  | none =>
    rw [hargs] at hfetch
    obtain ⟨ptr,hfetch⟩ := hfetch
    rw [hfetch]
    exact Or.inl ⟨_,rfl⟩
  | some out =>
    obtain ⟨x,y,used⟩ := out
    rw [hargs] at hfetch
    obtain ⟨_,hlt,hrun⟩ := arguments_bounds hargs
    rw [List.length_drop,content_length] at hlt
    rw [List.drop_drop] at hrun
    dsimp only at hfetch ⊢
    rw [hfetch,List.drop_drop,reader_skip_skip hr (by omega)]
    exact netPxAt_follows env hr (by omega) (by omega) x y hrun

/-- The offset branch follows its scan. -/
theorem netOffset_follows (env : NetEnv) {conn : Conn} (hr : RingInv conn.reader.ring)
    (h6 : 6≤ringAvailable conn.reader.ring) :
    FollowsExactly env conn (netOffset {conn with reader := conn.reader.skip 6})
      (scanOffset ((content conn.reader.ring).drop 6)) := by
  have hs6 : RingInv (conn.reader.skip 6).ring := skip_inv hr h6
  have hfetch := netFetchPoint_eq hs6
  rw [content_reader_skip hr h6] at hfetch
  unfold scanOffset netOffset
  cases hargs : arguments ((content conn.reader.ring).drop 6) with
  | none =>
    rw [hargs] at hfetch
    obtain ⟨ptr,hfetch⟩ := hfetch
    rw [hfetch]
    exact Or.inl ⟨_,rfl⟩
  | some out =>
    obtain ⟨x,y,used⟩ := out
    rw [hargs] at hfetch
    obtain ⟨_,hlt,_⟩ := arguments_bounds hargs
    rw [List.length_drop,content_length] at hlt
    dsimp only at hfetch ⊢
    rw [hfetch,reader_skip_skip hr (by omega)]
    exact ⟨by dsimp only [spent]; omega,rfl⟩

/-- The branch for unknown commands follows its scan. -/
theorem netUnknown_follows (env : NetEnv) {conn : Conn} (hr : RingInv conn.reader.ring) :
    FollowsExactly env conn (netUnknown conn) (scanUnknown (content conn.reader.ring)) := by
  unfold scanUnknown netUnknown
  rw [netNextWhitespace_eq hr]
  dsimp only
  cases ht : token (content conn.reader.ring) with
  | missing => exact Or.inr rfl
  | garbage => rfl
  | closed len =>
    obtain ⟨_,_,hlt⟩ := token_closed_iff.mp ht
    rw [content_length] at hlt
    have hcode : (Token.closed len).code≥0 := by rw [Token.code]; omega
    rw [if_pos hcode,Token.code,Reader.advanceRead,ringAdvanceRead_eq hr (by omega),Option.map_some,
      Int.toNat_natCast,needing_eq (by omega)]
    exact ⟨by dsimp only [spent]; omega,rfl⟩

/-- The verb chain follows the scan. -/
theorem netCommand_followsExactly (env : NetEnv) {conn : Conn} (hr : RingInv conn.reader.ring) :
    FollowsExactly env conn (netCommand env conn) (scan env.build (content conn.reader.ring)) := by
  unfold netCommand scan
  dsimp only
  rw [netTryVerb_eq hr]
  by_cases hpx : verbPx<+:content conn.reader.ring
  · have hlen := hpx.length_le
    rw [content_length] at hlen
    rw [if_pos ⟨rfl,hpx⟩,if_pos hpx]
    exact netPx_follows env hr hlen
  · rw [if_neg (fun h => hpx h.2),if_neg hpx]
    dsimp only
    rw [netTryVerb_eq hr]
    by_cases hsize : env.build.featureSize=true ∧ verbSize<+:content conn.reader.ring
    · have hlen := hsize.2.length_le
      rw [content_length] at hlen
      rw [if_pos hsize,if_pos hsize]
      refine ⟨hlen,?_⟩
      dsimp only [netSize,exec]
      split_ifs <;> rfl
    · rw [if_neg hsize,if_neg hsize]
      dsimp only
      rw [netTryVerb_eq hr]
      by_cases hoff : env.build.featureOffset=true ∧ verbOffset<+:content conn.reader.ring
      · have hlen := hoff.2.length_le
        rw [content_length] at hlen
        rw [if_pos hoff,if_pos hoff]
        exact netOffset_follows env hr hlen
      · rw [if_neg hoff,if_neg hoff]
        exact netUnknown_follows env hr

/-- Up to the whitespace consumed with a command. -/
theorem netCommand_follows (env : NetEnv) {conn : Conn} (hr : RingInv conn.reader.ring) :
    Follows env conn (netCommand env conn) (scan env.build (content conn.reader.ring)) :=
  (netCommand_followsExactly env hr).follows

end Shoreline.CommandScan
