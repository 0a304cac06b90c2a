import Shoreline.CommandLoop
import Shoreline.CommandText

/-!
# Where a set draws

The coordinates of a set pass through 32-bit arithmetic twice, as decimal
numbers and when the offset is added, and are compared with the surface only
afterwards. A set draws where it was asked to unless a sum wraps around onto
the surface.
-/

namespace Shoreline.Coordinates

open IncrementalReader RingBuffer RingContent NetToken NetConnection TokenScan CommandScan
open CommandLoop CommandText Framebuffer

/-- A written set command with decimal coordinates. -/
structure SetCommand where
  /-- Gaps and words up to the second coordinate. -/
  args : Arguments
  /-- Digits of the first coordinate. -/
  xDigits : List ℕ
  /-- Digits of the second coordinate. -/
  yDigits : List ℕ
  /-- They are decimal. -/
  x_lt : ∀ d∈xDigits,d<10
  /-- They are decimal. -/
  y_lt : ∀ d∈yDigits,d<10
  /-- The first word consists of them. -/
  x_word : args.wordX=xDigits.map digitChar
  /-- The second word consists of them. -/
  y_word : args.wordY=yDigits.map digitChar
  /-- Whitespace before the colour. -/
  run : List UInt8
  /-- There is some. -/
  run_gap : Gap run
  /-- It does not end a line. -/
  run_open : endsLine run=false
  /-- The colour. -/
  colour : List UInt8
  /-- It is a token. -/
  colour_word : Word colour

/-- The bytes of the command, up to the whitespace behind it. -/
def SetCommand.bytes (cmd : SetCommand) (rest : List UInt8) : List UInt8 :=
  verbPx++(cmd.args.bytes++(cmd.run++(cmd.colour++rest)))

/-- The number that the first coordinate denotes. -/
def SetCommand.x (cmd : SetCommand) : ℕ := denoted 10 cmd.xDigits

/-- The number that the second coordinate denotes. -/
def SetCommand.y (cmd : SetCommand) : ℕ := denoted 10 cmd.yDigits

/-- Where an event draws. -/
def drawnAt : Event → Option (ℕ×ℕ)
  | .drew x y _ => some (x.toNat,y.toNat)
  | _ => none

/-- Where was drawn between two states of a session. -/
def drawnSince (before after : Session) : List (ℕ×ℕ) :=
  (after.events.drop before.events.length).filterMap drawnAt

/-- A set for these numbers draws exactly the pixel at their sums with the
offset if that is on the surface, and nothing otherwise. -/
def DrawsAsAsked (before after : Session) (x y : ℕ) : Prop :=
  if x+before.offsetX.toNat<before.fb.size.width.toNat ∧
      y+before.offsetY.toNat<before.fb.size.height.toNat then
    drawnSince before after=[(x+before.offsetX.toNat,y+before.offsetY.toNat)] ∧
      ∃ pixel, after.fb.pixels=writePixel before.fb.pixels
        ((y+before.offsetY.toNat)*before.fb.size.width.toNat+(x+before.offsetX.toNat)) pixel
  else drawnSince before after=[] ∧ after.fb.pixels=before.fb.pixels

/-- The coordinates that the bound check sees. -/
def wrapped (n : ℕ) (offset : UInt32) : ℕ := (n+offset.toNat)%2^32

/-- The sum that the bound check sees. -/
theorem toNat_add_offset (n : ℕ) (offset : UInt32) :
    (UInt32.ofNat n+offset).toNat=wrapped n offset := by
  rw [UInt32.toNat_add,UInt32.toNat_ofNat',wrapped]
  omega

/-- The index of a pixel on the surface does not wrap around. -/
theorem fbIndex_eq {fb : Fb} (hsize : fb.size.width.toNat*fb.size.height.toNat<2^32)
    {x y : UInt32} (h : fb.size.Contains x y) :
    fbIndex fb x y=y.toNat*fb.size.width.toNat+x.toNat := by
  have hx : x.toNat<fb.size.width.toNat := UInt32.lt_iff_toNat_lt.mp h.1
  have hy : y.toNat<fb.size.height.toNat := UInt32.lt_iff_toNat_lt.mp h.2
  have hlt : y.toNat*fb.size.width.toNat+x.toNat<2^32 := by nlinarith
  rw [fbIndex,UInt32.toNat_add,UInt32.toNat_mul]
  rw [Nat.mod_eq_of_lt (by omega : y.toNat*fb.size.width.toNat<2^32),Nat.mod_eq_of_lt hlt]

/-- Counting a pixel leaves size and pixels alone. -/
theorem netCountPixel_frame (build : Build) (fb : Fb) :
    (netCountPixel build fb).size=fb.size ∧ (netCountPixel build fb).pixels=fb.pixels := by
  unfold netCountPixel
  split <;> exact ⟨rfl,rfl⟩

/-- The pixel that a set stores over an old one. -/
def storedPixel (build : Build) (pixel old : FbPixel) : FbPixel :=
  if build.featureAlphaBlending && pixel.alpha≠0xff then fbAlphaBlendPixel build.host pixel old
  else pixel

/-- Without blending it is the colour of the command. -/
theorem storedPixel_plain {build : Build} (hblend : build.featureAlphaBlending=false)
    (pixel old : FbPixel) : storedPixel build pixel old=pixel := by
  rw [storedPixel,hblend,Bool.false_and,if_neg Bool.false_ne_true]

/-- On the surface it is what the blending step finds. -/
theorem netBlend_eq (build : Build) {fb : Fb} {x y : UInt32} (pixel : FbPixel)
    (h : fb.size.Contains x y) :
    netBlend build fb x y pixel=some (storedPixel build pixel (fb.pixels (fbIndex fb x y))) := by
  rw [netBlend,storedPixel,fbGetPixel,if_pos h]
  split <;> rfl

/-- On the surface, the drawing part of a set counts the pixel and stores it. -/
theorem netDraw_eq (env : NetEnv) {x y : UInt32} (pixel : FbPixel) (session : Session)
    (h : session.fb.size.Contains x y) :
    let out := storedPixel env.build pixel (session.fb.pixels (fbIndex session.fb x y))
    netDraw env x y pixel session=(.done,{session with
      fb := {netCountPixel env.build session.fb with
        pixels := writePixel session.fb.pixels (fbIndex session.fb x y) out}
      events := session.events++[.gotSet x y pixel]++[.drew x y out]}) := by
  obtain ⟨hsize,hpixels⟩ := netCountPixel_frame env.build session.fb
  have hcount : (netCountPixel env.build session.fb).size.Contains x y := by rw [hsize]; exact h
  have hindex : fbIndex (netCountPixel env.build session.fb) x y=fbIndex session.fb x y := by
    rw [fbIndex,fbIndex,hsize]
  unfold netDraw
  dsimp only
  rw [if_pos h,netBlend_eq env.build pixel hcount,hpixels,hindex]
  dsimp only
  rw [fbSetPixel,if_pos hcount,hpixels,hindex]

/-- On the surface, the drawing part of a set writes one pixel. -/
theorem netDraw_inside (env : NetEnv) {x y : UInt32} (pixel : FbPixel) {session : Session}
    (h : session.fb.size.Contains x y) :
    ∃ out fb, netDraw env x y pixel session=(.done,{session with
        fb := fb
        events := session.events++[.gotSet x y pixel]++[.drew x y out]}) ∧
      fb.size=session.fb.size ∧
      fb.pixels=writePixel session.fb.pixels (fbIndex session.fb x y) out ∧
      (env.build.featureAlphaBlending=false → out=pixel) :=
  ⟨_,_,netDraw_eq env pixel session h,(netCountPixel_frame env.build session.fb).1,rfl,
    fun hblend => storedPixel_plain hblend pixel _⟩

/-- Outside the surface it writes nothing. -/
theorem netDraw_outside (env : NetEnv) {x y : UInt32} (pixel : FbPixel) {session : Session}
    (h : ¬session.fb.size.Contains x y) :
    netDraw env x y pixel session=(.done,{session with
      events := session.events++[.gotSet x y pixel]}) := by
  unfold netDraw
  dsimp only
  rw [if_neg h]

/-- It never changes the node of the framebuffer. -/
theorem netDraw_numaNode (env : NetEnv) (x y : UInt32) (pixel : FbPixel) (session : Session) :
    (netDraw env x y pixel session).2.fb.numaNode=session.fb.numaNode := by
  have hcount : (netCountPixel env.build session.fb).numaNode=session.fb.numaNode := by
    unfold netCountPixel
    split <;> rfl
  unfold netDraw
  dsimp only
  split
  · split
    · rfl
    · unfold fbSetPixel
      split
      · rfl
      · rename_i hset
        split at hset
        · cases hset
          exact hcount
        · cases hset
  · rfl

/-- A command at the front is executed by the next round of the loop. -/
theorem netIteration_session (env : NetEnv) {conn : Conn} (hr : RingInv conn.reader.ring)
    {c : Command} {n : ℕ} (hscan : scan env.build (content conn.reader.ring)=.item c n) :
    (netIteration env conn).2.session=(exec env conn.session c).2 := by
  obtain ⟨_,m,_,_,hit,_⟩ := netIteration_item env hr hscan
  rw [hit]
  rfl

/-- A set draws at the wrapped sums if these are on the surface. -/
theorem set_draws (env : NetEnv) {conn : Conn} (hr : RingInv conn.reader.ring) (cmd : SetCommand)
    {rest : List UInt8} (hrest : 0<blanks rest) (hcont : content conn.reader.ring=cmd.bytes rest)
    (hsize : conn.session.fb.size.width.toNat*conn.session.fb.size.height.toNat<2^32) :
    if wrapped cmd.x conn.session.offsetX<conn.session.fb.size.width.toNat ∧
        wrapped cmd.y conn.session.offsetY<conn.session.fb.size.height.toNat then
      drawnSince conn.session (netIteration env conn).2.session=
          [(wrapped cmd.x conn.session.offsetX,wrapped cmd.y conn.session.offsetY)] ∧
        ∃ pixel, (netIteration env conn).2.session.fb.pixels=writePixel conn.session.fb.pixels
          (wrapped cmd.y conn.session.offsetY*conn.session.fb.size.width.toNat+
            wrapped cmd.x conn.session.offsetX) pixel
    else drawnSince conn.session (netIteration env conn).2.session=[] ∧
      (netIteration env conn).2.session.fb.pixels=conn.session.fb.pixels := by
  have hscan := scan_set_text env.build cmd.args cmd.run_gap cmd.run_open cmd.colour_word hrest
  have hsess := netIteration_session env hr (by rw [hcont]; exact hscan)
  rw [cmd.x_word,cmd.y_word,decimal_digits cmd.x_lt,decimal_digits cmd.y_lt,exec] at hsess
  rw [hsess]
  have hx := toNat_add_offset cmd.x conn.session.offsetX
  have hy := toNat_add_offset cmd.y conn.session.offsetY
  rw [SetCommand.x] at hx ⊢
  rw [SetCommand.y] at hy ⊢
  generalize UInt32.ofNat (denoted 10 cmd.xDigits)+conn.session.offsetX=x at hx ⊢
  generalize UInt32.ofNat (denoted 10 cmd.yDigits)+conn.session.offsetY=y at hy ⊢
  generalize colour env.build.host cmd.colour=pixel
  rw [←hx,←hy]
  by_cases hin : conn.session.fb.size.Contains x y
  · obtain ⟨out,fb,hdraw,_,hpixels,_⟩ := netDraw_inside env pixel hin
    rw [if_pos ⟨UInt32.lt_iff_toNat_lt.mp hin.1,UInt32.lt_iff_toNat_lt.mp hin.2⟩,hdraw]
    refine ⟨?_,out,?_⟩
    · rw [drawnSince]
      dsimp only
      rw [List.append_assoc,List.drop_left]
      rfl
    · rw [←fbIndex_eq hsize hin]
      exact hpixels
  · rw [if_neg (fun h => hin ⟨UInt32.lt_iff_toNat_lt.mpr h.1,UInt32.lt_iff_toNat_lt.mpr h.2⟩),
      netDraw_outside env pixel hin]
    refine ⟨?_,rfl⟩
    rw [drawnSince]
    dsimp only
    rw [List.drop_left]
    rfl

/-- A sum that leaves the word size and comes back onto the surface is drawn
where nobody asked for it. -/
theorem not_drawsAsAsked_of_wrapped (env : NetEnv) {conn : Conn} (hr : RingInv conn.reader.ring)
    (cmd : SetCommand) {rest : List UInt8} (hrest : 0<blanks rest)
    (hcont : content conn.reader.ring=cmd.bytes rest)
    (hsize : conn.session.fb.size.width.toNat*conn.session.fb.size.height.toNat<2^32)
    (hbig : ¬(cmd.x+conn.session.offsetX.toNat<2^32 ∧ cmd.y+conn.session.offsetY.toNat<2^32))
    (hin : wrapped cmd.x conn.session.offsetX<conn.session.fb.size.width.toNat ∧
      wrapped cmd.y conn.session.offsetY<conn.session.fb.size.height.toNat) :
    ¬DrawsAsAsked conn.session (netIteration env conn).2.session cmd.x cmd.y := by
  have hdraws := set_draws env hr cmd hrest hcont hsize
  have hw := conn.session.fb.size.width.toNat_lt
  have hh := conn.session.fb.size.height.toNat_lt
  rw [if_pos hin] at hdraws
  intro h
  unfold DrawsAsAsked at h
  rw [if_neg (by omega),hdraws.1] at h
  cases h.1

/-- A set draws as asked exactly if neither sum leaves the word size, or the
wrapped sums are not both on the surface. -/
theorem set_drawsAsAsked_iff (env : NetEnv) {conn : Conn} (hr : RingInv conn.reader.ring)
    (cmd : SetCommand) {rest : List UInt8} (hrest : 0<blanks rest)
    (hcont : content conn.reader.ring=cmd.bytes rest)
    (hsize : conn.session.fb.size.width.toNat*conn.session.fb.size.height.toNat<2^32) :
    DrawsAsAsked conn.session (netIteration env conn).2.session cmd.x cmd.y ↔
      (cmd.x+conn.session.offsetX.toNat<2^32 ∧ cmd.y+conn.session.offsetY.toNat<2^32) ∨
      ¬((cmd.x+conn.session.offsetX.toNat)%2^32<conn.session.fb.size.width.toNat ∧
        (cmd.y+conn.session.offsetY.toNat)%2^32<conn.session.fb.size.height.toNat) := by
  have hdraws := set_draws env hr cmd hrest hcont hsize
  have hw := conn.session.fb.size.width.toNat_lt
  have hh := conn.session.fb.size.height.toNat_lt
  unfold wrapped at hdraws
  by_cases hin : (cmd.x+conn.session.offsetX.toNat)%2^32<conn.session.fb.size.width.toNat ∧
      (cmd.y+conn.session.offsetY.toNat)%2^32<conn.session.fb.size.height.toNat
  · rw [if_pos hin] at hdraws
    obtain ⟨hdrawn,hpixels⟩ := hdraws
    constructor
    · intro h
      refine Or.inl ?_
      by_contra hbig
      exact not_drawsAsAsked_of_wrapped env hr cmd hrest hcont hsize hbig hin h
    · rintro (⟨hx,hy⟩ | hout)
      · unfold DrawsAsAsked
        rw [Nat.mod_eq_of_lt hx,Nat.mod_eq_of_lt hy] at hin hdrawn hpixels
        rw [if_pos hin]
        exact ⟨hdrawn,hpixels⟩
      · exact absurd hin hout
  · rw [if_neg hin] at hdraws
    constructor
    · intro _
      exact Or.inr hin
    · intro _
      unfold DrawsAsAsked
      rw [if_neg fun hnat => hin ?_]
      · exact hdraws
      · rw [Nat.mod_eq_of_lt (by omega),Nat.mod_eq_of_lt (by omega)]
        exact hnat

/-- A set in red with single blanks. -/
def redSet (xDigits yDigits : List ℕ) (hx : xDigits≠[] ∧ xDigits.length≤32 ∧ ∀ d∈xDigits,d<10)
    (hy : yDigits≠[] ∧ yDigits.length≤32 ∧ ∀ d∈yDigits,d<10) : SetCommand where
  args := .plain (word_digits hx.1 hx.2.1 hx.2.2) (word_digits hy.1 hy.2.1 hy.2.2)
  xDigits := xDigits
  yDigits := yDigits
  x_lt := hx.2.2
  y_lt := hy.2.2
  x_word := rfl
  y_word := rfl
  run := [0x20]
  run_gap := gap_blank
  run_open := rfl
  colour := [0x66,0x66,0x30,0x30,0x30,0x30]
  colour_word := word_of_any (List.cons_ne_nil _ _) (by decide) rfl

/-- `PX 1 2 ff0000` on a surface of four by four pixels. -/
theorem set_drawsAsAsked_small :
    let cmd := redSet [1] [2] (by decide) (by decide)
    let conn := holdingConn (cmd.bytes [0x0a]) 0 (freshSession (blankFb 4 4))
    DrawsAsAsked conn.session (netIteration (plainEnv 4 4) conn).2.session cmd.x cmd.y :=
  (set_drawsAsAsked_iff (plainEnv 4 4) (holdingConn_spec _ 0 _).1
    (redSet [1] [2] (by decide) (by decide)) (by decide : 0<blanks [0x0a])
    (holdingConn_spec _ 0 _).2.1 (by decide)).mpr (Or.inl (by decide))

/-- `PX 4294967296 0 ff0000` draws in the corner of that surface. -/
theorem set_draws_wrapped :
    let cmd := redSet [4,2,9,4,9,6,7,2,9,6] [0] (by decide) (by decide)
    let conn := holdingConn (cmd.bytes [0x0a]) 0 (freshSession (blankFb 4 4))
    ¬DrawsAsAsked conn.session (netIteration (plainEnv 4 4) conn).2.session cmd.x cmd.y := by
  refine not_drawsAsAsked_of_wrapped (plainEnv 4 4) (holdingConn_spec _ 0 _).1 _
    (by decide : 0<blanks [0x0a]) (holdingConn_spec _ 0 _).2.1 (by decide) ?_ ?_
  · decide +kernel
  · decide +kernel

end Shoreline.Coordinates
