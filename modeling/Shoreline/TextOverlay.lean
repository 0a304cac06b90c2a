import Shoreline.DrawBitmap
import Shoreline.Library.Overwriting

/-!
# The texts on the screen

A text is drawn over a rectangle that is cleared before, in two passes over its
characters: one that measures the rectangle and one that draws the glyphs. All of
it overwrites fixed places of the framebuffer with fixed pixels. The main loop and
the VNC frontend draw the same texts several times.
-/

namespace Shoreline.TextOverlay

open Framebuffer Addressing ClearRect DrawBitmap Overwriting

/-- What is used of `FT_GlyphSlot` behind `FT_Load_Char`. -/
structure FTGlyphSlot where
  bitmap : FTBitmap
  bitmapTop : Int32
  bitmapLeft : Int32
  /-- `metrics.width`. -/
  metricsWidth : ℤ
  /-- `metrics.height`. -/
  metricsHeight : ℤ
  /-- `advance.x`. -/
  advanceX : ℤ
  /-- `advance.y`. -/
  advanceY : ℤ

/-- `FT_Face`: `FT_Set_Char_Size`, and `FT_Load_Char` with the size that was set. -/
structure FTFace where
  setCharSize : UInt32 → ℤ
  loadChar : UInt32 → UInt8 → Except ℤ FTGlyphSlot

/-- `PIXEL_TO_CARTESIAN`. -/
def PIXEL_TO_CARTESIAN (x : UInt32) : UInt32 := 64*x

/-- `CARTESIAN_TO_PIXELS`. -/
def CARTESIAN_TO_PIXELS (x : ℤ) : ℤ := x.tdiv 64

/-- `FT_Vector`. -/
structure FTVector where
  x : ℤ
  y : ℤ

/-- The pen behind a glyph. -/
def FTVector.advance (ftpen : FTVector) (ftslot : FTGlyphSlot) : FTVector :=
  ⟨ftpen.x+ftslot.advanceX,ftpen.y+ftslot.advanceY⟩

/-- The rectangle so far. -/
structure Extent where
  xmin : UInt32
  ymin : UInt32
  xmax : UInt32
  ymax : UInt32

/-- `min` of an unsigned number and a long one, stored as unsigned. -/
def leastOf (a : UInt32) (b : ℤ) : UInt32 := if (a.toNat : ℤ)<b then a else UInt32.ofInt b

/-- `max`. -/
def greatestOf (a : UInt32) (b : ℤ) : UInt32 := if (a.toNat : ℤ)>b then a else UInt32.ofInt b

/-- The rectangle with a glyph. -/
def Extent.add (extent : Extent) (x y : UInt32) (ftpen : FTVector) (ftslot : FTGlyphSlot) : Extent :=
  ⟨leastOf extent.xmin (x.toNat+CARTESIAN_TO_PIXELS ftpen.x),
    leastOf extent.ymin (y.toNat+CARTESIAN_TO_PIXELS ftpen.y-ftslot.bitmapTop.toInt),
    greatestOf extent.xmax (x.toNat+CARTESIAN_TO_PIXELS ftpen.x+
      CARTESIAN_TO_PIXELS ftslot.metricsWidth+ftslot.bitmapLeft.toInt),
    greatestOf extent.ymax (y.toNat+CARTESIAN_TO_PIXELS ftpen.y+
      CARTESIAN_TO_PIXELS ftslot.metricsHeight-ftslot.bitmapTop.toInt)⟩

/-- The loop that measures: the last error and the rectangle. -/
def measureLoop (face : FTFace) (size x y : UInt32) : List UInt8 → ℤ → FTVector → Extent → ℤ×Extent
  | [],err,_,extent => (err,extent)
  | c::text,err,ftpen,extent =>
    match face.loadChar size c with
    | .error fterr => measureLoop face size x y text fterr ftpen extent
    | .ok ftslot =>
      measureLoop face size x y text err (ftpen.advance ftslot) (extent.add x y ftpen ftslot)

/-- The loop that draws: the last error and the framebuffer. -/
def drawLoop (host : Host) (face : FTFace) (size x y : UInt32) :
    List UInt8 → ℤ → FTVector → Fb → ℤ×Fb
  | [],err,_,fb => (err,fb)
  | c::text,err,ftpen,fb =>
    match face.loadChar size c with
    | .error fterr => drawLoop host face size x y text fterr ftpen fb
    | .ok ftslot =>
      drawLoop host face size x y text err (ftpen.advance ftslot)
        (drawGlyph host fb ftslot.bitmap (UInt32.ofInt (x.toNat+CARTESIAN_TO_PIXELS ftpen.x))
          (UInt32.ofInt (y.toNat+CARTESIAN_TO_PIXELS ftpen.y)) ftslot.bitmapTop).2

/-- `textrender_draw_string`. -/
def textrenderDrawString (host : Host) (face : FTFace) (fb : Fb) (x y : UInt32) (text : List UInt8)
    (size : UInt32) : ℤ×Fb :=
  let cartesian := PIXEL_TO_CARTESIAN size
  let fterr := face.setCharSize cartesian
  if fterr≠0 then (fterr,fb)
  else
    let measured := measureLoop face cartesian x y text 0 ⟨0,0⟩ ⟨x,y,x,y⟩
    let extent := measured.2
    let cleared := fbClearRect fb extent.xmin extent.ymin (extent.xmax-extent.xmin)
      (extent.ymax-extent.ymin)
    drawLoop host face cartesian x y text measured.1 ⟨0,0⟩ cleared.fb

/-- What is drawn on the screen: `txtrndr` if there is one, `description`, and
`stat_line` in a build with statistics. -/
structure Overlays where
  txtrndr : Option FTFace
  description : List UInt8
  statLine : Option (List UInt8)

/-- `draw_overlays`. -/
def drawOverlays (host : Host) (overlays : Overlays) (fb : Fb) : Fb :=
  match overlays.txtrndr with
  | none => fb
  | some txtrndr =>
    let fb := (textrenderDrawString host txtrndr fb 100 (fb.size.height/20) overlays.description 16).2
    match overlays.statLine with
    | none => fb
    | some line =>
      (textrenderDrawString host txtrndr fb 100 (fb.size.height-fb.size.height/10) line 16).2

/-- What the main loop draws in every round: the overlays, and the same texts once
more. -/
def mainLoopDraws (host : Host) (overlays : Overlays) (fb : Fb) : Fb :=
  let fb := drawOverlays host overlays fb
  match overlays.txtrndr with
  | none => fb
  | some txtrndr =>
    let fb := (textrenderDrawString host txtrndr fb 100 (fb.size.height/20) overlays.description 16).2
    match overlays.statLine with
    | none => fb
    | some line =>
      (textrenderDrawString host txtrndr fb 100 (fb.size.height-fb.size.height/10) line 16).2

/-- On framebuffers of a size, a change overwrites fixed places, and keeps everything
but pixels. -/
def Stamps (size : FbSize) (change : Fb → Fb) : Prop :=
  ∃ f, Overwrites f ∧ ∀ fb : Fb, fb.size=size → change fb={fb with pixels := f fb.pixels}

variable {host : Host} {size : FbSize} {fb : Fb} {change change' : Fb → Fb}

/-- To change nothing. -/
theorem Stamps.id (size : FbSize) : Stamps size fun fb => fb := ⟨_,Overwrites.id,fun _ _ => rfl⟩

/-- One change behind another. -/
theorem Stamps.comp (h' : Stamps size change') (h : Stamps size change) :
    Stamps size fun fb => change' (change fb) := by
  obtain ⟨f,hf,hchange⟩ := h
  obtain ⟨f',hf',hchange'⟩ := h'
  exact ⟨_,hf'.comp hf,fun fb hfb => (congrArg change' (hchange fb hfb)).trans
    (hchange' {fb with pixels := f fb.pixels} hfb)⟩

/-- A change that is one of framebuffers of the same size. -/
theorem Stamps.congr (h : Stamps size change)
    (heq : ∀ fb : Fb, fb.size=size → change' fb=change fb) : Stamps size change' := by
  obtain ⟨f,hf,hchange⟩ := h
  exact ⟨f,hf,fun fb hfb => (heq fb hfb).trans (hchange fb hfb)⟩

/-- The size is kept. -/
theorem Stamps.size_eq (h : Stamps size change) (hfb : fb.size=size) : (change fb).size=size := by
  obtain ⟨f,_,hchange⟩ := h
  rw [hchange fb hfb]
  exact hfb

/-- A rectangle that is cleared. -/
theorem stamps_fbClearRect (size : FbSize) (x y width height : UInt32) :
    Stamps size fun fb => (fbClearRect fb x y width height).fb := by
  let spans := rowSpans size.height (lineSpan (obtained size) x width) y height.toNat
  refine ⟨fun pixels => spans.foldl zeroSpan pixels,Overwrites.foldl fun span _ => ?_,
    fun fb hfb => ?_⟩
  · exact Overwrites.ite span.Covers fun _ => blank
  · have hspan : lineSpan fb x width=lineSpan (obtained size) x width := by
      funext line
      rw [lineSpan,lineSpan,fbGetLineBase,fbGetLineBase,hfb]
      rfl
    have hclear := congrArg Cleared.fb (clearLoop_eq x y width height.toNat ⟨fb,[]⟩)
    have hspans : rowSpans fb.size.height (lineSpan fb x width) y height.toNat=spans := by
      rw [hspan,hfb]
    dsimp only at hclear
    rw [hspans] at hclear
    exact hclear

/-- A row of a glyph. -/
theorem stamps_columnLoop (host : Host) (size : FbSize) (x : UInt32) (lineStart : ℕ)
    (grayBase : ℕ → UInt8) (n : ℕ) : Stamps size (columnLoop host x lineStart grayBase n 0) := by
  refine ⟨_,Overwrites.ite (fun k => lineStart+0 ≤ k ∧ k < lineStart+0+n ∧
    x.toNat+(k-lineStart) < size.width.toNat) fun k => shade host (grayBase (k-lineStart)),
    fun fb hfb => ?_⟩
  rw [columnLoop_eq,hfb]

/-- The rows of a glyph. -/
theorem stamps_rowLoop (host : Host) (size : FbSize) (ftbmp : FTBitmap) (x y : UInt32) (n i : ℕ) :
    Stamps size (rowLoop host ftbmp x y n i) := by
  induction n generalizing i with
  | zero => exact Stamps.id size
  | succ n ih =>
    refine (ih (i+1)).comp ?_
    by_cases hrow : y.toNat+i < size.height.toNat
    · refine (stamps_columnLoop host size x ((size.width*UInt32.ofNat (y.toNat+i)).toNat+x.toNat)
        (fun j => ftbmp.buffer (ftbmp.width.toNat*i+j)) ftbmp.width.toNat).congr fun fb hfb => ?_
      rw [hfb,if_pos hrow,fbGetLineBase,hfb]
    · refine (Stamps.id size).congr fun fb hfb => ?_
      rw [hfb,if_neg hrow]

/-- A glyph. -/
theorem stamps_drawGlyph (host : Host) (size : FbSize) (ftbmp : FTBitmap) (x y : UInt32)
    (top : Int32) : Stamps size fun fb => (drawGlyph host fb ftbmp x y top).2 := by
  by_cases hgray : ftbmp.pixelMode=FT_PIXEL_MODE_GRAY
  · refine (stamps_rowLoop host size ftbmp x (y-top.toUInt32) ftbmp.rows.toNat 0).congr
      fun fb _ => ?_
    rw [drawGlyph_eq hgray]
  · refine (Stamps.id size).congr fun fb _ => ?_
    rw [drawGlyph,drawBitmap]
    exact congrArg Prod.snd (if_pos hgray)

/-- The glyphs of a text. -/
theorem stamps_drawLoop (host : Host) (surface : FbSize) (face : FTFace) (size x y : UInt32)
    (text : List UInt8) (err : ℤ) (ftpen : FTVector) :
    Stamps surface fun fb => (drawLoop host face size x y text err ftpen fb).2 := by
  induction text generalizing err ftpen with
  | nil => exact Stamps.id surface
  | cons c text ih =>
    cases hload : face.loadChar size c with
    | error fterr =>
      refine (ih fterr ftpen).congr fun fb _ => ?_
      rw [drawLoop,hload]
    | ok ftslot =>
      refine ((ih err (ftpen.advance ftslot)).comp (stamps_drawGlyph host surface ftslot.bitmap
        (UInt32.ofInt (x.toNat+CARTESIAN_TO_PIXELS ftpen.x))
        (UInt32.ofInt (y.toNat+CARTESIAN_TO_PIXELS ftpen.y)) ftslot.bitmapTop)).congr fun fb _ => ?_
      rw [drawLoop,hload]

/-- A text. -/
theorem stamps_textrenderDrawString (host : Host) (surface : FbSize) (face : FTFace) (x y : UInt32)
    (text : List UInt8) (size : UInt32) :
    Stamps surface fun fb => (textrenderDrawString host face fb x y text size).2 := by
  by_cases hsize : face.setCharSize (PIXEL_TO_CARTESIAN size)=0
  · let measured := measureLoop face (PIXEL_TO_CARTESIAN size) x y text 0 ⟨0,0⟩ ⟨x,y,x,y⟩
    refine ((stamps_drawLoop host surface face (PIXEL_TO_CARTESIAN size) x y text measured.1
      ⟨0,0⟩).comp (stamps_fbClearRect surface measured.2.xmin measured.2.ymin
        (measured.2.xmax-measured.2.xmin) (measured.2.ymax-measured.2.ymin))).congr fun fb _ => ?_
    exact congrArg Prod.snd (if_neg (not_not.mpr hsize))
  · refine (Stamps.id surface).congr fun fb _ => ?_
    exact congrArg Prod.snd (if_pos hsize)

/-- The overlays. -/
theorem stamps_drawOverlays (host : Host) (overlays : Overlays) (size : FbSize) :
    Stamps size (drawOverlays host overlays) := by
  cases hface : overlays.txtrndr with
  | none =>
    refine (Stamps.id size).congr fun fb _ => ?_
    rw [drawOverlays,hface]
  | some txtrndr =>
    have hdescription := stamps_textrenderDrawString host size txtrndr 100 (size.height/20)
      overlays.description 16
    cases hline : overlays.statLine with
    | none =>
      refine hdescription.congr fun fb hfb => ?_
      rw [drawOverlays,hface,hline,←hfb]
    | some line =>
      refine ((stamps_textrenderDrawString host size txtrndr 100 (size.height-size.height/10) line
        16).comp hdescription).congr fun fb hfb => ?_
      have hdrawn := hdescription.size_eq hfb
      rw [drawOverlays,hface,hline]
      dsimp only
      rw [hfb,hdrawn]

/-- The main loop draws the overlays twice. -/
theorem mainLoopDraws_eq (host : Host) (overlays : Overlays) (fb : Fb) :
    mainLoopDraws host overlays fb=drawOverlays host overlays (drawOverlays host overlays fb) := by
  cases hface : overlays.txtrndr with
  | none => simp only [mainLoopDraws,drawOverlays,hface]
  | some txtrndr => cases hline : overlays.statLine <;> simp only [mainLoopDraws,drawOverlays,hface,hline]

/-- There are places and pixels, given by the texts, the font and the size of the
surface, so that the overlays put these pixels at these places of any picture and
keep the rest of it. It does not matter how often they are drawn, and what the main
loop draws is the same. -/
theorem overlays_places (host : Host) (overlays : Overlays) (fb : Fb) :
    ∃ places : ℕ → Option FbPixel, ∀ pixels n,
      Nat.iterate (drawOverlays host overlays) (n+1) {fb with pixels := pixels}=
          {fb with pixels := fun k => (places k).getD (pixels k)} ∧
        mainLoopDraws host overlays {fb with pixels := pixels}=
          {fb with pixels := fun k => (places k).getD (pixels k)} := by
  obtain ⟨f,hf,hchange⟩ := stamps_drawOverlays host overlays fb.size
  obtain ⟨places,hplaces⟩ := hf.exists_places
  have hdrawn : ∀ pixels, drawOverlays host overlays {fb with pixels := pixels}=
      {fb with pixels := f pixels} := fun pixels => hchange {fb with pixels := pixels} rfl
  have hpixels : ∀ pixels, f pixels=fun k => (places k).getD (pixels k) := fun pixels =>
    funext (hplaces pixels)
  have hiterate : ∀ n pixels, Nat.iterate (drawOverlays host overlays) n {fb with pixels := pixels}=
      {fb with pixels := Nat.iterate f n pixels} := by
    intro n
    induction n with
    | zero => exact fun _ => rfl
    | succ n ih =>
      intro pixels
      rw [Function.iterate_succ_apply,hdrawn,ih,Function.iterate_succ_apply]
  refine ⟨places,fun pixels n => ⟨?_,?_⟩⟩
  · rw [hiterate,hf.iterate,hpixels]
  · rw [mainLoopDraws_eq,hdrawn,hdrawn,hf.again,hpixels]

/-- The smaller of a number and one that is not smaller. -/
theorem leastOf_add {x : UInt32} {p : ℤ} (hp : 0≤p) : leastOf x (x.toNat+p)=x := by
  rw [leastOf]
  split
  · rfl
  · have hzero : p=0 := by omega
    have hlt := x.toNat_lt
    rw [hzero,add_zero,←UInt32.toNat_inj,UInt32.ofInt,UInt32.toNat_ofNat']
    omega

/-- The font of a text never steps back. -/
def StepsForward (face : FTFace) : Prop :=
  ∀ size c ftslot, face.loadChar size c=.ok ftslot → 0≤ftslot.advanceX

/-- The rectangle of a text then starts where the text does. -/
theorem measureLoop_xmin {face : FTFace} (hface : StepsForward face) (size x y : UInt32)
    (text : List UInt8) (err : ℤ) {ftpen : FTVector} (hpen : 0≤ftpen.x) {extent : Extent}
    (hx : extent.xmin=x) : (measureLoop face size x y text err ftpen extent).2.xmin=x := by
  induction text generalizing err ftpen extent with
  | nil => exact hx
  | cons c text ih =>
    rw [measureLoop]
    cases hload : face.loadChar size c with
    | error fterr => exact ih fterr hpen hx
    | ok ftslot =>
      refine ih err (Int.add_nonneg hpen (hface size c ftslot hload)) ?_
      rw [Extent.add,hx]
      exact leastOf_add (Int.tdiv_nonneg hpen (by decide))

section Inside

variable {k : ℕ}

/-- What is cleared from a column of the surface on is in the surface. -/
theorem fbClearRect_outside (hsize : fb.size.width.toNat*fb.size.height.toNat<2^32) {x : UInt32}
    (hx : x≤fb.size.width) (y width height : UInt32)
    (hk : fb.size.width.toNat*fb.size.height.toNat≤k) :
    (fbClearRect fb x y width height).fb.pixels k=fb.pixels k := by
  refine (fbClearRect_pixels fb x y width height k).2 fun ⟨span,hspan,hcovers⟩ => ?_
  rw [fbClearRect,clearLoop_eq,List.nil_append,mem_rowSpans] at hspan
  obtain ⟨row,_,hline,rfl⟩ := hspan
  generalize y+UInt32.ofNat row=line at hline hcovers
  dsimp only at hline
  have hlt := UInt32.lt_iff_toNat_lt.mp hline
  have hrows := Nat.mul_le_mul_left fb.size.width.toNat hlt
  rw [Nat.mul_succ] at hrows
  have hbase : fbGetLineBase fb line=fb.size.width.toNat*line.toNat := by
    rw [fbGetLineBase,UInt32.toNat_mul]
    exact Nat.mod_eq_of_lt (by omega)
  have hcolumn := UInt32.le_iff_toNat_le.mp hx
  have hhigh := hcovers.2
  dsimp only [lineSpan] at hhigh
  rw [hbase,clearCount_of_le width hx] at hhigh
  omega

/-- A glyph is drawn in the surface. -/
theorem drawGlyph_outside (hsize : fb.size.width.toNat*fb.size.height.toNat<2^32) (ftbmp : FTBitmap)
    (x y : UInt32) (top : Int32) (hk : fb.size.width.toNat*fb.size.height.toNat≤k) :
    (drawGlyph host fb ftbmp x y top).2.pixels k=fb.pixels k := by
  by_cases hgray : ftbmp.pixelMode=FT_PIXEL_MODE_GRAY
  · rw [drawGlyph_eq hgray]
    exact rowLoop_outside hsize hk _ _
  · rw [drawGlyph,drawBitmap,if_pos hgray]

/-- So are those of a text. -/
theorem drawLoop_outside (face : FTFace) (size x y : UInt32) (text : List UInt8) (err : ℤ)
    (ftpen : FTVector) (hsize : fb.size.width.toNat*fb.size.height.toNat<2^32)
    (hk : fb.size.width.toNat*fb.size.height.toNat≤k) :
    (drawLoop host face size x y text err ftpen fb).2.pixels k=fb.pixels k := by
  induction text generalizing err ftpen fb with
  | nil => rfl
  | cons c text ih =>
    rw [drawLoop]
    cases face.loadChar size c with
    | error fterr => exact ih fterr ftpen hsize hk
    | ok ftslot =>
      have hfb := @Stamps.size_eq fb.size fb _ (stamps_drawGlyph host fb.size ftslot.bitmap
        (UInt32.ofInt (x.toNat+CARTESIAN_TO_PIXELS ftpen.x))
        (UInt32.ofInt (y.toNat+CARTESIAN_TO_PIXELS ftpen.y)) ftslot.bitmapTop) rfl
      dsimp only at hfb ⊢
      refine (ih err _ ?_ ?_).trans (drawGlyph_outside hsize _ _ _ _ hk)
      · rw [hfb]
        exact hsize
      · rw [hfb]
        exact hk

/-- A text that starts in a column of the surface is drawn in it. -/
theorem textrenderDrawString_outside {face : FTFace} (hface : StepsForward face)
    (hsize : fb.size.width.toNat*fb.size.height.toNat<2^32) {x : UInt32} (hx : x≤fb.size.width)
    (y : UInt32) (text : List UInt8) (size : UInt32)
    (hk : fb.size.width.toNat*fb.size.height.toNat≤k) :
    (textrenderDrawString host face fb x y text size).2.pixels k=fb.pixels k := by
  rw [textrenderDrawString]
  dsimp only
  split
  · rfl
  · have hxmin := @measureLoop_xmin face hface (PIXEL_TO_CARTESIAN size) x y text 0 ⟨0,0⟩ (le_refl 0)
      ⟨x,y,x,y⟩ rfl
    generalize measureLoop face (PIXEL_TO_CARTESIAN size) x y text 0 ⟨0,0⟩ ⟨x,y,x,y⟩=measured
      at hxmin ⊢
    have hfb := @Stamps.size_eq fb.size fb _ (stamps_fbClearRect fb.size measured.2.xmin
      measured.2.ymin (measured.2.xmax-measured.2.xmin) (measured.2.ymax-measured.2.ymin)) rfl
    refine (drawLoop_outside face _ x y text _ _ ?_ ?_).trans
      (fbClearRect_outside hsize (by rwa [hxmin]) _ _ _ hk)
    · rw [hfb]
      exact hsize
    · rw [hfb]
      exact hk

end Inside

/-- On a surface of at least a hundred columns the overlays leave all memory behind the
surface alone, whatever the texts are, if the font never steps back. -/
theorem overlays_inside (host : Host) (overlays : Overlays) (fb : Fb)
    (hface : ∀ face∈overlays.txtrndr,StepsForward face)
    (hsize : fb.size.width.toNat*fb.size.height.toNat<2^32) (hwidth : 100≤fb.size.width) {k : ℕ}
    (hk : fb.size.width.toNat*fb.size.height.toNat≤k) :
    (drawOverlays host overlays fb).pixels k=fb.pixels k := by
  rw [drawOverlays]
  cases htxtrndr : overlays.txtrndr with
  | none => rfl
  | some txtrndr =>
    have hforward := hface txtrndr htxtrndr
    have hfirst := @textrenderDrawString_outside host fb k txtrndr hforward hsize 100 hwidth
      (fb.size.height/20) overlays.description 16 hk
    have hfb := @Stamps.size_eq fb.size fb _ (stamps_textrenderDrawString host fb.size txtrndr 100
      (fb.size.height/20) overlays.description 16) rfl
    dsimp only at hfb ⊢
    cases overlays.statLine with
    | none => exact hfirst
    | some line =>
      dsimp only
      rw [textrenderDrawString_outside hforward (by rw [hfb]; exact hsize) (by rw [hfb]; exact hwidth)
        _ _ _ (by rw [hfb]; exact hk)]
      exact hfirst

/-- A font in which every character is a gray pixel. -/
def dots : FTFace := ⟨fun _ => 0,fun _ _ => .ok ⟨⟨1,1,FT_PIXEL_MODE_GRAY,fun _ => 0x80⟩,1,0,64,64,128,0⟩⟩

/-- Memory behind a surface of 100 by 40 pixels. -/
theorem overlays_inside_dots :
    (drawOverlays .littleEndian ⟨some dots,[0x61,0x62],none⟩ (obtained ⟨100,40⟩)).pixels 4000=
      (obtained ⟨100,40⟩).pixels 4000 := by
  refine overlays_inside .littleEndian ⟨some dots,[0x61,0x62],none⟩ (obtained ⟨100,40⟩) ?_
    (by decide) (by decide) (by decide)
  intro face hface size c ftslot hload
  cases hface
  cases hload
  decide

end Shoreline.TextOverlay
