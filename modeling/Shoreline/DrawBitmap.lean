import Shoreline.ClearRect

/-!
# Drawing a glyph

The row of a glyph on the surface is the row of the baseline less the height
of the glyph above it, in 32-bit arithmetic, and a counter that is added in 64
bits. For a glyph that reaches above the first row the subtraction wraps and
the addition does not wrap back, so not only the rows above the surface are
left out but the visible ones too.
-/

namespace Shoreline.DrawBitmap

open Framebuffer Coordinates Addressing ClearRect

/-- `FT_PIXEL_MODE_GRAY`. -/
def FT_PIXEL_MODE_GRAY : UInt8 := 2

/-- What is used of `FT_Bitmap`. -/
structure FTBitmap where
  rows : UInt32
  width : UInt32
  pixelMode : UInt8
  buffer : ℕ → UInt8

/-- `FB_GRAY8_TO_PIXEL`. -/
def FB_GRAY8_TO_PIXEL (c : UInt8) : UInt32 :=
  (0x000000ff : UInt32) ||| (c.toUInt32 <<< 24) ||| (c.toUInt32 <<< 16) ||| (c.toUInt32 <<< 8)

/-- The pixel that is stored for a gray value. -/
def shade (host : Host) (c : UInt8) : FbPixel := FbPixel.ofAbgr host (FB_GRAY8_TO_PIXEL c)

/-- The loop over the columns of a row, from `j` with so many to go. The column
is compared in 64 bits. -/
def columnLoop (host : Host) (x : UInt32) (lineStart : ℕ) (grayBase : ℕ → UInt8) :
    ℕ → ℕ → Fb → Fb
  | 0,_,fb => fb
  | n+1,j,fb =>
    columnLoop host x lineStart grayBase n (j+1)
      (if x.toNat+j<fb.size.width.toNat then
        {fb with pixels := writePixel fb.pixels (lineStart+j) (shade host (grayBase j))}
      else fb)

/-- The loop over the rows, from `i` with so many to go. The row is compared in
64 bits and cut off to 32 bits for the base of its line. -/
def rowLoop (host : Host) (ftbmp : FTBitmap) (x y : UInt32) : ℕ → ℕ → Fb → Fb
  | 0,_,fb => fb
  | n+1,i,fb =>
    let lineBase := fbGetLineBase fb (UInt32.ofNat (y.toNat+i))
    let lineStart := lineBase+x.toNat
    let grayBase := fun j => ftbmp.buffer (ftbmp.width.toNat*i+j)
    rowLoop host ftbmp x y n (i+1)
      (if y.toNat+i<fb.size.height.toNat then
        columnLoop host x lineStart grayBase ftbmp.width.toNat 0 fb
      else fb)

/-- `draw_bitmap`. -/
def drawBitmap (host : Host) (fb : Fb) (ftbmp : FTBitmap) (x y base : UInt32) : ℤ×Fb :=
  let y := y-base
  if ftbmp.pixelMode≠FT_PIXEL_MODE_GRAY then (-EINVAL,fb)
  else (0,rowLoop host ftbmp x y ftbmp.rows.toNat 0 fb)

/-- The framebuffer after `textrender_draw_string` has drawn a glyph, which passes
the signed `bitmap_top` as the unsigned base. -/
def drawGlyph (host : Host) (fb : Fb) (ftbmp : FTBitmap) (x y : UInt32) (top : Int32) : ℤ×Fb :=
  drawBitmap host fb ftbmp x y top.toUInt32

/-- Row `i` and column `j` of the bitmap are at this place of the surface, in integers. -/
structure CellAt (ftbmp : FTBitmap) (x y : UInt32) (top : Int32) (px py : UInt32) (i j : ℕ) :
    Prop where
  /-- The row is one of the bitmap. -/
  row : i<ftbmp.rows.toNat
  /-- The column is one of the bitmap. -/
  column : j<ftbmp.width.toNat
  /-- The column of the place. -/
  px_eq : (px.toNat : ℤ)=x.toNat+j
  /-- The row of the place. -/
  py_eq : (py.toNat : ℤ)=y.toNat-top.toInt+i

/-- The gray value of a cell. -/
def FTBitmap.gray (ftbmp : FTBitmap) (i j : ℕ) : UInt8 := ftbmp.buffer (ftbmp.width.toNat*i+j)

/-- Exactly the visible part of the bitmap is drawn. -/
structure DrawsVisible (host : Host) (fb : Fb) (ftbmp : FTBitmap) (x y : UInt32) (top : Int32) :
    Prop where
  /-- No error is returned. -/
  result : (drawGlyph host fb ftbmp x y top).1=0
  /-- The framebuffer keeps everything but its pixels. -/
  frame : (drawGlyph host fb ftbmp x y top).2=
    {fb with pixels := (drawGlyph host fb ftbmp x y top).2.pixels}
  /-- A pixel of the surface with a cell shows the gray value of the cell. -/
  drawn : ∀ px py,fb.size.Contains px py → ∀ i j,CellAt ftbmp x y top px py i j →
    (drawGlyph host fb ftbmp x y top).2.pixels (fbIndex fb px py)=shade host (ftbmp.gray i j)
  /-- A pixel of the surface without a cell is unchanged. -/
  kept : ∀ px py,fb.size.Contains px py → (¬∃ i j,CellAt ftbmp x y top px py i j) →
    (drawGlyph host fb ftbmp x y top).2.pixels (fbIndex fb px py)=fb.pixels (fbIndex fb px py)
  /-- Memory that is no pixel of the surface is unchanged. -/
  outside : ∀ k,(∀ px py,fb.size.Contains px py → fbIndex fb px py≠k) →
    (drawGlyph host fb ftbmp x y top).2.pixels k=fb.pixels k

/-- Every visible cell of the bitmap is on the surface already. -/
def ShownAlready (host : Host) (fb : Fb) (ftbmp : FTBitmap) (x y : UInt32) (top : Int32) : Prop :=
  ∀ px py,fb.size.Contains px py → ∀ i j,CellAt ftbmp x y top px py i j →
    fb.pixels (fbIndex fb px py)=shade host (ftbmp.gray i j)

/-- A bitmap that ends above the first row is, as it has no visible cell. -/
theorem shownAlready_of_above {host : Host} {fb : Fb} {ftbmp : FTBitmap} {x y : UInt32}
    {top : Int32} (h : (y.toNat : ℤ)+ftbmp.rows.toNat≤top.toInt) :
    ShownAlready host fb ftbmp x y top := by
  intro px py _ i j hcell
  have hrow := hcell.row
  have hpy := hcell.py_eq
  omega

/-- A row that is drawn changes the cells of its columns on the surface. -/
theorem columnLoop_eq (host : Host) (x : UInt32) (lineStart : ℕ) (grayBase : ℕ → UInt8)
    (n j : ℕ) (fb : Fb) :
    columnLoop host x lineStart grayBase n j fb=
      {fb with pixels := fun k =>
        if lineStart+j≤k ∧ k<lineStart+j+n ∧ x.toNat+(k-lineStart)<fb.size.width.toNat then
          shade host (grayBase (k-lineStart))
        else fb.pixels k} := by
  induction n generalizing j fb with
  | zero =>
    have hnone : ∀ k,¬(lineStart+j≤k ∧ k<lineStart+j+0 ∧
        x.toNat+(k-lineStart)<fb.size.width.toNat) := by
      intro k hk
      omega
    simp only [columnLoop,hnone,if_false]
  | succ n ih =>
    rw [columnLoop,ih]
    by_cases hcol : x.toNat+j<fb.size.width.toNat
    · rw [if_pos hcol]
      congr 1
      funext k
      dsimp only [writePixel]
      by_cases hk : k=lineStart+j
      · -- the columns after this one do not write here
        have hsub : k-lineStart=j := by omega
        rw [if_neg (by omega),if_pos hk,hsub,if_pos (by omega)]
      · rw [if_neg hk]
        by_cases hlater : lineStart+(j+1)≤k ∧ k<lineStart+(j+1)+n ∧
            x.toNat+(k-lineStart)<fb.size.width.toNat
        · rw [if_pos hlater,if_pos (by omega)]
        · rw [if_neg hlater,if_neg (by omega)]
    · rw [if_neg hcol]
      congr 1
      funext k
      by_cases hlater : lineStart+(j+1)≤k ∧ k<lineStart+(j+1)+n ∧
          x.toNat+(k-lineStart)<fb.size.width.toNat
      · rw [if_pos hlater,if_pos (by omega)]
      · rw [if_neg hlater,if_neg]
        rintro ⟨hlo,hhi,hwidth⟩
        have hk : k-lineStart=j := by omega
        rw [hk] at hwidth
        exact hcol hwidth

/-- Rows that are drawn change nothing but pixels. -/
theorem rowLoop_frame (host : Host) (ftbmp : FTBitmap) (x y : UInt32) (n i : ℕ) (fb : Fb) :
    rowLoop host ftbmp x y n i fb=
      {fb with pixels := (rowLoop host ftbmp x y n i fb).pixels} := by
  induction n generalizing i fb with
  | zero => rfl
  | succ n ih =>
    rw [rowLoop,ih]
    split
    · rw [columnLoop_eq]
    · rfl

section Rows

variable {host : Host} {ftbmp : FTBitmap} {x y : UInt32} {fb : Fb}

/-- What a row that is drawn leaves at an index of the surface. -/
theorem drawnRow_pixel (hsize : fb.size.width.toNat*fb.size.height.toNat<2^32) {i : ℕ}
    (hrow : y.toNat+i<fb.size.height.toNat) (grayBase : ℕ → UInt8) (n k : ℕ) :
    (columnLoop host x (fbGetLineBase fb (UInt32.ofNat (y.toNat+i))+x.toNat) grayBase n 0
        fb).pixels k=
      if fb.size.width.toNat*(y.toNat+i)+x.toNat≤k ∧
          k<fb.size.width.toNat*(y.toNat+i)+min (x.toNat+n) fb.size.width.toNat then
        shade host (grayBase (k-(fb.size.width.toNat*(y.toNat+i)+x.toNat)))
      else fb.pixels k := by
  have hle := Nat.mul_le_mul_left fb.size.width.toNat hrow.le
  have hheight := fb.size.height.toNat_lt
  have hbase : fbGetLineBase fb (UInt32.ofNat (y.toNat+i))=
      fb.size.width.toNat*(y.toNat+i) := by
    rw [fbGetLineBase,UInt32.toNat_mul,UInt32.toNat_ofNat_of_lt' (hrow.trans hheight)]
    exact Nat.mod_eq_of_lt (by omega)
  rw [columnLoop_eq,hbase,Nat.add_zero]
  dsimp only
  generalize fb.size.width.toNat*(y.toNat+i)=base
  refine if_congr ?_ rfl rfl
  omega

variable (host x) in
/-- A pixel of the surface after a row is drawn. -/
theorem drawnRow_shows (hsize : fb.size.width.toNat*fb.size.height.toNat<2^32) {i : ℕ}
    (hrow : y.toNat+i<fb.size.height.toNat) {px py : UInt32} (hin : fb.size.Contains px py)
    (grayBase : ℕ → UInt8) (n : ℕ) :
    (columnLoop host x (fbGetLineBase fb (UInt32.ofNat (y.toNat+i))+x.toNat) grayBase n 0
        fb).pixels (fbIndex fb px py)=
      if py.toNat=y.toNat+i ∧ x.toNat≤px.toNat ∧ px.toNat<x.toNat+n then
        shade host (grayBase (px.toNat-x.toNat))
      else fb.pixels (fbIndex fb px py) := by
  have hpx := UInt32.lt_iff_toNat_lt.mp hin.1
  rw [drawnRow_pixel hsize hrow,fbIndex_eq hsize hin]
  by_cases hcell : py.toNat=y.toNat+i ∧ x.toNat≤px.toNat ∧ px.toNat<x.toNat+n
  · have hplace : py.toNat*fb.size.width.toNat+px.toNat=
        fb.size.width.toNat*(y.toNat+i)+px.toNat := by
      rw [hcell.1,Nat.mul_comm]
    have hsub : fb.size.width.toNat*(y.toNat+i)+px.toNat-
        (fb.size.width.toNat*(y.toNat+i)+x.toNat)=px.toNat-x.toNat := by omega
    rw [if_pos hcell,hplace,if_pos (by omega),hsub]
  · rw [if_neg hcell,if_neg]
    rintro ⟨hlo,hhi⟩
    rw [Nat.mul_comm fb.size.width.toNat] at hlo hhi
    have hplace := RowMajor.place_of_between hpx (Nat.min_le_right _ _) hlo hhi
    exact hcell ⟨hplace.1,hplace.2.1,by omega⟩

/-- A pixel after some rows are drawn. -/
theorem rowLoop_pixel (hsize : fb.size.width.toNat*fb.size.height.toNat<2^32)
    {px py : UInt32} (hin : fb.size.Contains px py) (n i : ℕ) :
    (rowLoop host ftbmp x y n i fb).pixels (fbIndex fb px py)=
      if (y.toNat+i≤py.toNat ∧ py.toNat<y.toNat+i+n) ∧
          x.toNat≤px.toNat ∧ px.toNat<x.toNat+ftbmp.width.toNat then
        shade host (ftbmp.gray (py.toNat-y.toNat) (px.toNat-x.toNat))
      else fb.pixels (fbIndex fb px py) := by
  induction n generalizing i fb with
  | zero =>
    rw [rowLoop,if_neg]
    omega
  | succ n ih =>
    have hpy := UInt32.lt_iff_toNat_lt.mp hin.2
    rw [rowLoop]
    by_cases hrow : y.toNat+i<fb.size.height.toNat
    · rw [if_pos hrow]
      have hshown := drawnRow_shows host x hsize hrow hin
        (fun j => ftbmp.buffer (ftbmp.width.toNat*i+j)) ftbmp.width.toNat
      -- the row has changed pixels only
      obtain ⟨pixels,hpixels⟩ : ∃ pixels,columnLoop host x
          (fbGetLineBase fb (UInt32.ofNat (y.toNat+i))+x.toNat)
          (fun j => ftbmp.buffer (ftbmp.width.toNat*i+j)) ftbmp.width.toNat 0 fb=
            {fb with pixels := pixels} := ⟨_,columnLoop_eq ..⟩
      rw [hpixels] at hshown ⊢
      refine (@ih {fb with pixels := pixels} hsize hin (i+1)).trans ?_
      by_cases hrows : (y.toNat+(i+1)≤py.toNat ∧ py.toNat<y.toNat+(i+1)+n) ∧
          x.toNat≤px.toNat ∧ px.toNat<x.toNat+ftbmp.width.toNat
      · rw [if_pos hrows,if_pos (by omega)]
      · rw [if_neg hrows]
        refine hshown.trans ?_
        by_cases hcell : py.toNat=y.toNat+i ∧ x.toNat≤px.toNat ∧
            px.toNat<x.toNat+ftbmp.width.toNat
        · have hi : py.toNat-y.toNat=i := by omega
          rw [if_pos hcell,if_pos (by omega),hi]
          rfl
        · rw [if_neg hcell,if_neg (by omega)]
    · -- no row from here on is on the surface
      rw [if_neg hrow,ih hsize hin,if_neg (by omega),if_neg (by omega)]

/-- Memory behind the surface after some rows are drawn. -/
theorem rowLoop_outside (hsize : fb.size.width.toNat*fb.size.height.toNat<2^32) {k : ℕ}
    (hk : fb.size.width.toNat*fb.size.height.toNat≤k) (n i : ℕ) :
    (rowLoop host ftbmp x y n i fb).pixels k=fb.pixels k := by
  induction n generalizing i fb with
  | zero => rfl
  | succ n ih =>
    rw [rowLoop]
    by_cases hrow : y.toNat+i<fb.size.height.toNat
    · rw [if_pos hrow]
      have hle := Nat.mul_le_mul_left fb.size.width.toNat hrow
      rw [Nat.mul_succ] at hle
      refine (ih ?_ ?_ _).trans ?_
      · rwa [columnLoop_eq]
      · rwa [columnLoop_eq]
      · rw [drawnRow_pixel hsize hrow,if_neg]
        omega
    · rw [if_neg hrow]
      exact ih hsize hk _

/-- Rows behind the last one, and rows of a surface without columns, are not drawn. -/
theorem rowLoop_of_behind (h : fb.size.width.toNat=0 ∨ fb.size.height.toNat≤y.toNat) (n i : ℕ) :
    rowLoop host ftbmp x y n i fb=fb := by
  induction n generalizing i with
  | zero => rfl
  | succ n ih =>
    have hrow : (if y.toNat+i<fb.size.height.toNat then
        columnLoop host x (fbGetLineBase fb (UInt32.ofNat (y.toNat+i))+x.toNat)
          (fun j => ftbmp.buffer (ftbmp.width.toNat*i+j)) ftbmp.width.toNat 0 fb
        else fb)=fb := by
      cases h with
      | inl hwidth =>
        rw [columnLoop_eq,hwidth]
        simp only [Nat.not_lt_zero,and_false,if_false,ite_self]
      | inr hbehind => exact if_neg (by omega)
    rw [rowLoop,hrow]
    exact ih _

/-- A signed number passed as unsigned. -/
theorem toInt_cond (top : Int32) : top.toInt=
    if 2*top.toUInt32.toNat<2^32 then (top.toUInt32.toNat : ℤ)
    else (top.toUInt32.toNat : ℤ)-2^32 :=
  BitVec.toInt_eq_toNat_cond top.toBitVec

/-- The row of a glyph that starts on the surface or below the first row. -/
theorem start_toNat {y : UInt32} {top : Int32} (hy : y.toNat<2^31) (htop : -2^30<top.toInt)
    (hle : top.toInt≤y.toNat) : ((y-top.toUInt32).toNat : ℤ)=y.toNat-top.toInt := by
  have hcond := toInt_cond top
  have hlt := top.toUInt32.toNat_lt
  rw [UInt32.toNat_sub]
  split at hcond <;> omega

/-- The row of a glyph that starts above the first row. -/
theorem start_wrapped {y : UInt32} {top : Int32} (htop : top.toInt<2^30)
    (hlt : (y.toNat : ℤ)<top.toInt) : 2^31≤(y-top.toUInt32).toNat := by
  have hcond := toInt_cond top
  have hltu := top.toUInt32.toNat_lt
  rw [UInt32.toNat_sub]
  split at hcond <;> omega

end Rows

section

variable {host : Host} {fb : Fb} {ftbmp : FTBitmap} {x y : UInt32} {top : Int32}

/-- A gray glyph is drawn by the rows. -/
theorem drawGlyph_eq (hgray : ftbmp.pixelMode=FT_PIXEL_MODE_GRAY) :
    drawGlyph host fb ftbmp x y top=
      (0,rowLoop host ftbmp x (y-top.toUInt32) ftbmp.rows.toNat 0 fb) := by
  rw [drawGlyph,drawBitmap]
  exact if_neg (not_not.mpr hgray)

/-- The cell of a place, if the glyph starts on the surface or below the first row. -/
theorem cellAt_iff (hy : y.toNat<2^31) (htop : -2^30<top.toInt) (hle : top.toInt≤y.toNat)
    {px py : UInt32} {i j : ℕ} : CellAt ftbmp x y top px py i j ↔
      (((y-top.toUInt32).toNat≤py.toNat ∧
          py.toNat<(y-top.toUInt32).toNat+ftbmp.rows.toNat) ∧
        x.toNat≤px.toNat ∧ px.toNat<x.toNat+ftbmp.width.toNat) ∧
      i=py.toNat-(y-top.toUInt32).toNat ∧ j=px.toNat-x.toNat := by
  have hstart := start_toNat hy htop hle
  constructor
  · intro ⟨hrow,hcol,hpx,hpy⟩
    omega
  · rintro ⟨⟨⟨hlo,hhi⟩,hleft,hright⟩,rfl,rfl⟩
    exact ⟨by omega,by omega,by omega,by omega⟩

/-- Memory that is no pixel of the surface is behind it. -/
theorem behind_of_no_pixel (hsize : fb.size.width.toNat*fb.size.height.toNat<2^31) {k : ℕ}
    (h : ∀ px py,fb.size.Contains px py → fbIndex fb px py≠k) :
    fb.size.width.toNat*fb.size.height.toNat≤k := by
  by_contra hlt
  have hk : k<2^32 := by omega
  obtain ⟨px,py,hin,heq⟩ := exists_pixel hk (Nat.lt_of_not_le hlt)
  exact h px py hin heq

/-- A glyph that does not reach above the first row is drawn as far as it is visible. -/
theorem drawsVisible_of_le (hgray : ftbmp.pixelMode=FT_PIXEL_MODE_GRAY)
    (hsize : fb.size.width.toNat*fb.size.height.toNat<2^31) (hy : y.toNat<2^31)
    (htop : -2^30<top.toInt) (hle : top.toInt≤y.toNat) : DrawsVisible host fb ftbmp x y top := by
  have hwrap : fb.size.width.toNat*fb.size.height.toNat<2^32 := by omega
  constructor
  · rw [drawGlyph_eq hgray]
  · rw [drawGlyph_eq hgray]
    exact rowLoop_frame ..
  · intro px py hin i j hcell
    obtain ⟨hplace,rfl,rfl⟩ := (cellAt_iff hy htop hle).mp hcell
    rw [drawGlyph_eq hgray,rowLoop_pixel hwrap hin,Nat.add_zero,if_pos hplace]
  · intro px py hin hnone
    rw [drawGlyph_eq hgray,rowLoop_pixel hwrap hin,Nat.add_zero,if_neg]
    intro hplace
    exact hnone ⟨_,_,(cellAt_iff hy htop hle).mpr ⟨hplace,rfl,rfl⟩⟩
  · intro k hk
    rw [drawGlyph_eq hgray]
    exact rowLoop_outside hwrap (behind_of_no_pixel hsize hk) _ _

/-- Nothing of a glyph that reaches above the first row is drawn. -/
theorem drawGlyph_of_lt (hgray : ftbmp.pixelMode=FT_PIXEL_MODE_GRAY)
    (hsize : fb.size.width.toNat*fb.size.height.toNat<2^31) (htop : top.toInt<2^30)
    (hlt : (y.toNat : ℤ)<top.toInt) : drawGlyph host fb ftbmp x y top=(0,fb) := by
  have hstart := start_wrapped htop hlt
  rw [drawGlyph_eq hgray,rowLoop_of_behind]
  by_cases hwidth : fb.size.width.toNat=0
  · exact Or.inl hwidth
  · have hheight := Nat.le_mul_of_pos_left fb.size.height.toNat (Nat.pos_of_ne_zero hwidth)
    exact Or.inr (by omega)

/-- `draw_bitmap` draws exactly the visible part of a gray glyph if and only if the
glyph does not reach above the first row of the surface, or every visible cell of
it happens to be there already. -/
theorem drawsVisible_iff (hgray : ftbmp.pixelMode=FT_PIXEL_MODE_GRAY)
    (hsize : fb.size.width.toNat*fb.size.height.toNat<2^31) (hy : y.toNat<2^31)
    (htop : -2^30<top.toInt ∧ top.toInt<2^30) :
    DrawsVisible host fb ftbmp x y top ↔
      top.toInt≤y.toNat ∨ ShownAlready host fb ftbmp x y top := by
  by_cases hle : top.toInt≤y.toNat
  · exact ⟨fun _ => Or.inl hle,fun _ => drawsVisible_of_le hgray hsize hy htop.1 hle⟩
  · have hsame : drawGlyph host fb ftbmp x y top=(0,fb) :=
      drawGlyph_of_lt hgray hsize htop.2 (Int.not_le.mp hle)
    constructor
    · intro hdraws
      refine Or.inr fun px py hin i j hcell => ?_
      rw [←hdraws.drawn px py hin i j hcell,hsame]
    · intro hor
      have hshown := hor.resolve_left hle
      constructor
      · rw [hsame]
      · rw [hsame]
      · intro px py hin i j hcell
        rw [hsame]
        exact hshown px py hin i j hcell
      · intro px py _ _
        rw [hsame]
      · intro k _
        rw [hsame]

end

/-- A glyph of two rows and one column. -/
def smallGlyph : FTBitmap := ⟨2,1,FT_PIXEL_MODE_GRAY,fun _ => 255⟩

/-- Its lower row is on the baseline at row ten. -/
theorem drawsVisible_iff_inside :
    DrawsVisible .littleEndian (obtained ⟨1024,768⟩) smallGlyph 100 10 1 ↔
      (1 : Int32).toInt≤(10 : UInt32).toNat ∨
        ShownAlready .littleEndian (obtained ⟨1024,768⟩) smallGlyph 100 10 1 :=
  drawsVisible_iff rfl (by decide) (by decide) (by decide)

/-- On a baseline at the first row its lower row is visible and not drawn. -/
theorem cut_glyph_dropped :
    CellAt smallGlyph 0 0 1 0 0 1 0 ∧ (obtained ⟨4,4⟩).size.Contains 0 0 ∧
      (drawGlyph .littleEndian (obtained ⟨4,4⟩) smallGlyph 0 0 1).2.pixels 0=⟨255,0,0,0⟩ ∧
      shade .littleEndian (smallGlyph.gray 1 0)=⟨255,255,255,255⟩ ∧
      ¬DrawsVisible .littleEndian (obtained ⟨4,4⟩) smallGlyph 0 0 1 := by
  have hcell : CellAt smallGlyph 0 0 1 0 0 1 0 :=
    ⟨by decide,by decide,by decide,by decide⟩
  have hin : (obtained ⟨4,4⟩).size.Contains 0 0 := by decide
  have hpixel : (drawGlyph .littleEndian (obtained ⟨4,4⟩) smallGlyph 0 0 1).2.pixels 0=
      ⟨255,0,0,0⟩ := by decide
  have hshade : shade .littleEndian (smallGlyph.gray 1 0)=⟨255,255,255,255⟩ := by decide
  refine ⟨hcell,hin,hpixel,hshade,fun h => ?_⟩
  have hdrawn := h.drawn 0 0 hin 1 0 hcell
  rw [hshade] at hdrawn
  exact absurd (hpixel.symm.trans hdrawn) (by decide)

end Shoreline.DrawBitmap
