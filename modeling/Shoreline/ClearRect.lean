import Shoreline.Addressing

/-!
# Clearing a rectangle

The rows of the rectangle are cleared from the last to the first. The number
of pixels cleared in a row is limited by what is left of the row, as a signed
difference that is compared as unsigned. A rectangle that starts behind the
last column therefore keeps its full width and clears memory behind its row.
-/

namespace Shoreline.ClearRect

open Framebuffer Coordinates Addressing

/-- The pixel that `memset` with zero leaves. -/
def blank : FbPixel := ⟨0,0,0,0⟩

/-- The pixels of one `memset`, by the first and their number. -/
structure Span where
  base : ℕ
  count : ℕ
  deriving DecidableEq, Repr

/-- The cells of a span. -/
def Span.Covers (span : Span) (i : ℕ) : Prop := span.base ≤ i ∧ i<span.base+span.count

instance (span : Span) (i : ℕ) : Decidable (span.Covers i) := inferInstanceAs (Decidable (_ ∧ _))

/-- `memset` with zero. -/
def zeroSpan (pixels : ℕ → FbPixel) (span : Span) : ℕ → FbPixel :=
  fun i => if span.Covers i then blank else pixels i

/-- `fb_get_line_base`, as an index. -/
def fbGetLineBase (fb : Fb) (line : UInt32) : ℕ := (fb.size.width*line).toNat

/-- `max(0, min(width, (int)fb->size.width - (int)x))`. The signed difference
is converted to unsigned where it meets `width`, and so is the zero. -/
def clearCount (fbWidth x width : UInt32) : UInt32 :=
  let room := (fbWidth.toInt32-x.toInt32).toUInt32
  let least := if width<room then width else room
  if 0 > least then 0 else least

/-- What `fb_clear_rect` clears in a line. -/
def lineSpan (fb : Fb) (x width line : UInt32) : Span :=
  ⟨fbGetLineBase fb line+x.toNat,(clearCount fb.size.width x width).toNat⟩

/-- A framebuffer and the spans cleared so far. -/
structure Cleared where
  fb : Fb
  spans : List Span

/-- The loop of `fb_clear_rect`. -/
def clearLoop (x y width : UInt32) : ℕ → Cleared → Cleared
  | 0,state => state
  | height+1,state =>
    let line := y+UInt32.ofNat height
    if line≥state.fb.size.height then clearLoop x y width height state
    else
      let span := lineSpan state.fb x width line
      clearLoop x y width height
        ⟨{state.fb with pixels := zeroSpan state.fb.pixels span},state.spans++[span]⟩

/-- `fb_clear_rect`. -/
def fbClearRect (fb : Fb) (x y width height : UInt32) : Cleared :=
  clearLoop x y width height.toNat ⟨fb,[]⟩

/-- The rectangle. -/
def InRect (x y width height px py : UInt32) : Prop :=
  (x.toNat≤px.toNat ∧ px.toNat<x.toNat+width.toNat) ∧
    y.toNat≤py.toNat ∧ py.toNat<y.toNat+height.toNat

instance (x y width height px py : UInt32) : Decidable (InRect x y width height px py) :=
  inferInstanceAs (Decidable (_ ∧ _))

/-- Exactly the visible part of the rectangle is cleared, and no memory
outside the pixel array is written. -/
structure ClearsVisible (fb : Fb) (x y width height : UInt32) : Prop where
  /-- Every pixel of the surface, after the call. -/
  picture : ∀ px py, fb.size.Contains px py →
    (fbClearRect fb x y width height).fb.pixels (fbIndex fb px py)=
      if InRect x y width height px py then blank else fb.pixels (fbIndex fb px py)
  /-- Every write stays inside the pixel array. -/
  inside : ∀ span∈(fbClearRect fb x y width height).spans, ∀ i, span.Covers i → i<fb.cells

/-- In the visible rows of the rectangle, the full width of memory from the
first column on is blank already and inside the pixel array. -/
def BlankAlready (fb : Fb) (x y width height : UInt32) : Prop :=
  ∀ row<height.toNat, y.toNat+row<fb.size.height.toNat → ∀ i<width.toNat,
    fb.size.width.toNat*(y.toNat+row)+x.toNat+i<fb.cells ∧
      fb.pixels (fb.size.width.toNat*(y.toNat+row)+x.toNat+i)=blank

/-- A rectangle without columns or without visible rows hits nothing. -/
theorem blankAlready_of_empty {fb : Fb} {x y width height : UInt32}
    (h : width=0 ∨ height=0 ∨ fb.size.height≤y) : BlankAlready fb x y width height := by
  intro row hrow hvis i hi
  rcases h with h|h|h
  · rw [h] at hi
    exact absurd hi (Nat.not_lt_zero i)
  · rw [h] at hrow
    exact absurd hrow (Nat.not_lt_zero row)
  · have hle := UInt32.le_iff_toNat_le.mp h
    omega

/-- The conversions leave a 32-bit difference. -/
theorem clearCount_eq (fbWidth x width : UInt32) :
    clearCount fbWidth x width=if width<fbWidth-x then width else fbWidth-x := by
  have hroom : (fbWidth.toInt32-x.toInt32).toUInt32=fbWidth-x := by
    rw [Int32.toUInt32_sub,UInt32.toUInt32_toInt32,UInt32.toUInt32_toInt32]
  unfold clearCount
  rw [hroom]
  exact if_neg (UInt32.not_lt_zero)

/-- Up to the last column the width is cut off at the end of the row. -/
theorem clearCount_of_le {fbWidth x : UInt32} (width : UInt32) (h : x≤fbWidth) :
    (clearCount fbWidth x width).toNat=min width.toNat (fbWidth.toNat-x.toNat) := by
  have hsub : (fbWidth-x).toNat=fbWidth.toNat-x.toNat := UInt32.toNat_sub_of_le _ _ h
  rw [clearCount_eq]
  split
  · rename_i hlt
    have hlt' := UInt32.lt_iff_toNat_lt.mp hlt
    omega
  · rename_i hlt
    have hle := UInt32.le_iff_toNat_le.mp (UInt32.not_lt.mp hlt)
    omega

/-- Behind the last column it is not cut off at all. -/
theorem clearCount_of_lt {fbWidth x width : UInt32} (h : fbWidth<x)
    (hx : x.toNat+width.toNat<2^31) : clearCount fbWidth x width=width := by
  have hlt := UInt32.lt_iff_toNat_lt.mp h
  have hsub : (fbWidth-x).toNat=2^32-x.toNat+fbWidth.toNat := by
    rw [UInt32.toNat_sub]
    omega
  rw [clearCount_eq,if_pos]
  rw [UInt32.lt_iff_toNat_lt,hsub]
  omega

/-- The spans that the loop clears, with what a line is cleared by. -/
def rowSpans (bound : UInt32) (span : UInt32 → Span) (y : UInt32) : ℕ → List Span
  | 0 => []
  | height+1 =>
    if y+UInt32.ofNat height≥bound then rowSpans bound span y height
    else span (y+UInt32.ofNat height)::rowSpans bound span y height

/-- There is one for each line that is on the surface. -/
theorem mem_rowSpans {bound : UInt32} {span : UInt32 → Span} {y : UInt32} {height : ℕ}
    {found : Span} : found∈rowSpans bound span y height ↔
      ∃ row<height,y+UInt32.ofNat row<bound ∧ found=span (y+UInt32.ofNat row) := by
  induction height with
  | zero => simp [rowSpans]
  | succ height ih =>
    rw [rowSpans]
    by_cases hline : y+UInt32.ofNat height≥bound
    · rw [if_pos hline,ih]
      constructor
      · intro ⟨row,hrow,h⟩
        exact ⟨row,Nat.lt_succ_of_lt hrow,h⟩
      · intro ⟨row,hrow,hvis,h⟩
        have hne : row≠height := fun heq => UInt32.not_le.mpr hvis (heq▸hline)
        exact ⟨row,by omega,hvis,h⟩
    · rw [if_neg hline,List.mem_cons,ih]
      constructor
      · intro h
        cases h with
        | inl h => exact ⟨height,Nat.lt_succ_self height,UInt32.not_le.mp hline,h⟩
        | inr h =>
          obtain ⟨row,hrow,h⟩ := h
          exact ⟨row,Nat.lt_succ_of_lt hrow,h⟩
      · intro ⟨row,hrow,hvis,h⟩
        by_cases heq : row=height
        · exact Or.inl (heq▸h)
        · exact Or.inr ⟨row,by omega,hvis,h⟩

/-- The loop clears these spans one after the other and touches nothing else. -/
theorem clearLoop_eq (x y width : UInt32) (height : ℕ) (state : Cleared) :
    clearLoop x y width height state=
      ⟨{state.fb with pixels := (rowSpans state.fb.size.height (lineSpan state.fb x width) y
          height).foldl zeroSpan state.fb.pixels},
        state.spans++rowSpans state.fb.size.height (lineSpan state.fb x width) y height⟩ := by
  induction height generalizing state with
  | zero => simp [clearLoop,rowSpans]
  | succ height ih =>
    rw [clearLoop,rowSpans]
    by_cases hline : y+UInt32.ofNat height≥state.fb.size.height
    · rw [if_pos hline,if_pos hline]
      exact ih state
    · rw [if_neg hline,if_neg hline]
      -- the span of a line depends on the size only, which a memset keeps
      refine (ih _).trans ?_
      rw [List.foldl_cons,List.append_assoc,List.singleton_append]
      rfl

/-- Memory after several spans are cleared. -/
theorem foldl_zeroSpan (spans : List Span) (pixels : ℕ → FbPixel) (i : ℕ) :
    ((∃ span∈spans,span.Covers i) → spans.foldl zeroSpan pixels i=blank) ∧
      ((¬∃ span∈spans,span.Covers i) → spans.foldl zeroSpan pixels i=pixels i) := by
  induction spans generalizing pixels with
  | nil => simp
  | cons span spans ih =>
    rw [List.foldl_cons]
    by_cases hrest : ∃ span∈spans,span.Covers i
    · refine ⟨fun _ => (ih _).1 hrest,fun hnot => ?_⟩
      obtain ⟨other,hmem,hcov⟩ := hrest
      exact absurd ⟨other,List.mem_cons_of_mem _ hmem,hcov⟩ hnot
    · rw [(ih _).2 hrest]
      constructor
      · intro ⟨other,hmem,hcov⟩
        cases List.mem_cons.mp hmem with
        | inl heq => exact if_pos (heq▸hcov)
        | inr hmem => exact absurd ⟨other,hmem,hcov⟩ hrest
      · intro hnot
        exact if_neg fun hcov => hnot ⟨span,List.mem_cons_self,hcov⟩

section

variable {fb : Fb} {x y width height : UInt32}

/-- The spans of a call, in numbers: one starts in each visible row of the
rectangle. -/
theorem mem_spans (hsize : fb.size.width.toNat*fb.size.height.toNat<2^31)
    (hy : y.toNat+height.toNat<2^31) {span : Span} :
    span∈(fbClearRect fb x y width height).spans ↔
      ∃ row<height.toNat,y.toNat+row<fb.size.height.toNat ∧
        span=⟨fb.size.width.toNat*(y.toNat+row)+x.toNat,
          (clearCount fb.size.width x width).toNat⟩ := by
  have hline : ∀ row<height.toNat,(y+UInt32.ofNat row).toNat=y.toNat+row := by
    intro row hrow
    have hlt : row<2^32 := by omega
    rw [UInt32.toNat_add,UInt32.toNat_ofNat_of_lt' hlt]
    omega
  have hbase : ∀ row<height.toNat,y.toNat+row<fb.size.height.toNat →
      fbGetLineBase fb (y+UInt32.ofNat row)=fb.size.width.toNat*(y.toNat+row) := by
    intro row hrow hvis
    have hle : fb.size.width.toNat*(y.toNat+row)≤fb.size.width.toNat*fb.size.height.toNat :=
      Nat.mul_le_mul_left _ hvis.le
    rw [fbGetLineBase,UInt32.toNat_mul,hline row hrow]
    exact Nat.mod_eq_of_lt (by omega)
  rw [fbClearRect,clearLoop_eq,List.nil_append,mem_rowSpans]
  refine exists_congr fun row => and_congr_right fun hrow => ?_
  rw [UInt32.lt_iff_toNat_lt,hline row hrow]
  refine and_congr_right fun hvis => ?_
  rw [lineSpan,hbase row hrow hvis]

/-- A cell after the call. -/
theorem fbClearRect_pixels (fb : Fb) (x y width height : UInt32) (i : ℕ) :
    ((∃ span∈(fbClearRect fb x y width height).spans,span.Covers i) →
      (fbClearRect fb x y width height).fb.pixels i=blank) ∧
    ((¬∃ span∈(fbClearRect fb x y width height).spans,span.Covers i) →
      (fbClearRect fb x y width height).fb.pixels i=fb.pixels i) := by
  rw [fbClearRect,clearLoop_eq,List.nil_append]
  exact foldl_zeroSpan _ _ i

/-- Up to the last column the spans cover exactly the rectangle. -/
theorem covered_iff (hsize : fb.size.width.toNat*fb.size.height.toNat<2^31)
    (hy : y.toNat+height.toNat<2^31) (hle : x≤fb.size.width) {px py : UInt32}
    (hin : fb.size.Contains px py) :
    (∃ span∈(fbClearRect fb x y width height).spans,span.Covers (fbIndex fb px py)) ↔
      InRect x y width height px py := by
  have hpx := UInt32.lt_iff_toNat_lt.mp hin.1
  have hpy := UInt32.lt_iff_toNat_lt.mp hin.2
  have hx := UInt32.le_iff_toNat_le.mp hle
  rw [fbIndex_eq (by omega) hin]
  constructor
  · rintro ⟨span,hspan,hlo,hhi⟩
    obtain ⟨row,hrow,hvis,rfl⟩ := (mem_spans hsize hy).mp hspan
    dsimp only at hlo hhi
    rw [clearCount_of_le width hle,Nat.mul_comm fb.size.width.toNat] at hhi
    rw [Nat.mul_comm fb.size.width.toNat] at hlo
    have hplace := RowMajor.place_of_between hpx
      (by omega : x.toNat+min width.toNat (fb.size.width.toNat-x.toNat)≤fb.size.width.toNat)
      hlo (by rw [RowMajor.index]; omega)
    exact ⟨⟨hplace.2.1,by omega⟩,by omega,by omega⟩
  · rintro ⟨hcol,hrow⟩
    have hvis : y.toNat+(py.toNat-y.toNat)=py.toNat := by omega
    refine ⟨_,(mem_spans hsize hy).mpr ⟨py.toNat-y.toNat,by omega,by omega,rfl⟩,?_,?_⟩
    · dsimp only
      rw [hvis,Nat.mul_comm]
      omega
    · dsimp only
      rw [hvis,Nat.mul_comm,clearCount_of_le width hle]
      omega

/-- Up to the last column the spans stay inside the pixel array. -/
theorem covered_inside (hcells : fb.cells=fb.size.product)
    (hsize : fb.size.width.toNat*fb.size.height.toNat<2^31)
    (hy : y.toNat+height.toNat<2^31) (hle : x≤fb.size.width) {span : Span}
    (hspan : span∈(fbClearRect fb x y width height).spans) {i : ℕ} (hi : span.Covers i) :
    i<fb.cells := by
  have hx := UInt32.le_iff_toNat_le.mp hle
  obtain ⟨row,hrow,hvis,rfl⟩ := (mem_spans hsize hy).mp hspan
  have hhi := hi.2
  dsimp only at hhi
  rw [clearCount_of_le width hle] at hhi
  have hrows := Nat.mul_le_mul_left fb.size.width.toNat hvis
  rw [Nat.mul_succ] at hrows
  rw [hcells,product_eq,Nat.mod_eq_of_lt (by omega)]
  omega

/-- Behind the last column the spans cover what has to be blank already. -/
theorem covered_right (hsize : fb.size.width.toNat*fb.size.height.toNat<2^31)
    (hx : x.toNat+width.toNat<2^31) (hy : y.toNat+height.toNat<2^31) (hlt : fb.size.width<x) :
    BlankAlready fb x y width height ↔
      ∀ span∈(fbClearRect fb x y width height).spans,∀ i,span.Covers i →
        i<fb.cells ∧ fb.pixels i=blank := by
  constructor
  · intro hblank span hspan i hi
    obtain ⟨row,hrow,hvis,rfl⟩ := (mem_spans hsize hy).mp hspan
    obtain ⟨hlo,hhi⟩ := hi
    dsimp only at hlo hhi
    rw [clearCount_of_lt hlt hx] at hhi
    have hcell := hblank row hrow hvis
      (i-(fb.size.width.toNat*(y.toNat+row)+x.toNat)) (by omega)
    rwa [Nat.add_sub_of_le hlo] at hcell
  · intro hall row hrow hvis i hi
    refine hall _ ((mem_spans hsize hy).mpr ⟨row,hrow,hvis,rfl⟩) _ ⟨?_,?_⟩
    · exact Nat.le_add_right _ _
    · dsimp only
      rw [clearCount_of_lt hlt hx]
      omega

/-- `fb_clear_rect` clears exactly the visible part of the rectangle if and
only if the rectangle starts no further right than the right edge, or what it
clears behind its rows happens to be blank pixels of the surface. -/
theorem clearsVisible_iff (hcells : fb.cells=fb.size.product)
    (hsize : fb.size.width.toNat*fb.size.height.toNat<2^31)
    (hx : x.toNat+width.toNat<2^31) (hy : y.toNat+height.toNat<2^31) :
    ClearsVisible fb x y width height ↔
      x≤fb.size.width ∨ BlankAlready fb x y width height := by
  have hpixels := fbClearRect_pixels fb x y width height
  by_cases hle : x≤fb.size.width
  · refine ⟨fun _ => Or.inl hle,fun _ => ⟨?_,?_⟩⟩
    · intro px py hin
      by_cases hrect : InRect x y width height px py
      · rw [if_pos hrect,(hpixels _).1 ((covered_iff hsize hy hle hin).mpr hrect)]
      · rw [if_neg hrect]
        exact (hpixels _).2 fun hcov => hrect ((covered_iff hsize hy hle hin).mp hcov)
    · intro span hspan i hi
      exact covered_inside hcells hsize hy hle hspan hi
  · have hlt : fb.size.width<x := UInt32.not_le.mp hle
    have hltn := UInt32.lt_iff_toNat_lt.mp hlt
    rw [covered_right hsize hx hy hlt]
    have hnot : ∀ px py,fb.size.Contains px py → ¬InRect x y width height px py := by
      intro px py hin hrect
      have hpx := UInt32.lt_iff_toNat_lt.mp hin.1
      have hcol := hrect.1.1
      omega
    constructor
    · intro hclears
      refine Or.inr fun span hspan i hi => ?_
      have hinside := hclears.inside span hspan i hi
      refine ⟨hinside,?_⟩
      -- a cell of the array is a pixel of the surface, and not in the rectangle
      rw [hcells,product_eq,Nat.mod_eq_of_lt (by omega)] at hinside
      obtain ⟨px,py,hin,rfl⟩ := exists_pixel (by omega) hinside
      have hpicture := hclears.picture px py hin
      rw [if_neg (hnot px py hin)] at hpicture
      rw [←hpicture]
      exact (hpixels _).1 ⟨span,hspan,hi⟩
    · intro hor
      have hall := hor.resolve_left hle
      refine ⟨fun px py hin => ?_,fun span hspan i hi => (hall span hspan i hi).1⟩
      rw [if_neg (hnot px py hin)]
      by_cases hcov : ∃ span∈(fbClearRect fb x y width height).spans,
          span.Covers (fbIndex fb px py)
      · rw [(hpixels _).1 hcov]
        obtain ⟨span,hspan,hi⟩ := hcov
        exact (hall span hspan _ hi).2.symm
      · exact (hpixels _).2 hcov

end

/-- The line of text at column 100 of the default surface. -/
theorem clearsVisible_iff_default :
    ClearsVisible (obtained ⟨1024,768⟩) 100 38 300 16 ↔
      (100 : UInt32)≤(obtained ⟨1024,768⟩).size.width ∨
        BlankAlready (obtained ⟨1024,768⟩) 100 38 300 16 :=
  clearsVisible_iff rfl (by decide) (by decide) (by decide)

/-- The same text on a surface of 10 by 2 pixels: 50 cells from cell 100 on
are cleared in a block of 20. -/
theorem narrow_not_clearsVisible :
    (fbClearRect (obtained ⟨10,2⟩) 100 0 50 1).spans=[⟨100,50⟩] ∧
      (obtained ⟨10,2⟩).cells=20 ∧ ¬ClearsVisible (obtained ⟨10,2⟩) 100 0 50 1 := by
  have hspans : (fbClearRect (obtained ⟨10,2⟩) 100 0 50 1).spans=[⟨100,50⟩] := by decide
  have hcells : (obtained ⟨10,2⟩).cells=20 := by decide
  refine ⟨hspans,hcells,fun h => ?_⟩
  have hlt := h.inside ⟨100,50⟩ (by rw [hspans]; exact List.mem_singleton_self _) 100 (by decide)
  omega

end Shoreline.ClearRect
