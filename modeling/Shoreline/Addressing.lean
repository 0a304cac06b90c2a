import Shoreline.Coordinates
import Shoreline.Library.RowMajor

/-!
# Pixel addressing

The size of a block of pixels and the index of a pixel in it are both
computed in 32-bit arithmetic. They fit together exactly for the dimensions
whose product fits into 32 bits; for all others some accepted coordinates lie
behind the block. Where they fit together a framebuffer is a table of pixels:
what is stored at a place is read there and nowhere else.
-/

namespace Shoreline.Addressing

open Framebuffer Coordinates

/-- Framebuffers that a successful `fb_alloc` or `fb_resize` leaves, for the
dimensions they were asked for. -/
inductive Obtained (size : FbSize) (fb : Fb) : Prop where
  | alloc (host : Host) (node : Option UInt32) (block : Option (ℕ → FbPixel)) (numaNode : ℕ) :
    fbAlloc host node block numaNode size=.ok fb → Obtained size fb
  | resize (old : Fb) (block : Option (ℕ → FbPixel)) :
    fbResize old block size=(0,fb) → Obtained size fb

/-- The accessors stay inside the block and tell different places apart. -/
structure Addresses (fb : Fb) : Prop where
  /-- The index of accepted coordinates is in the block. -/
  inside : ∀ x y, fb.size.Contains x y → fbIndex fb x y<fb.cells
  /-- Different coordinates have different indices. -/
  apart : ∀ x y x' y', fb.size.Contains x y → fb.size.Contains x' y' →
    fbIndex fb x y=fbIndex fb x' y' → x=x' ∧ y=y'

/-- What a successful allocation or resize says about the size. -/
theorem Obtained.spec {size : FbSize} {fb : Fb} (h : Obtained size fb) :
    fb.size=size ∧ fb.cells=size.product := by
  cases h with
  | alloc host node block numaNode h =>
    cases node with
    | none => cases h
    | some garbage =>
      cases block with
      | none => cases h
      | some heap =>
        injection h with h
        rw [←h]
        exact ⟨rfl,rfl⟩
  | resize old block h =>
    cases block with
    | none => simp [fbResize,ENOMEM] at h
    | some heap =>
      injection h with _ h
      rw [←h]
      exact ⟨rfl,rfl⟩

/-- The number of pixels that is allocated. -/
theorem product_eq (size : FbSize) :
    size.product=size.width.toNat*size.height.toNat%2^32 := UInt32.toNat_mul _ _

/-- The index in the block, for the coordinates of a number below 2^32. -/
theorem fbIndex_ofNat {fb : Fb} {x y : ℕ} (hx : x<2^32) (hy : y<2^32)
    (h : RowMajor.index fb.size.width.toNat x y<2^32) :
    fbIndex fb (UInt32.ofNat x) (UInt32.ofNat y)=RowMajor.index fb.size.width.toNat x y := by
  rw [RowMajor.index] at h ⊢
  rw [fbIndex,UInt32.toNat_add,UInt32.toNat_mul,UInt32.toNat_ofNat_of_lt' hx,
    UInt32.toNat_ofNat_of_lt' hy]
  rw [Nat.mod_eq_of_lt (by omega : y*fb.size.width.toNat<2^32),Nat.mod_eq_of_lt h]

/-- Numbers below the dimensions are accepted coordinates. -/
theorem contains_ofNat {size : FbSize} {x y : ℕ} (hx : x<size.width.toNat)
    (hy : y<size.height.toNat) : size.Contains (UInt32.ofNat x) (UInt32.ofNat y) := by
  constructor
  · rwa [UInt32.lt_iff_toNat_lt,UInt32.toNat_ofNat_of_lt' (hx.trans size.width.toNat_lt)]
  · rwa [UInt32.lt_iff_toNat_lt,UInt32.toNat_ofNat_of_lt' (hy.trans size.height.toNat_lt)]

/-- A cell whose number is below 2^32 and below the true number of pixels is a
pixel of the surface. -/
theorem exists_pixel {fb : Fb} {i : ℕ} (hi : i<2^32)
    (h : i<fb.size.width.toNat*fb.size.height.toNat) :
    ∃ x y, fb.size.Contains x y ∧ fbIndex fb x y=i := by
  obtain ⟨x,y,hx,hy,hxy⟩ := RowMajor.exists_index h
  refine ⟨UInt32.ofNat x,UInt32.ofNat y,contains_ofNat hx hy,?_⟩
  rw [fbIndex_ofNat (hx.trans fb.size.width.toNat_lt) (hy.trans fb.size.height.toNat_lt)
    (by omega),hxy]

/-- Dimensions whose product fits into 32 bits are addressed correctly. -/
theorem addresses_of_lt {fb : Fb} (hcells : fb.cells=fb.size.product)
    (h : fb.size.width.toNat*fb.size.height.toNat<2^32) : Addresses fb := by
  constructor
  · intro x y hin
    rw [hcells,product_eq,Nat.mod_eq_of_lt h,fbIndex_eq h hin]
    exact RowMajor.index_lt (UInt32.lt_iff_toNat_lt.mp hin.1) (UInt32.lt_iff_toNat_lt.mp hin.2)
  · intro x y x' y' hin hin' heq
    rw [fbIndex_eq h hin,fbIndex_eq h hin'] at heq
    have hinj := RowMajor.index_inj (UInt32.lt_iff_toNat_lt.mp hin.1)
      (UInt32.lt_iff_toNat_lt.mp hin'.1) heq
    exact ⟨UInt32.toNat_inj.mp hinj.1,UInt32.toNat_inj.mp hinj.2⟩

/-- For all other dimensions the pixel right behind the block has accepted
coordinates. -/
theorem exists_behind {fb : Fb} (hcells : fb.cells=fb.size.product)
    (h : 2^32≤fb.size.width.toNat*fb.size.height.toNat) :
    ∃ x y, fb.size.Contains x y ∧ fbIndex fb x y=fb.cells := by
  have hlt : fb.cells<2^32 := by
    rw [hcells,product_eq]
    exact Nat.mod_lt _ (by decide)
  exact exists_pixel hlt (Nat.lt_of_lt_of_le hlt h)

/-- Allocation and resize leave a framebuffer whose accessors stay inside the
block and tell places apart exactly if the product of the dimensions fits
into 32 bits. -/
theorem addresses_iff {size : FbSize} {fb : Fb} (h : Obtained size fb) :
    Addresses fb ↔ size.width.toNat*size.height.toNat<2^32 := by
  obtain ⟨hsize,hcells⟩ := h.spec
  rw [←hsize] at hcells ⊢
  refine ⟨fun haddr => ?_,addresses_of_lt hcells⟩
  by_contra hnot
  obtain ⟨x,y,hin,heq⟩ := exists_behind hcells (Nat.le_of_not_lt hnot)
  have hlt := haddr.inside x y hin
  omega

/-- The framebuffer of a successful allocation on a fresh heap. -/
def obtained (size : FbSize) : Fb :=
  ⟨size,size.product,
    fbAllocFill .littleEndian size.product (zeroBlock size.product fun _ => ⟨0,0,0,0⟩),0,0⟩

/-- The default surface of the command line is addressed correctly. -/
theorem addresses_iff_default :
    Addresses (obtained ⟨1024,768⟩) ↔ (1024 : UInt32).toNat*(768 : UInt32).toNat<2^32 :=
  addresses_iff (.alloc .littleEndian (some 0) (some fun _ => ⟨0,0,0,0⟩) 0 rfl)

/-- A surface of 65536 by 65537 pixels gets a block of 65536 pixels: the
first pixel of its second row lies behind the block, and the first pixels of
its first and last row are the same. -/
theorem wrapped_product_not_addresses :
    Obtained ⟨65536,65537⟩ (obtained ⟨65536,65537⟩) ∧
      (obtained ⟨65536,65537⟩).cells=65536 ∧
      (obtained ⟨65536,65537⟩).size.Contains 0 1 ∧
      fbIndex (obtained ⟨65536,65537⟩) 0 1=65536 ∧
      (obtained ⟨65536,65537⟩).size.Contains 0 65536 ∧
      fbIndex (obtained ⟨65536,65537⟩) 0 65536=fbIndex (obtained ⟨65536,65537⟩) 0 0 ∧
      ¬Addresses (obtained ⟨65536,65537⟩) := by
  have hcells : (obtained ⟨65536,65537⟩).cells=65536 := by decide
  have hin : (obtained ⟨65536,65537⟩).size.Contains 0 1 := by decide
  have hindex : fbIndex (obtained ⟨65536,65537⟩) 0 1=65536 := by decide
  refine ⟨.alloc .littleEndian (some 0) (some fun _ => ⟨0,0,0,0⟩) 0 rfl,hcells,hin,hindex,
    by decide,by decide,fun h => ?_⟩
  have hlt := h.inside 0 1 hin
  omega

/-- `fb_set_pixel_rgb` stores at the place it reads, with the first byte kept. -/
theorem fbSetPixelRgb_eq (fb : Fb) (x y : UInt32) (red green blue : UInt8) :
    fbSetPixelRgb fb x y red green blue=
      (fbGetPixel fb x y).bind fun old => fbSetPixel fb x y ⟨old.byte0,blue,green,red⟩ := by
  unfold fbSetPixelRgb fbGetPixel fbSetPixel
  split <;> rfl

/-- A store through an accessor leaves everything behind the block alone. -/
theorem fbSetPixel_behind {fb fb' : Fb} (h : Addresses fb) {x y : UInt32} {pixel : FbPixel}
    (hset : fbSetPixel fb x y pixel=some fb') {i : ℕ} (hi : fb.cells ≤ i) :
    fb'.pixels i=fb.pixels i := by
  unfold fbSetPixel at hset
  split at hset
  · rename_i hin
    injection hset with hset
    have hlt := h.inside x y hin
    rw [←hset]
    exact if_neg (by omega)
  · cases hset

/-- What is stored at a place is read there, and every other place reads as
before. -/
theorem fbGetPixel_fbSetPixel {fb fb' : Fb} (h : Addresses fb) {x y : UInt32} {pixel : FbPixel}
    (hset : fbSetPixel fb x y pixel=some fb') (x' y' : UInt32) :
    fbGetPixel fb' x' y'=if x'=x ∧ y'=y then some pixel else fbGetPixel fb x' y' := by
  unfold fbSetPixel at hset
  split at hset
  · rename_i hin
    injection hset with hset
    rw [←hset]
    by_cases hsame : x'=x ∧ y'=y
    · rw [if_pos hsame,hsame.1,hsame.2]
      unfold fbGetPixel
      rw [if_pos hin]
      exact congrArg some (if_pos rfl)
    · rw [if_neg hsame]
      unfold fbGetPixel
      by_cases hin' : fb.size.Contains x' y'
      · rw [if_pos hin',if_pos hin']
        exact congrArg some (if_neg fun heq => hsame (h.apart x' y' x y hin' hin heq))
      · rw [if_neg hin',if_neg hin']
  · cases hset

end Shoreline.Addressing
