import Shoreline.Addressing
import Shoreline.Library.StoreLog

/-!
# The fbdev frontend

One running byte index is advanced by the row offset, the column offset, the
bytes of every pixel and the rest of the line. The row offset is counted in
pixels and the column offset is added on top of a full line, so the picture
lands where the screen expects it exactly if these two slips cannot show.
-/

namespace Shoreline.FbdevFrontend

open Framebuffer Coordinates Addressing StoreLog

/-- What is used of `struct fb_var_screeninfo`. -/
structure FbVarScreeninfo where
  xres : UInt32
  yres : UInt32
  xresVirtual : UInt32
  yresVirtual : UInt32
  xoffset : UInt32
  yoffset : UInt32
  bitsPerPixel : UInt32
  grayscale : UInt32
  deriving DecidableEq, Repr

/-- The heap block behind `fbmem`. -/
structure FbMem where
  /-- Bytes of the block. -/
  size : ℕ
  /-- The block, and what lies behind it. -/
  bytes : ℕ → UInt8

/-- `struct linuxfb`, without the path of the device. -/
structure Linuxfb where
  fb : Fb
  fd : ℤ
  fbmem : Option FbMem
  vscreen : FbVarScreeninfo
  pixelOffset : UInt32

/-- `bits_per_pixel / 8`. -/
def FbVarScreeninfo.bytesPerPixel (v : FbVarScreeninfo) : UInt32 := v.bitsPerPixel/8

/-- The format switch of `linuxfb_start`. -/
def depthSupported (v : FbVarScreeninfo) : Bool :=
  if v.bitsPerPixel=8 then v.grayscale=1
  else if v.bitsPerPixel=16 ∨ v.bitsPerPixel=24 ∨ v.bitsPerPixel=32 then v.grayscale=0
  else false

/-- The number of bytes that `linuxfb_start` asks for. -/
def blockSize (v : FbVarScreeninfo) (pixelOffset : UInt32) : ℕ :=
  v.bytesPerPixel.toNat*(v.xresVirtual*v.yresVirtual+pixelOffset).toNat

/-- `linuxfb_start`, given the outcomes of `open`, `ioctl` (a device or screen
info, or `errno`) and `calloc` (with what lies behind the block). An
unsupported format leaves the zero of the successful `ioctl` as the result. -/
def linuxfbStart (lf : Linuxfb) (opened : Except ℤ ℤ) (info : Except ℤ FbVarScreeninfo)
    (block : Option (ℕ → UInt8)) : ℤ×Linuxfb :=
  match opened with
  | .error errno => (-errno,lf)
  | .ok fd =>
    match info with
    | .error errno => (-errno,lf)
    | .ok vscreen =>
      let lf := {lf with vscreen := vscreen}
      if depthSupported vscreen then
        match block with
        | none => (-ENOMEM,lf)
        | some heap =>
          let size := blockSize vscreen lf.pixelOffset
          let bytes := fun i => if i<size then 0 else heap i
          (0,{lf with fd := fd, fbmem := some ⟨size,bytes⟩})
      else (0,lf)

/-- The bytes that the format switch of `linuxfb_update` stores for a pixel. -/
def pixelBytes (host : Host) (bitsPerPixel : UInt32) (px : FbPixel) : Option (List UInt8) :=
  let c := channels host px
  if bitsPerPixel=16 then
    some [(c.blue >>> 3) ||| (((c.green >>> 2) &&& 0x07) <<< 5),
      (((c.green >>> 2) &&& 0x38) >>> 3) ||| (c.red &&& 0xF8)]
  else if bitsPerPixel=32 then some [c.alpha,c.blue,c.green,c.red]
  else if bitsPerPixel=24 then some [c.blue,c.green,c.red]
  else if bitsPerPixel=8 then some [c.red]
  else none

/-- `px_index`, and what has been stored to `fbmem` so far. -/
structure Painter where
  pxIndex : UInt32
  stores : List (ℕ×UInt8)
  deriving DecidableEq, Repr

/-- `fbmem[px_index++] = byte`. -/
def Painter.put (painter : Painter) (byte : UInt8) : Painter :=
  ⟨painter.pxIndex+1,painter.stores++[(painter.pxIndex.toNat,byte)]⟩

/-- `px_index += n`. -/
def Painter.advance (painter : Painter) (n : UInt32) : Painter :=
  {painter with pxIndex := painter.pxIndex+n}

/-- The loop over the columns, from `x` with so many to go. A failed assertion
is `none`. -/
def columnLoop (host : Host) (lf : Linuxfb) (y : UInt32) :
    ℕ → UInt32 → Painter → Option (ℤ×Painter)
  | 0,_,painter => some (0,painter)
  | n+1,x,painter =>
    match fbGetPixel lf.fb x y with
    | none => none
    | some px =>
      match pixelBytes host lf.vscreen.bitsPerPixel px with
      | none => some (-EINVAL,painter)
      | some bytes => columnLoop host lf y n (x+1) (bytes.foldl Painter.put painter)

/-- The macro `min`. -/
def least (a b : UInt32) : UInt32 := if a<b then a else b

/-- `min(fb->size.width, vscreen.xres)`. -/
def shownWidth (lf : Linuxfb) : UInt32 := least lf.fb.size.width lf.vscreen.xres

/-- `min(fb->size.height, vscreen.yres)`. -/
def shownHeight (lf : Linuxfb) : UInt32 := least lf.fb.size.height lf.vscreen.yres

/-- The loop over the lines, from `y` with so many to go. Behind the columns,
`x` is the shown width. -/
def lineLoop (host : Host) (lf : Linuxfb) : ℕ → UInt32 → Painter → Option (ℤ×Painter)
  | 0,_,painter => some (0,painter)
  | n+1,y,painter =>
    let v := lf.vscreen
    let started := painter.advance (v.xoffset*v.bytesPerPixel)
    match columnLoop host lf y (shownWidth lf).toNat 0 started with
    | none => none
    | some (err,painter) =>
      if err≠0 then some (err,painter)
      else
        lineLoop host lf n (y+1)
          (painter.advance ((v.xresVirtual-shownWidth lf)*v.bytesPerPixel))

/-- The conversion part of `linuxfb_update`. -/
def convert (host : Host) (lf : Linuxfb) : Option (ℤ×Painter) :=
  lineLoop host lf (shownHeight lf).toNat 0
    ⟨lf.pixelOffset+lf.vscreen.yoffset*lf.vscreen.xresVirtual,[]⟩

/-- The loop that writes the buffer to the device, for the given outcomes of
`write`: the result of the function, or `none` if these do not end it. -/
def writeLoop : ℕ → List (Except ℤ ℕ) → Option ℤ
  | 0,_ => some 0
  | _+1,[] => none
  | _+1,.error errno::_ => some (-errno)
  | len+1,.ok written::writes => writeLoop (len+1-written) writes

/-- What a call of `linuxfb_update` leaves. -/
structure Updated where
  /-- The result, if the call has returned. -/
  result : Option ℤ
  /-- The frontend. -/
  linuxfb : Linuxfb
  /-- Stores to `fbmem`, by byte index. -/
  stores : List (ℕ×UInt8)

/-- `linuxfb_update`. A store through an unset `fbmem` is `none`. -/
def linuxfbUpdate (host : Host) (lf : Linuxfb) (writes : List (Except ℤ ℕ)) : Option Updated :=
  match convert host lf with
  | none => none
  | some (err,painter) =>
    let v := lf.vscreen
    let len := (v.bytesPerPixel*v.xresVirtual*v.yresVirtual).toNat
    let result := if err≠0 then some err else writeLoop len writes
    match lf.fbmem with
    | none => if painter.stores=[] then some ⟨result,lf,[]⟩ else none
    | some mem =>
      let mem := {mem with bytes := storeAll mem.bytes painter.stores}
      some ⟨result,{lf with fbmem := some mem},painter.stores⟩

/-- The encoding of a pixel in a format: red only with 8 bits, a little-endian
word of five, six and five bits with red on top, or bytes from alpha or blue
up to red. -/
def encoding (bits : ℕ) (c : Channels) : List UInt8 :=
  match bits with
  | 8 => [c.red]
  | 16 =>
    let word := c.blue.toNat/8+32*(c.green.toNat/4)+2048*(c.red.toNat/8)
    [UInt8.ofNat (word%256),UInt8.ofNat (word/256)]
  | 24 => [c.blue,c.green,c.red]
  | 32 => [c.alpha,c.blue,c.green,c.red]
  | _ => []

/-- A screen that the driver can report: a supported number of bits, the
visible part inside the virtual screen, and less than 2^31 bytes. -/
structure Reported (v : FbVarScreeninfo) : Prop where
  bits : v.bitsPerPixel=8 ∨ v.bitsPerPixel=16 ∨ v.bitsPerPixel=24 ∨ v.bitsPerPixel=32
  columns : v.xoffset.toNat+v.xres.toNat≤v.xresVirtual.toNat
  lines : v.yoffset.toNat+v.yres.toNat≤v.yresVirtual.toNat
  bytes : v.xresVirtual.toNat*v.yresVirtual.toNat*4<2^31

/-- Bytes of a pixel on the screen. -/
def depth (v : FbVarScreeninfo) : ℕ := v.bitsPerPixel.toNat/8

/-- The first byte of a pixel, as the screen expects it. -/
def place (v : FbVarScreeninfo) (x y : ℕ) : ℕ :=
  RowMajor.index v.xresVirtual.toNat (v.xoffset.toNat+x) (v.yoffset.toNat+y)*depth v

/-- Byte `j` of the pixel at these coordinates. -/
def ShownByte (host : Host) (lf : Linuxfb) (x y j : ℕ) (byte : UInt8) : Prop :=
  x<(shownWidth lf).toNat ∧ y<(shownHeight lf).toNat ∧ ∃ px,
    fbGetPixel lf.fb (UInt32.ofNat x) (UInt32.ofNat y)=some px ∧
      (encoding lf.vscreen.bitsPerPixel.toNat (channels host px))[j]?=some byte

/-- An update puts every shown pixel where the screen expects it, stores to no
other byte, and stays inside its buffer. -/
structure Shows (host : Host) (lf : Linuxfb) (mem : FbMem) (updated : Updated) : Prop where
  /-- The bytes of the shown pixels are in place afterwards. -/
  placed : ∀ x y j byte, ShownByte host lf x y j byte →
    ∃ after, updated.linuxfb.fbmem=some after ∧ after.bytes (place lf.vscreen x y+j)=byte
  /-- Nothing else is stored. -/
  only : ∀ store∈updated.stores,
    ∃ x y j byte, ShownByte host lf x y j byte ∧ store.1=place lf.vscreen x y+j
  /-- Every store is inside the block. -/
  inside : ∀ store∈updated.stores,store.1 < mem.size

/-- The slips of the running index cannot show: nothing is shown, or rows
above are absent or counted in bytes of one each, and there is only one line
or no column offset. -/
def Aligned (lf : Linuxfb) : Prop :=
  (shownWidth lf=0 ∨ shownHeight lf=0) ∨
    ((lf.vscreen.yoffset=0 ∨ lf.vscreen.bitsPerPixel=8) ∧
      (lf.vscreen.xoffset=0 ∨ shownHeight lf=1))

instance (lf : Linuxfb) : Decidable (Aligned lf) := inferInstanceAs (Decidable (_ ∨ _))

/-- Two numbers with separate bits. -/
theorem or_eq_add {a b : UInt8} (i k : ℕ) (ha : a.toNat<2^i) (hb : b.toNat=2^i*k) :
    (a ||| b).toNat=a.toNat+b.toNat := by
  rw [UInt8.toNat_or,hb,Nat.or_comm,←Nat.two_pow_add_eq_or_of_lt ha,Nat.add_comm]

/-- Six bits of green. -/
theorem green_toNat (green : UInt8) : (green >>> 2).toNat=green.toNat/4 := by
  rw [UInt8.toNat_shiftRight,Nat.shiftRight_eq_div_pow]
  rfl

/-- The low byte of the 16 bit word. -/
theorem low_byte (c : Channels) :
    (c.blue >>> 3) ||| (((c.green >>> 2) &&& 0x07) <<< 5)=
      UInt8.ofNat ((c.blue.toNat/8+32*(c.green.toNat/4)+2048*(c.red.toNat/8))%256) := by
  have hb := c.blue.toNat_lt
  have hblue : (c.blue >>> 3).toNat=c.blue.toNat/8 := by
    rw [UInt8.toNat_shiftRight,Nat.shiftRight_eq_div_pow]
    rfl
  have hand : ((c.green >>> 2) &&& 0x07).toNat=c.green.toNat/4%8 := by
    rw [UInt8.toNat_and,green_toNat]
    exact Nat.and_two_pow_sub_one_eq_mod _ 3
  have hgreen : (((c.green >>> 2) &&& 0x07) <<< 5).toNat=2^5*(c.green.toNat/4%8) := by
    rw [UInt8.toNat_shiftLeft,hand,Nat.shiftLeft_eq]
    change c.green.toNat/4%8*2^5%2^8=_
    omega
  apply UInt8.toNat_inj.mp
  rw [or_eq_add 5 _ (by omega) hgreen,hblue,hgreen,UInt8.toNat_ofNat']
  omega

/-- The high byte of the 16 bit word. -/
theorem high_byte (c : Channels) :
    (((c.green >>> 2) &&& 0x38) >>> 3) ||| (c.red &&& 0xF8)=
      UInt8.ofNat ((c.blue.toNat/8+32*(c.green.toNat/4)+2048*(c.red.toNat/8))/256) := by
  have hb := c.blue.toNat_lt
  have hg := c.green.toNat_lt
  have hr := c.red.toNat_lt
  have hgreen : (((c.green >>> 2) &&& 0x38) >>> 3).toNat=c.green.toNat/32 := by
    rw [UInt8.toNat_shiftRight,UInt8.toNat_and,green_toNat]
    change (c.green.toNat/4 &&& 56) >>> 3=_
    rw [Nat.shiftRight_and_distrib,Nat.shiftRight_eq_div_pow]
    change c.green.toNat/4/2^3 &&& (2^3-1)=_
    rw [Nat.and_two_pow_sub_one_eq_mod]
    omega
  have hmask : ∀ n : Fin 256,n.val &&& 248=2^3*(n.val/8) := by decide +kernel
  have hred : (c.red &&& 0xF8).toNat=2^3*(c.red.toNat/8) := by
    rw [UInt8.toNat_and]
    exact hmask ⟨c.red.toNat,hr⟩
  apply UInt8.toNat_inj.mp
  rw [or_eq_add 3 _ (by omega) hred,hgreen,hred,UInt8.toNat_ofNat']
  omega

/-- The switch stores the encoding of the format. -/
theorem pixelBytes_eq (host : Host) {v : FbVarScreeninfo} (hv : Reported v) (px : FbPixel) :
    pixelBytes host v.bitsPerPixel px=some (encoding v.bitsPerPixel.toNat (channels host px)) ∧
      (encoding v.bitsPerPixel.toNat (channels host px)).length=depth v := by
  rw [depth]
  have h16 : (16 : UInt32).toNat=16 := rfl
  have h24 : (24 : UInt32).toNat=24 := rfl
  have h32 : (32 : UInt32).toNat=32 := rfl
  rcases hv.bits with h|h|h|h
  · rw [h]
    exact ⟨rfl,rfl⟩
  · rw [h,h16]
    refine ⟨?_,rfl⟩
    rw [pixelBytes]
    simp only [if_true,low_byte,high_byte]
    rfl
  · rw [h,h24]
    exact ⟨rfl,rfl⟩
  · rw [h,h32]
    exact ⟨rfl,rfl⟩

/-- Bytes stored one after the other. -/
theorem mem_foldl_put (bytes : List UInt8) (painter : Painter)
    (hfit : painter.pxIndex.toNat+bytes.length<2^32) :
    (bytes.foldl Painter.put painter).pxIndex.toNat=painter.pxIndex.toNat+bytes.length ∧
      ∀ store, store∈(bytes.foldl Painter.put painter).stores ↔ store∈painter.stores ∨
        ∃ j byte, bytes[j]?=some byte ∧ store=(painter.pxIndex.toNat+j,byte) := by
  induction bytes generalizing painter with
  | nil => simp
  | cons byte bytes ih =>
    rw [List.length_cons] at hfit
    have hnext : (painter.put byte).pxIndex.toNat=painter.pxIndex.toNat+1 := by
      rw [Painter.put,UInt32.toNat_add]
      exact Nat.mod_eq_of_lt (by change painter.pxIndex.toNat+1<2^32; omega)
    obtain ⟨hindex,hstores⟩ := ih (painter.put byte) (by omega)
    rw [List.foldl_cons]
    refine ⟨by rw [hindex,hnext,List.length_cons]; omega,fun store => ?_⟩
    have hput : store∈(painter.put byte).stores ↔
        store∈painter.stores ∨ store=(painter.pxIndex.toNat,byte) := by
      rw [Painter.put,List.mem_append,List.mem_singleton]
    rw [hstores,hnext,hput,or_assoc]
    refine or_congr_right ((or_congr ?_ ?_).trans Nat.or_exists_add_one)
    · simp only [List.getElem?_cons_zero,Option.some.injEq,exists_eq_left',Nat.add_zero]
    · simp only [List.getElem?_cons_succ,Nat.add_assoc,Nat.add_comm 1]

/-- An advance that fits. -/
theorem advance_toNat (painter : Painter) (n : UInt32)
    (hfit : painter.pxIndex.toNat+n.toNat<2^32) :
    (painter.advance n).pxIndex.toNat=painter.pxIndex.toNat+n.toNat := by
  rw [Painter.advance,UInt32.toNat_add]
  exact Nat.mod_eq_of_lt hfit

section

variable (host : Host) {lf : Linuxfb}

/-- What a run of the column loop stores: each pixel behind the one before. -/
theorem columnLoop_spec (hv : Reported lf.vscreen) {y : ℕ} (hy : y<lf.fb.size.height.toNat)
    (n x : ℕ) (hx : x+n≤lf.fb.size.width.toNat) (painter : Painter)
    (hfit : painter.pxIndex.toNat+n*depth lf.vscreen<2^32) :
    ∃ after, columnLoop host lf (UInt32.ofNat y) n (UInt32.ofNat x) painter=some (0,after) ∧
      after.pxIndex.toNat=painter.pxIndex.toNat+n*depth lf.vscreen ∧
      ∀ store, store∈after.stores ↔ store∈painter.stores ∨
        ∃ k<n, ∃ j byte px, fbGetPixel lf.fb (UInt32.ofNat (x+k)) (UInt32.ofNat y)=some px ∧
          (encoding lf.vscreen.bitsPerPixel.toNat (channels host px))[j]?=some byte ∧
          store=(painter.pxIndex.toNat+k*depth lf.vscreen+j,byte) := by
  induction n generalizing x painter with
  | zero =>
    refine ⟨painter,rfl,by omega,fun store => ?_⟩
    simp
  | succ n ih =>
    have hpixel : ∃ px, fbGetPixel lf.fb (UInt32.ofNat x) (UInt32.ofNat y)=some px := by
      rw [fbGetPixel,if_pos (contains_ofNat (by omega) hy)]
      exact ⟨_,rfl⟩
    obtain ⟨px,hpx⟩ := hpixel
    obtain ⟨hbytes,hlength⟩ := pixelBytes_eq host hv px
    rw [Nat.succ_mul] at hfit
    obtain ⟨hindex,hput⟩ := mem_foldl_put
      (encoding lf.vscreen.bitsPerPixel.toNat (channels host px)) painter (by omega)
    rw [hlength] at hindex
    obtain ⟨after,hrun,hafter,hstores⟩ := ih (x+1) (by omega)
      ((encoding lf.vscreen.bitsPerPixel.toNat (channels host px)).foldl Painter.put painter)
      (by omega)
    rw [UInt32.ofNat_add] at hrun
    refine ⟨after,?_,by rw [hafter,hindex,Nat.succ_mul]; omega,fun store => ?_⟩
    · rw [columnLoop]
      simp only [hpx,hbytes]
      exact hrun
    · rw [hstores,hput,hindex,or_assoc,Nat.exists_lt_succ_left]
      -- the first pixel was stored here, the others by the rest of the loop
      refine or_congr_right (or_congr ?_ ?_)
      · simp only [Nat.add_zero,Nat.zero_mul,hpx,Option.some.injEq,exists_eq_left']
      · refine exists_congr fun k => and_congr_right fun _ => ?_
        rw [Nat.succ_mul,Nat.add_assoc painter.pxIndex.toNat,Nat.add_comm (depth _),
          Nat.add_assoc x,Nat.add_comm 1 k]

/-- The smaller of two words. -/
theorem toNat_least (a b : UInt32) : (least a b).toNat=min a.toNat b.toNat := by
  rw [least]
  split
  · rename_i h
    have hlt := UInt32.lt_iff_toNat_lt.mp h
    omega
  · rename_i h
    have hle := UInt32.le_iff_toNat_le.mp (UInt32.not_lt.mp h)
    omega

/-- From one line to the next the index moves by a virtual line and the column
offset. -/
def stride (v : FbVarScreeninfo) : ℕ :=
  v.xoffset.toNat*depth v+v.xresVirtual.toNat*depth v

/-- A shown line is cut off at the surface and at the screen. -/
theorem shownWidth_le (hv : Reported lf.vscreen) :
    (shownWidth lf).toNat≤lf.fb.size.width.toNat ∧
      lf.vscreen.xoffset.toNat+(shownWidth lf).toNat≤lf.vscreen.xresVirtual.toNat := by
  have hcolumns := hv.columns
  have hmin := toNat_least lf.fb.size.width lf.vscreen.xres
  rw [shownWidth]
  omega

/-- What the line loop stores: the lines follow each other by the stride. -/
theorem lineLoop_spec (hv : Reported lf.vscreen) (n y : ℕ)
    (hy : y+n≤lf.fb.size.height.toNat) (painter : Painter)
    (hfit : painter.pxIndex.toNat+n*stride lf.vscreen<2^32) :
    ∃ after, lineLoop host lf n (UInt32.ofNat y) painter=some (0,after) ∧
      ∀ store, store∈after.stores ↔ store∈painter.stores ∨
        ∃ r<n, ∃ k<(shownWidth lf).toNat, ∃ j byte px,
          fbGetPixel lf.fb (UInt32.ofNat k) (UInt32.ofNat (y+r))=some px ∧
          (encoding lf.vscreen.bitsPerPixel.toNat (channels host px))[j]?=some byte ∧
          store=(painter.pxIndex.toNat+r*stride lf.vscreen+
            lf.vscreen.xoffset.toNat*depth lf.vscreen+k*depth lf.vscreen+j,byte) := by
  induction n generalizing y painter with
  | zero =>
    refine ⟨painter,rfl,fun store => ?_⟩
    simp
  | succ n ih =>
    obtain ⟨hwidth,hvirtual⟩ := shownWidth_le hv
    have hdepth : lf.vscreen.bytesPerPixel.toNat=depth lf.vscreen := UInt32.toNat_div _ _
    have hrest : lf.vscreen.xresVirtual.toNat*depth lf.vscreen=
        (shownWidth lf).toNat*depth lf.vscreen+
          (lf.vscreen.xresVirtual.toNat-(shownWidth lf).toNat)*depth lf.vscreen := by
      rw [←Nat.add_mul]
      congr 1
      omega
    have hstride := hfit
    rw [Nat.succ_mul,stride] at hstride
    have hoffset : (lf.vscreen.xoffset*lf.vscreen.bytesPerPixel).toNat=
        lf.vscreen.xoffset.toNat*depth lf.vscreen := by
      rw [UInt32.toNat_mul,hdepth]
      exact Nat.mod_eq_of_lt (by omega)
    have hremainder : ((lf.vscreen.xresVirtual-shownWidth lf)*lf.vscreen.bytesPerPixel).toNat=
        (lf.vscreen.xresVirtual.toNat-(shownWidth lf).toNat)*depth lf.vscreen := by
      rw [UInt32.toNat_mul,hdepth,UInt32.toNat_sub_of_le _ _ (UInt32.le_iff_toNat_le.mpr (by omega))]
      exact Nat.mod_eq_of_lt (by omega)
    have hstarted := advance_toNat painter (lf.vscreen.xoffset*lf.vscreen.bytesPerPixel)
      (by rw [hoffset]; omega)
    rw [hoffset] at hstarted
    obtain ⟨drawn,hline,hdrawn,hstores⟩ := columnLoop_spec host hv
      (by omega : y<lf.fb.size.height.toNat) (shownWidth lf).toNat 0 (by omega)
      (painter.advance (lf.vscreen.xoffset*lf.vscreen.bytesPerPixel)) (by omega)
    change columnLoop host lf (UInt32.ofNat y) (shownWidth lf).toNat 0 _=_ at hline
    rw [hstarted] at hdrawn hstores
    have hnext := advance_toNat drawn
      ((lf.vscreen.xresVirtual-shownWidth lf)*lf.vscreen.bytesPerPixel)
      (by rw [hremainder]; omega)
    rw [hremainder,hdrawn] at hnext
    have hindex : painter.pxIndex.toNat+lf.vscreen.xoffset.toNat*depth lf.vscreen+
        (shownWidth lf).toNat*depth lf.vscreen+
          (lf.vscreen.xresVirtual.toNat-(shownWidth lf).toNat)*depth lf.vscreen=
        painter.pxIndex.toNat+stride lf.vscreen := by
      rw [stride]
      omega
    rw [hindex] at hnext
    obtain ⟨after,hrun,hafter⟩ := ih (y+1) (by omega)
      (drawn.advance ((lf.vscreen.xresVirtual-shownWidth lf)*lf.vscreen.bytesPerPixel))
      (by rw [hnext,stride]; omega)
    rw [UInt32.ofNat_add] at hrun
    refine ⟨after,?_,fun store => ?_⟩
    · rw [lineLoop]
      simp only [hline]
      exact hrun
    · rw [hafter,hnext,Nat.exists_lt_succ_left]
      change store∈drawn.stores ∨ _ ↔ _
      rw [hstores,or_assoc]
      refine or_congr_right (or_congr ?_ ?_)
      · simp only [Nat.zero_add,Nat.add_zero,Nat.zero_mul]
      · refine exists_congr fun r => and_congr_right fun _ => ?_
        rw [Nat.succ_mul,Nat.add_assoc painter.pxIndex.toNat,Nat.add_comm (stride _),
          Nat.add_assoc y,Nat.add_comm 1 r]

/-- Where a pixel of the picture is stored. -/
def storedAt (v : FbVarScreeninfo) (x y : ℕ) : ℕ :=
  v.yoffset.toNat*v.xresVirtual.toNat+y*stride v+v.xoffset.toNat*depth v+x*depth v

/-- The index stays below 2^32. -/
theorem index_fits (hv : Reported lf.vscreen) :
    lf.vscreen.yoffset.toNat*lf.vscreen.xresVirtual.toNat+
      (shownHeight lf).toNat*stride lf.vscreen<2^32 := by
  have hbits := hv.bits
  have hlines := hv.lines
  have hbytes := hv.bytes
  have hcolumns := hv.columns
  have hheight := toNat_least lf.fb.size.height lf.vscreen.yres
  have hdepth : depth lf.vscreen≤4 := by
    rw [depth]
    rcases hbits with h|h|h|h <;> rw [h] <;> decide
  have hstride : stride lf.vscreen≤2*(lf.vscreen.xresVirtual.toNat*4) := by
    have hoffset := Nat.mul_le_mul
      (by omega : lf.vscreen.xoffset.toNat≤lf.vscreen.xresVirtual.toNat) hdepth
    have hline := Nat.mul_le_mul_left lf.vscreen.xresVirtual.toNat hdepth
    rw [stride]
    omega
  have hshown : (shownHeight lf).toNat≤lf.vscreen.yresVirtual.toNat-lf.vscreen.yoffset.toNat := by
    rw [shownHeight]
    omega
  have hall := Nat.mul_le_mul hshown hstride
  have hsplit : lf.vscreen.yoffset.toNat*lf.vscreen.xresVirtual.toNat+
      (lf.vscreen.yresVirtual.toNat-lf.vscreen.yoffset.toNat)*lf.vscreen.xresVirtual.toNat=
      lf.vscreen.xresVirtual.toNat*lf.vscreen.yresVirtual.toNat := by
    rw [←Nat.add_mul,Nat.mul_comm]
    congr 1
    omega
  have hmul : (lf.vscreen.yresVirtual.toNat-lf.vscreen.yoffset.toNat)*
      (2*(lf.vscreen.xresVirtual.toNat*4))=
      8*((lf.vscreen.yresVirtual.toNat-lf.vscreen.yoffset.toNat)*
        lf.vscreen.xresVirtual.toNat) := by ring
  omega

/-- What an update stores: every byte of the shown pixels, at the place of the
running index. -/
theorem convert_spec (hv : Reported lf.vscreen) (hoffset : lf.pixelOffset=0) :
    ∃ painter, convert host lf=some (0,painter) ∧ ∀ store, store∈painter.stores ↔
      ∃ x y j byte, ShownByte host lf x y j byte ∧
        store=(storedAt lf.vscreen x y+j,byte) := by
  have hfits := index_fits hv
  have hstart : (lf.pixelOffset+lf.vscreen.yoffset*lf.vscreen.xresVirtual).toNat=
      lf.vscreen.yoffset.toNat*lf.vscreen.xresVirtual.toNat := by
    rw [hoffset,UInt32.zero_add,UInt32.toNat_mul]
    exact Nat.mod_eq_of_lt (by omega)
  have hheight := toNat_least lf.fb.size.height lf.vscreen.yres
  obtain ⟨after,hrun,hstores⟩ := lineLoop_spec host hv (shownHeight lf).toNat 0
    (by rw [shownHeight]; omega)
    ⟨lf.pixelOffset+lf.vscreen.yoffset*lf.vscreen.xresVirtual,[]⟩ (by rw [hstart]; exact hfits)
  refine ⟨after,hrun,fun store => ?_⟩
  rw [hstores,hstart]
  constructor
  · intro h
    obtain ⟨y,hy,x,hx,j,byte,px,hpx,hj,heq⟩ := h.resolve_left List.not_mem_nil
    rw [Nat.zero_add] at hpx
    exact ⟨x,y,j,byte,⟨hx,hy,px,hpx,hj⟩,heq⟩
  · intro ⟨x,y,j,byte,⟨hx,hy,px,hpx,hj⟩,heq⟩
    refine Or.inr ⟨y,hy,x,hx,j,byte,px,?_,hj,heq⟩
    rwa [Nat.zero_add]

/-- A pixel has at least one byte. -/
theorem depth_pos {v : FbVarScreeninfo} (hv : Reported v) : 0 < depth v := by
  rw [depth]
  rcases hv.bits with h|h|h|h <;> rw [h] <;> decide

/-- A byte of a shown pixel has a number below the depth. -/
theorem ShownByte.lt_depth (hv : Reported lf.vscreen) {x y j : ℕ} {byte : UInt8}
    (h : ShownByte host lf x y j byte) : j<depth lf.vscreen := by
  obtain ⟨-,-,px,-,hj⟩ := h
  rw [←(pixelBytes_eq host hv px).2]
  exact (List.getElem?_eq_some_iff.mp hj).1

/-- Every byte of a shown pixel is there. -/
theorem exists_shownByte (hv : Reported lf.vscreen) {x y j : ℕ} (hx : x<(shownWidth lf).toNat)
    (hy : y<(shownHeight lf).toNat) (hj : j<depth lf.vscreen) :
    ∃ byte, ShownByte host lf x y j byte := by
  have hwidth := toNat_least lf.fb.size.width lf.vscreen.xres
  have hheight := toNat_least lf.fb.size.height lf.vscreen.yres
  rw [shownWidth] at hx
  rw [shownHeight] at hy
  have hpx : fbGetPixel lf.fb (UInt32.ofNat x) (UInt32.ofNat y)=
      some (lf.fb.pixels (fbIndex lf.fb (UInt32.ofNat x) (UInt32.ofNat y))) := by
    rw [fbGetPixel,if_pos (contains_ofNat (by omega) (by omega))]
  have hbyte := List.getElem?_eq_getElem
    ((pixelBytes_eq host hv (lf.fb.pixels
      (fbIndex lf.fb (UInt32.ofNat x) (UInt32.ofNat y)))).2.symm▸hj)
  exact ⟨_,hx,hy,_,hpx,hbyte⟩

/-- The expected place, written out. -/
theorem place_eq (v : FbVarScreeninfo) (x y : ℕ) :
    place v x y=v.yoffset.toNat*v.xresVirtual.toNat*depth v+
      y*(v.xresVirtual.toNat*depth v)+v.xoffset.toNat*depth v+x*depth v := by
  rw [place,RowMajor.index]
  ring

/-- Shown pixels are columns of the virtual screen. -/
theorem shown_column (hv : Reported lf.vscreen) {x : ℕ} (hx : x<(shownWidth lf).toNat) :
    lf.vscreen.xoffset.toNat+x<lf.vscreen.xresVirtual.toNat := by
  have hwidth := shownWidth_le hv
  omega

/-- The expected places of different bytes are different. -/
theorem place_inj (hv : Reported lf.vscreen) {x y j x' y' j' : ℕ}
    (hx : x<(shownWidth lf).toNat) (hx' : x'<(shownWidth lf).toNat)
    (hj : j<depth lf.vscreen) (hj' : j'<depth lf.vscreen)
    (h : place lf.vscreen x y+j=place lf.vscreen x' y'+j') : x=x' ∧ y=y' ∧ j=j' := by
  have hbyte := RowMajor.index_inj hj hj' h
  have hpixel := RowMajor.index_inj (shown_column hv hx) (shown_column hv hx') hbyte.2
  exact ⟨by omega,by omega,hbyte.1⟩

/-- Every expected place is inside the block. -/
theorem place_inside (hv : Reported lf.vscreen) {x y j : ℕ} (hx : x<(shownWidth lf).toNat)
    (hy : y<(shownHeight lf).toNat) (hj : j<depth lf.vscreen) :
    place lf.vscreen x y+j<blockSize lf.vscreen 0 := by
  have hlines := hv.lines
  have hbytes := hv.bytes
  have hheight := toNat_least lf.fb.size.height lf.vscreen.yres
  rw [shownHeight] at hy
  have hproduct : (lf.vscreen.xresVirtual*lf.vscreen.yresVirtual+0).toNat=
      lf.vscreen.xresVirtual.toNat*lf.vscreen.yresVirtual.toNat := by
    rw [UInt32.add_zero,UInt32.toNat_mul]
    exact Nat.mod_eq_of_lt (by omega)
  have hpixel := RowMajor.index_lt (shown_column hv hx)
    (by omega : lf.vscreen.yoffset.toNat+y<lf.vscreen.yresVirtual.toNat)
  rw [blockSize,hproduct]
  exact RowMajor.index_lt hj hpixel

/-- Without the slips the running index is at the expected place. -/
theorem storedAt_of_aligned (h : Aligned lf) {x y : ℕ} (hx : x<(shownWidth lf).toNat)
    (hy : y<(shownHeight lf).toNat) : storedAt lf.vscreen x y=place lf.vscreen x y := by
  rcases h with h|⟨hrows,hcolumns⟩
  · rcases h with h|h
    · rw [h] at hx
      exact absurd hx (Nat.not_lt_zero x)
    · rw [h] at hy
      exact absurd hy (Nat.not_lt_zero y)
  · have habove : lf.vscreen.yoffset.toNat*lf.vscreen.xresVirtual.toNat=
        lf.vscreen.yoffset.toNat*lf.vscreen.xresVirtual.toNat*depth lf.vscreen := by
      rcases hrows with h|h
      · rw [h]
        exact (Nat.zero_mul _).trans (by rw [UInt32.toNat_zero,Nat.zero_mul,Nat.zero_mul])
      · have hdepth : depth lf.vscreen=1 := by rw [depth,h]; rfl
        rw [hdepth,Nat.mul_one]
    have hline : y*stride lf.vscreen=y*(lf.vscreen.xresVirtual.toNat*depth lf.vscreen) := by
      rcases hcolumns with h|h
      · rw [stride,h,UInt32.toNat_zero,Nat.zero_mul,Nat.zero_add]
      · rw [h] at hy
        have hzero : y=0 := Nat.lt_one_iff.mp hy
        rw [hzero,Nat.zero_mul,Nat.zero_mul]
    rw [storedAt,place_eq,←habove,hline]

/-- A slip that can show stores a byte at a place that is not expected. -/
theorem aligned_of_places (hv : Reported lf.vscreen)
    (h : ∀ x<(shownWidth lf).toNat,∀ y<(shownHeight lf).toNat,∀ j<depth lf.vscreen,
      ∃ x'<(shownWidth lf).toNat, ∃ y'<(shownHeight lf).toNat, ∃ j'<depth lf.vscreen,
        storedAt lf.vscreen x y+j=place lf.vscreen x' y'+j') : Aligned lf := by
  have hdepth := depth_pos hv
  rcases Nat.eq_zero_or_pos (shownWidth lf).toNat with hw|hw
  · exact Or.inl (Or.inl (UInt32.toNat_inj.mp hw))
  rcases Nat.eq_zero_or_pos (shownHeight lf).toNat with hh|hh
  · exact Or.inl (Or.inr (UInt32.toNat_inj.mp hh))
  have hvirtual := shown_column hv hw
  -- the first byte that is stored shows how the rows above are counted
  have hrows : lf.vscreen.yoffset=0 ∨ depth lf.vscreen=1 := by
    obtain ⟨x,-,y,-,j,-,heq⟩ := h 0 hw 0 hh 0 hdepth
    rw [storedAt,place_eq,Nat.zero_mul,Nat.zero_mul] at heq
    by_contra hnot
    obtain ⟨hy,hd⟩ := not_or.mp hnot
    have habove : 0 < lf.vscreen.yoffset.toNat*lf.vscreen.xresVirtual.toNat :=
      Nat.mul_pos (Nat.pos_of_ne_zero fun hzero => hy (UInt32.toNat_inj.mp hzero)) (by omega)
    have htwice := Nat.mul_le_mul_left
      (lf.vscreen.yoffset.toNat*lf.vscreen.xresVirtual.toNat) (by omega : 2≤depth lf.vscreen)
    omega
  -- the last one shows whether the lines drift
  have hcolumns : lf.vscreen.xoffset=0 ∨ shownHeight lf=1 := by
    obtain ⟨x,hx,y,hy,j,hj,heq⟩ := h _ (Nat.sub_one_lt_of_lt hw) _ (Nat.sub_one_lt_of_lt hh) _
      (Nat.sub_one_lt_of_lt hdepth)
    rw [storedAt,place_eq,stride,Nat.mul_add] at heq
    have habove : lf.vscreen.yoffset.toNat*lf.vscreen.xresVirtual.toNat=
        lf.vscreen.yoffset.toNat*lf.vscreen.xresVirtual.toNat*depth lf.vscreen := by
      rcases hrows with hzero|hone
      · rw [hzero,UInt32.toNat_zero,Nat.zero_mul,Nat.zero_mul]
      · rw [hone,Nat.mul_one]
    by_contra hnot
    obtain ⟨hxoff,hheight⟩ := not_or.mp hnot
    have hone : (shownHeight lf).toNat≠1 := fun hone => hheight (UInt32.toNat_inj.mp hone)
    have hoffset : 0 < lf.vscreen.xoffset.toNat*depth lf.vscreen :=
      Nat.mul_pos (Nat.pos_of_ne_zero fun hzero => hxoff (UInt32.toNat_inj.mp hzero)) hdepth
    have hdrift := Nat.mul_pos (by omega : 0 < (shownHeight lf).toNat-1) hoffset
    have hline := Nat.mul_le_mul_right (lf.vscreen.xresVirtual.toNat*depth lf.vscreen)
      (by omega : y≤(shownHeight lf).toNat-1)
    have hcolumn := Nat.mul_le_mul_right (depth lf.vscreen)
      (by omega : x≤(shownWidth lf).toNat-1)
    omega
  refine Or.inr ⟨hrows.imp_right fun hone => ?_,hcolumns⟩
  rw [depth] at hone
  rcases hv.bits with hbits|hbits|hbits|hbits
  · exact hbits
  all_goals
    rw [hbits] at hone
    cases hone

/-- The outcome of an update of a started frontend. -/
theorem linuxfbUpdate_spec (hv : Reported lf.vscreen) (hoffset : lf.pixelOffset=0) {mem : FbMem}
    (hmem : lf.fbmem=some mem) (writes : List (Except ℤ ℕ)) :
    ∃ stores, linuxfbUpdate host lf writes=some ⟨writeLoop (lf.vscreen.bytesPerPixel*
          lf.vscreen.xresVirtual*lf.vscreen.yresVirtual).toNat writes,
        {lf with fbmem := some {mem with bytes := storeAll mem.bytes stores}},stores⟩ ∧
      ∀ store, store∈stores ↔ ∃ x y j byte, ShownByte host lf x y j byte ∧
        store=(storedAt lf.vscreen x y+j,byte) := by
  obtain ⟨painter,hrun,hstores⟩ := convert_spec host hv hoffset
  refine ⟨painter.stores,?_,hstores⟩
  simp only [linuxfbUpdate,hrun,hmem]
  rfl

/-- An update puts every shown pixel where the screen expects it, stores to no
other byte and stays inside the block of `linuxfb_start` exactly if the
frontend is aligned. -/
theorem shows_iff (hv : Reported lf.vscreen) (hoffset : lf.pixelOffset=0) {mem : FbMem}
    (hmem : lf.fbmem=some mem) (hsize : mem.size=blockSize lf.vscreen lf.pixelOffset)
    (writes : List (Except ℤ ℕ)) :
    (∃ updated, linuxfbUpdate host lf writes=some updated ∧ Shows host lf mem updated) ↔
      Aligned lf := by
  obtain ⟨stores,hupdate,hstores⟩ := linuxfbUpdate_spec host hv hoffset hmem writes
  constructor
  · intro ⟨updated,hupdated,hshows⟩
    rw [hupdate] at hupdated
    injection hupdated with hupdated
    refine aligned_of_places hv fun x hx y hy j hj => ?_
    obtain ⟨byte,hbyte⟩ := exists_shownByte host hv hx hy hj
    have honly := hshows.only (storedAt lf.vscreen x y+j,byte)
      (by rw [←hupdated]; exact (hstores _).mpr ⟨x,y,j,byte,hbyte,rfl⟩)
    obtain ⟨x',y',j',byte',hshown,heq⟩ := honly
    exact ⟨x',hshown.1,y',hshown.2.1,j',hshown.lt_depth host hv,heq⟩
  · intro haligned
    have hplaces : ∀ store, store∈stores ↔ ∃ x y j byte, ShownByte host lf x y j byte ∧
        store=(place lf.vscreen x y+j,byte) := by
      intro store
      rw [hstores]
      refine exists₄_congr fun x y j byte => and_congr_right fun hbyte => ?_
      rw [storedAt_of_aligned haligned hbyte.1 hbyte.2.1]
    refine ⟨_,hupdate,⟨fun x y j byte hbyte => ⟨_,rfl,?_⟩,fun store hstore => ?_,
      fun store hstore => ?_⟩⟩
    · refine storeAll_of_mem ((hplaces _).mpr ⟨x,y,j,byte,hbyte,rfl⟩) (fun store hstore heq => ?_) _
      obtain ⟨x',y',j',byte',hbyte',rfl⟩ := (hplaces store).mp hstore
      obtain ⟨rfl,rfl,rfl⟩ := place_inj hv hbyte'.1 hbyte.1 (hbyte'.lt_depth host hv)
        (hbyte.lt_depth host hv) heq
      obtain ⟨-,-,px,hpx,hj⟩ := hbyte
      obtain ⟨-,-,px',hpx',hj'⟩ := hbyte'
      rw [hpx] at hpx'
      injection hpx' with hpx'
      rw [←hpx',hj] at hj'
      injection hj' with hj'
      exact hj'.symm
    · obtain ⟨x,y,j,byte,hbyte,rfl⟩ := (hplaces store).mp hstore
      exact ⟨x,y,j,byte,hbyte,rfl⟩
    · obtain ⟨x,y,j,byte,hbyte,rfl⟩ := (hplaces store).mp hstore
      rw [hsize,hoffset]
      exact place_inside hv hbyte.1 hbyte.2.1 (hbyte.lt_depth host hv)

end

/-- A start that goes through leaves a block of the size it asked for. -/
theorem linuxfbStart_block {lf after : Linuxfb} {opened : Except ℤ ℤ}
    {info : Except ℤ FbVarScreeninfo} {block : Option (ℕ → UInt8)}
    (h : linuxfbStart lf opened info block=(0,after)) {mem : FbMem} (hnone : lf.fbmem=none)
    (hmem : after.fbmem=some mem) :
    depthSupported after.vscreen=true ∧ mem.size=blockSize after.vscreen after.pixelOffset := by
  unfold linuxfbStart at h
  cases opened with
  | error errno =>
    injection h with _ h
    rw [←h,hnone] at hmem
    cases hmem
  | ok fd =>
    cases info with
    | error errno =>
      injection h with _ h
      rw [←h,hnone] at hmem
      cases hmem
    | ok vscreen =>
      dsimp only at h
      split at h
      · rename_i hdepth
        cases block with
        | none =>
          injection h with h _
          simp [ENOMEM] at h
        | some heap =>
          injection h with _ h
          rw [←h] at hmem ⊢
          injection hmem with hmem
          rw [←hmem]
          exact ⟨hdepth,rfl⟩
      · injection h with _ h
        rw [←h] at hmem
        change lf.fbmem=some mem at hmem
        rw [hnone] at hmem
        cases hmem

/-- A screen of 2 by 2 pixels with 32 bits. -/
def smallScreen (xresVirtual yresVirtual xoffset yoffset : UInt32) : FbVarScreeninfo :=
  ⟨2,2,xresVirtual,yresVirtual,xoffset,yoffset,32,0⟩

/-- The frontend started on such a screen, for a surface of its size. -/
def smallFrontend (v : FbVarScreeninfo) : Linuxfb :=
  (linuxfbStart ⟨obtained ⟨2,2⟩,-1,none,v,0⟩ (.ok 3) (.ok v) (some fun _ => 0)).2

/-- The block of such a frontend. -/
def smallBlock (size : ℕ) : FbMem := ⟨size,fun _ => 0⟩

/-- It is the one that the start allocates. -/
theorem smallFrontend_fbmem {v : FbVarScreeninfo} {size : ℕ} (h : depthSupported v=true)
    (hsize : blockSize v 0=size) : (smallFrontend v).fbmem=some (smallBlock size) := by
  simp only [smallFrontend,linuxfbStart,h,if_true,ite_self,smallBlock,hsize]

/-- A screen that is visible as a whole. -/
theorem shows_iff_whole :
    (∃ updated, linuxfbUpdate .littleEndian (smallFrontend (smallScreen 2 2 0 0)) []=some updated ∧
      Shows .littleEndian (smallFrontend (smallScreen 2 2 0 0)) (smallBlock 16) updated) ↔
      Aligned (smallFrontend (smallScreen 2 2 0 0)) :=
  shows_iff .littleEndian
    ⟨Or.inr (Or.inr (Or.inr rfl)),by decide,by decide,by decide⟩ rfl
    (smallFrontend_fbmem (by decide) (by decide)) rfl []

/-- On a virtual screen of 4 by 2 pixels whose right half is visible, the
second line is stored behind the block of 32 bytes. -/
theorem panned_not_shows :
    (smallFrontend (smallScreen 4 2 2 0)).fbmem=some (smallBlock 32) ∧
      (linuxfbUpdate .littleEndian (smallFrontend (smallScreen 4 2 2 0)) []).map
        (fun updated => updated.stores.map Prod.fst)=
        some [8,9,10,11,12,13,14,15,32,33,34,35,36,37,38,39] ∧
      ¬∃ updated,
        linuxfbUpdate .littleEndian (smallFrontend (smallScreen 4 2 2 0)) []=some updated ∧
        Shows .littleEndian (smallFrontend (smallScreen 4 2 2 0)) (smallBlock 32) updated := by
  have hstores : (linuxfbUpdate .littleEndian (smallFrontend (smallScreen 4 2 2 0)) []).map
      (fun updated => updated.stores.map Prod.fst)=
      some [8,9,10,11,12,13,14,15,32,33,34,35,36,37,38,39] := by decide +kernel
  refine ⟨smallFrontend_fbmem (by decide) (by decide),hstores,fun ⟨updated,hupdate,hshows⟩ => ?_⟩
  rw [hupdate,Option.map_some] at hstores
  have hmem : 32∈updated.stores.map Prod.fst := by
    rw [Option.some.inj hstores]
    decide
  obtain ⟨store,hstore,heq⟩ := List.mem_map.mp hmem
  have hlt := hshows.inside store hstore
  rw [heq] at hlt
  exact absurd hlt (Nat.lt_irrefl 32)

end Shoreline.FbdevFrontend
