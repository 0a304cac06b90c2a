import Mathlib.Data.Nat.Basic
import Mathlib.Tactic.Common
import Shoreline.Errno

/-!
# Pixels and framebuffers

The pixel union is its four bytes in memory order; the 32-bit word depends
on the host. Framebuffer dimensions, indices and allocation sizes are 32-bit
unsigned values that wrap, exactly where the C code computes them so.
Failed assertions are `none`.
-/

namespace Shoreline.Framebuffer

/-- Byte order of the machine. -/
inductive Host where
  | littleEndian
  | bigEndian
  deriving DecidableEq, Repr

/-- `is_big_endian`. -/
def isBigEndian : Host → Bool
  | .littleEndian => false
  | .bigEndian => true

/-- `union fb_pixel`, as its four bytes in memory order. -/
structure FbPixel where
  byte0 : UInt8
  byte1 : UInt8
  byte2 : UInt8
  byte3 : UInt8
  deriving DecidableEq, Repr

instance : Inhabited FbPixel := ⟨⟨0,0,0,0⟩⟩

namespace FbPixel

/-- `color.alpha`. -/
def alpha (p : FbPixel) : UInt8 := p.byte0

/-- `color.color_bgr.blue`. -/
def blue (p : FbPixel) : UInt8 := p.byte1

/-- `color.color_bgr.green`. -/
def green (p : FbPixel) : UInt8 := p.byte2

/-- `color.color_bgr.red`. -/
def red (p : FbPixel) : UInt8 := p.byte3

/-- `color_be.alpha`. -/
def alphaBe (p : FbPixel) : UInt8 := p.byte3

/-- `color_be.color_bgr.blue`. -/
def blueBe (p : FbPixel) : UInt8 := p.byte2

/-- `color_be.color_bgr.green`. -/
def greenBe (p : FbPixel) : UInt8 := p.byte1

/-- `color_be.color_bgr.red`. -/
def redBe (p : FbPixel) : UInt8 := p.byte0

/-- Store to `color.alpha`. -/
def setAlpha (p : FbPixel) (a : UInt8) : FbPixel := {p with byte0 := a}

/-- Store to `color_be.alpha`. -/
def setAlphaBe (p : FbPixel) (a : UInt8) : FbPixel := {p with byte3 := a}

/-- The word `abgr` as the host reads it. -/
def abgr (host : Host) (p : FbPixel) : UInt32 :=
  match host with
  | .littleEndian => UInt32.ofNat
      (p.byte0.toNat+256*p.byte1.toNat+65536*p.byte2.toNat+16777216*p.byte3.toNat)
  | .bigEndian => UInt32.ofNat
      (p.byte3.toNat+256*p.byte2.toNat+65536*p.byte1.toNat+16777216*p.byte0.toNat)

/-- Store to `abgr` on the host. -/
def ofAbgr (host : Host) (w : UInt32) : FbPixel :=
  let low := UInt8.ofNat w.toNat
  let second := UInt8.ofNat (w.toNat/256)
  let third := UInt8.ofNat (w.toNat/65536)
  let high := UInt8.ofNat (w.toNat/16777216)
  match host with
  | .littleEndian => ⟨low,second,third,high⟩
  | .bigEndian => ⟨high,third,second,low⟩

end FbPixel

/-- The channels of a pixel. -/
structure Channels where
  red : UInt8
  green : UInt8
  blue : UInt8
  alpha : UInt8
  deriving DecidableEq, Repr

/-- A pixel read through the accessor that matches the host, `color` or
`color_be`. -/
def channels (host : Host) (p : FbPixel) : Channels :=
  if isBigEndian host then ⟨p.redBe,p.greenBe,p.blueBe,p.alphaBe⟩
  else ⟨p.red,p.green,p.blue,p.alpha⟩

/-- `FB_ALPHA_BLEND_CHANNEL`, before it is stored in eight bits. The 32-bit
products cannot wrap. -/
def fbAlphaBlendChannel (oldc newc olda newa outa : UInt8) : ℕ :=
  (newc.toNat*newa.toNat+oldc.toNat*olda.toNat*(255-newa.toNat)/255)/outa.toNat

/-- The output alpha of `FB_ALPHA_BLEND_PIXEL`, stored in eight bits. -/
def fbAlphaBlendAlpha (olda newa : UInt8) : UInt8 :=
  UInt8.ofNat (newa.toNat+olda.toNat*(255-newa.toNat)/255)

/-- `FB_ALPHA_BLEND_PIXEL`. Every channel is computed from the channels of the
same name and alpha is stored last, so the result is the same when the
output is one of the inputs. -/
def fbAlphaBlendPixel (host : Host) (new old : FbPixel) : FbPixel :=
  if isBigEndian host then
    let outa := fbAlphaBlendAlpha old.byte3 new.byte3
    let mix := fun oldc newc => UInt8.ofNat (fbAlphaBlendChannel oldc newc old.byte3 new.byte3 outa)
    if outa≠0 then ⟨mix old.byte0 new.byte0,mix old.byte1 new.byte1,mix old.byte2 new.byte2,outa⟩
    else ⟨0,0,0,outa⟩
  else
    let outa := fbAlphaBlendAlpha old.byte0 new.byte0
    let mix := fun oldc newc => UInt8.ofNat (fbAlphaBlendChannel oldc newc old.byte0 new.byte0 outa)
    if outa≠0 then ⟨outa,mix old.byte1 new.byte1,mix old.byte2 new.byte2,mix old.byte3 new.byte3⟩
    else ⟨outa,0,0,0⟩

/-- Compile-time features and the machine the server is built for. -/
structure Build where
  /-- `FEATURE_SIZE`. -/
  featureSize : Bool
  /-- `FEATURE_OFFSET`. -/
  featureOffset : Bool
  /-- `FEATURE_STATISTICS`. -/
  featureStatistics : Bool
  /-- `FEATURE_PIXEL_COUNT`, which has an effect only with statistics. -/
  featurePixelCount : Bool
  /-- `FEATURE_ALPHA_BLENDING`. -/
  featureAlphaBlending : Bool
  /-- Byte order. -/
  host : Host
  deriving DecidableEq, Repr

/-- `struct fb_size`. -/
structure FbSize where
  width : UInt32
  height : UInt32
  deriving DecidableEq, Repr

/-- `struct fb` without its list entry. -/
structure Fb where
  /-- Dimensions. -/
  size : FbSize
  /-- Number of pixels in the block behind `pixels`. -/
  cells : ℕ
  /-- The block, and what lies behind it. -/
  pixels : ℕ → FbPixel
  /-- Node the block was allocated on. -/
  numaNode : ℕ
  /-- `pixel_count`, present with statistics and pixel counting. -/
  pixelCount : UInt32

/-- `width * height` as 32-bit unsigned arithmetic computes it. -/
def FbSize.product (size : FbSize) : ℕ := (size.width*size.height).toNat

/-- The index `y * width + x` as 32-bit unsigned arithmetic computes it. -/
def fbIndex (fb : Fb) (x y : UInt32) : ℕ := (y*fb.size.width+x).toNat

/-- The bound check of the pixel commands, and both assertions of the pixel
accessors. -/
def FbSize.Contains (size : FbSize) (x y : UInt32) : Prop := x<size.width ∧ y<size.height

instance (size : FbSize) (x y : UInt32) : Decidable (size.Contains x y) :=
  inferInstanceAs (Decidable (_ ∧ _))

/-- One pixel of the block replaced. -/
def writePixel (pixels : ℕ → FbPixel) (index : ℕ) (pixel : FbPixel) : ℕ → FbPixel :=
  fun i => if i=index then pixel else pixels i

/-- `fb_set_pixel`. -/
def fbSetPixel (fb : Fb) (x y : UInt32) (pixel : FbPixel) : Option Fb :=
  if fb.size.Contains x y then
    some {fb with pixels := writePixel fb.pixels (fbIndex fb x y) pixel}
  else none

/-- `fb_get_pixel`. -/
def fbGetPixel (fb : Fb) (x y : UInt32) : Option FbPixel :=
  if fb.size.Contains x y then some (fb.pixels (fbIndex fb x y)) else none

/-- `fb_set_pixel_rgb`, which stores through `color` on every host. -/
def fbSetPixelRgb (fb : Fb) (x y : UInt32) (red green blue : UInt8) : Option Fb :=
  if fb.size.Contains x y then
    let target := fb.pixels (fbIndex fb x y)
    let target := {target with byte3 := red, byte2 := green, byte1 := blue}
    some {fb with pixels := writePixel fb.pixels (fbIndex fb x y) target}
  else none

/-- The initialisation loop of `fb_alloc`, from the last pixel down. -/
def fbAllocFill (host : Host) : ℕ → (ℕ → FbPixel) → ℕ → FbPixel
  | 0,pixels => pixels
  | n+1,pixels =>
    let pixel := if isBigEndian host then (pixels n).setAlphaBe 0xff else (pixels n).setAlpha 0xff
    fbAllocFill host n (writePixel pixels n pixel)

/-- A block of `n` zero pixels inside a heap. -/
def zeroBlock (n : ℕ) (heap : ℕ → FbPixel) : ℕ → FbPixel :=
  fun i => if i<n then ⟨0,0,0,0⟩ else heap i

/-- `fb_alloc`, given the outcome of `malloc` (with the garbage it leaves in
the counter), of `calloc` (with what lies behind the block), and the node
that `get_numa_node` reports. -/
def fbAlloc (host : Host) (node : Option UInt32) (block : Option (ℕ → FbPixel)) (numaNode : ℕ)
    (size : FbSize) : Except ℤ Fb :=
  match node with
  | none => .error (-ENOMEM)
  | some garbage =>
    match block with
    | none => .error (-ENOMEM)
    | some heap =>
      .ok ⟨size,size.product,fbAllocFill host size.product (zeroBlock size.product heap),
        numaNode,garbage⟩

/-- `fb_get_fb_on_node`, as the position in the list. -/
def fbGetFbOnNode (fbs : List Fb) (numaNode : ℕ) : Option ℕ :=
  fbs.findIdx? fun fb => fb.numaNode=numaNode

/-- `fb_resize`, given the outcome of `malloc`: a fresh block of zero pixels
of the new size, or nothing at all. -/
def fbResize (fb : Fb) (block : Option (ℕ → FbPixel)) (size : FbSize) : ℤ×Fb :=
  match block with
  | none => (-ENOMEM,fb)
  | some heap =>
    (0,{fb with size := size, cells := size.product, pixels := zeroBlock size.product heap})

end Shoreline.Framebuffer
