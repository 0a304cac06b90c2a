import Shoreline.FbdevLifeCycle
import Shoreline.Library.PartialWrites
import Shoreline.PaintedPicture

/-!
# The picture on the device

From the bytes that clients send to the bytes of the framebuffer device: what
`linuxfb_update` converts is written from the beginning of the device, in as
many calls of `write` as it takes. When all of it is written, the device has the
colours of the streams, in the encoding of its pixel format.
-/

namespace Shoreline.DevicePicture

open Framebuffer Addressing Coordinates ItemText Protocol Coalesce StateMachine WriteBuffer Drawing
open ServerRun ByteServer NodeArrival TextOverlay OverlaidServer SharedCanvas CanvasLog
open PaintedPicture PartialWrites
open FbdevFrontend

/-- The number of bytes that `linuxfb_update` writes. -/
def writtenLength (v : FbVarScreeninfo) : ℕ :=
  (v.bytesPerPixel*v.xresVirtual*v.yresVirtual).toNat

/-- The bytes of the device behind an update, which are written from the first
one on. -/
def deviceAfter (host : Host) (lf : Linuxfb) (writes : List (Except ℤ ℕ)) (device : ℕ → UInt8) :
    ℕ → UInt8 :=
  match convert host lf,lf.fbmem with
  | some (err,painter),some mem =>
    if err≠0 then device
    else
      let bytes := StoreLog.storeAll mem.bytes painter.stores
      let sent := (sendAll ((List.range (writtenLength lf.vscreen)).map bytes) writes).1
      fun i => sent[i]?.getD (device i)
  | _,_ => device

/-- The loop that writes a buffer returns zero when all of it was taken, and the
negated error of a call that has failed. -/
theorem writeLoop_eq (buffer : List UInt8) (writes : List (Except ℤ ℕ)) :
    writeLoop buffer.length writes=
      match (sendAll buffer writes).2 with
      | .done => some 0
      | .failed errno => some (-errno)
      | .waiting => none := by
  induction writes generalizing buffer with
  | nil => cases buffer <;> rfl
  | cons call writes ih =>
    cases buffer with
    | nil => rfl
    | cons byte rest =>
      cases call with
      | error errno => rfl
      | ok taken =>
        rw [sendAll_ok (List.cons_ne_nil byte rest)]
        dsimp only
        rw [←ih,List.length_drop]
        rfl

/-- The block that is converted is written as a whole. -/
theorem writtenLength_eq {v : FbVarScreeninfo} (hv : Reported v) : writtenLength v=blockSize v 0 := by
  have hbytes := hv.bytes
  have hdepth : v.bytesPerPixel.toNat ≤ 4 := by
    rw [FbVarScreeninfo.bytesPerPixel,UInt32.toNat_div]
    rcases hv.bits with h | h | h | h <;> rw [h] <;> decide
  have hproduct : v.bytesPerPixel.toNat*(v.xresVirtual.toNat*v.yresVirtual.toNat)<2^32 := by
    have hle := Nat.mul_le_mul_right (v.xresVirtual.toNat*v.yresVirtual.toNat) hdepth
    omega
  rw [writtenLength,blockSize,UInt32.add_zero,UInt32.mul_assoc,UInt32.toNat_mul,UInt32.toNat_mul,
    Nat.mod_eq_of_lt (by omega : v.xresVirtual.toNat*v.yresVirtual.toNat<2^32),
    Nat.mod_eq_of_lt hproduct]

variable {host : Host} {lf : Linuxfb}

/-- When an aligned frontend has been updated and everything was written, the
device has the bytes of every shown pixel where the screen expects them. -/
theorem device_shows (hv : Reported lf.vscreen) (hoffset : lf.pixelOffset=0) {mem : FbMem}
    (hmem : lf.fbmem=some mem) (hsize : mem.size=blockSize lf.vscreen lf.pixelOffset)
    (haligned : Aligned lf) {writes : List (Except ℤ ℕ)}
    (herrors : ∀ errno, .error errno∈writes → 0<errno) (device : ℕ → UInt8) :
    ∃ updated, linuxfbUpdate host lf writes=some updated ∧ (updated.result=some 0 →
      ∀ x y j byte, ShownByte host lf x y j byte →
        deviceAfter host lf writes device (place lf.vscreen x y+j)=byte) := by
  obtain ⟨updated,hupdate,hshows⟩ := (shows_iff host hv hoffset hmem hsize writes).mpr haligned
  refine ⟨updated,hupdate,fun hresult x y j byte hbyte => ?_⟩
  obtain ⟨painter,hconvert,_⟩ := convert_spec host hv hoffset
  let bytes := StoreLog.storeAll mem.bytes painter.stores
  let buffer := (List.range (writtenLength lf.vscreen)).map bytes
  have hlength : buffer.length=writtenLength lf.vscreen := by
    rw [List.length_map,List.length_range]
  have hupdated : updated=⟨writeLoop (writtenLength lf.vscreen) writes,
      {lf with fbmem := some {mem with bytes := bytes}},painter.stores⟩ := by
    simp only [linuxfbUpdate,hconvert,hmem,ne_eq,not_true_eq_false,if_false,Option.some.injEq] at hupdate
    exact hupdate.symm
  -- all of the block has been taken
  have hsent : (sendAll buffer writes).1=buffer := by
    have hzero : writeLoop buffer.length writes=some 0 := by
      rw [hlength]
      exact (congrArg Updated.result hupdated).symm.trans hresult
    rw [writeLoop_eq] at hzero
    cases hend : (sendAll buffer writes).2 with
    | done => exact (sendAll_done_iff buffer writes).mp hend
    | failed errno =>
      rw [hend] at hzero
      have hpos := herrors errno (mem_of_sendAll_failed hend)
      have hneg := Option.some.inj hzero
      omega
    | waiting =>
      rw [hend] at hzero
      cases hzero
  obtain ⟨after',hafter,hplaced⟩ := hshows.placed x y j byte hbyte
  have hbytes : bytes (place lf.vscreen x y+j)=byte := by
    rw [hupdated] at hafter
    injection hafter with hafter
    rw [←hplaced,←hafter]
  have hinside : place lf.vscreen x y+j<writtenLength lf.vscreen := by
    rw [writtenLength_eq hv]
    exact place_inside hv hbyte.1 hbyte.2.1 (hbyte.lt_depth host hv)
  rw [deviceAfter,hconvert,hmem]
  dsimp only
  rw [if_neg (not_not.mpr rfl)]
  change ((sendAll buffer writes).1[place lf.vscreen x y+j]?).getD _=_
  rw [hsent,List.getElem?_map,List.getElem?_range hinside]
  exact hbytes

/-- The last colour that a stream draws at a place, on the black of the
framebuffer. -/
def paintedColour (size : FbSize) (stream : List Item) (x y : ℕ) : FbPixel :=
  (lastPut (some (y*size.width.toNat+x)) (dabsOf size.width.toNat size.height.toNat stream)
    none).getD opaqueBlack

/-- The frontend of a screen of 2 by 2 pixels with 32 bits. -/
def smallDevice : Linuxfb := smallFrontend (smallScreen 2 2 0 0)

end Shoreline.DevicePicture
