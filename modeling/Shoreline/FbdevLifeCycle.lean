import Shoreline.FrontendTables
import Shoreline.Library.StateMachine

/-!
# The life of an fbdev frontend

The result of `linuxfb_start` is kept in a variable that the call of `ioctl`
has set to zero. The exit for a format that is not supported leaves it so, and
`main` goes on with a frontend that has neither a device nor a buffer. For all
other answers of the driver a started frontend can be updated for ever.
-/

namespace Shoreline.FbdevLifeCycle

open Framebuffer Addressing FbdevFrontend FrontendOptions FrontendTables StateMachine

/-- What the system answers to `linuxfb_start`. Where a call fails, `errno` is a
positive number. -/
structure Driver where
  opened : Except ℤ ℤ
  info : Except ℤ FbVarScreeninfo
  block : Option (ℕ → UInt8)
  opened_errno : ∀ errno,opened=.error errno → 0<errno
  info_errno : ∀ errno,info=.error errno → 0<errno

/-- The frontend as `main` has allocated and configured it, for a specification
anywhere in memory. -/
structure Configured where
  fb : Fb
  heap : ℕ → Bool
  allocated : FbdevState
  allocated_eq : linuxfbAlloc true fb heap=.ok allocated
  block : List UInt8
  spec : ℕ
  front : FbdevState
  front_eq : configureSpec (some fbdevFargs) allocated block spec=some (0,front)

/-- `linuxfb_start` in the life of a frontend. -/
def start (c : Configured) (d : Driver) : ℤ×Linuxfb :=
  linuxfbStart c.front.linuxfb d.opened d.info d.block

/-- One round of `main`: the framebuffer at the time of the update, which may have
changed and been resized, and the outcomes of `write`. -/
structure Round where
  fb : Fb
  writes : List (Except ℤ ℕ)

/-- The update of a round. -/
def updateStep (host : Host) : Step Round (Option ℤ) Linuxfb := fun lf round =>
  (linuxfbUpdate host {lf with fb := round.fb} round.writes).map fun updated =>
    (updated.result,updated.linuxfb)

/-- A pixel format that `linuxfb_update` handles. -/
def Handled (host : Host) (bitsPerPixel : UInt32) : Prop :=
  ∀ px,(pixelBytes host bitsPerPixel px).isSome

/-- A buffer and a pixel format that is handled. -/
def Ready (host : Host) (lf : Linuxfb) : Prop :=
  lf.fbmem.isSome ∧ Handled host lf.vscreen.bitsPerPixel

/-- A frontend that can be used. -/
structure Usable (host : Host) (d : Driver) (lf : Linuxfb) : Prop where
  /-- It has the open device. -/
  fd : d.opened=.ok lf.fd
  /-- It has a buffer. -/
  fbmem : lf.fbmem.isSome
  /-- Its pixel format is handled. -/
  format : Handled host lf.vscreen.bitsPerPixel
  /-- No update in any run stores through an unset `fbmem`, and in the state that is
  reached every framebuffer is converted without an error. -/
  updates : ∀ rounds,∃ results now,run (updateStep host) lf rounds=some (results,now) ∧
    ∀ fb,∃ painter,convert host {now with fb := fb}=some (0,painter)

/-- The answers after which a start is what it says: the device cannot be opened,
the driver does not report its screen, or it reports a supported format. -/
def Driver.Supported (d : Driver) : Prop :=
  (∃ errno,d.opened=.error errno) ∨ (∃ errno,d.info=.error errno) ∨
    ∃ v,d.info=.ok v ∧ depthSupported v=true

/-- Neither a device nor a buffer. -/
def Untouched (front : FbdevState) : Prop := front.linuxfb.fd=-1 ∧ front.linuxfb.fbmem=none

/-- The arguments do not touch the device and the buffer. -/
theorem fbdevFargs_untouched (arg : FrontendArg FbdevState) (harg : arg∈fbdevFargs)
    (front : FbdevState) (value : Option (List UInt8)) (err : ℤ) (next : FbdevState)
    (hfront : Untouched front) (hcall : arg.configure front value=some (err,next)) :
    Untouched next := by
  rw [fbdevFargs,List.mem_cons,List.mem_singleton] at harg
  cases value with
  | none => rcases harg with rfl|rfl <;> cases hcall
  | some value =>
    rcases harg with rfl|rfl
    · dsimp only [configureFbdev] at hcall
      split at hcall
      · cases hcall
        exact hfront
      · cases hcall
        exact hfront
    · dsimp only [configureOffset] at hcall
      split at hcall
      · cases hcall
        exact hfront
      · cases hcall
        exact hfront

/-- A configured frontend has neither a device nor a buffer. -/
theorem Configured.untouched (c : Configured) : Untouched c.front := by
  have halloc : Untouched c.allocated := by
    have heq := c.allocated_eq
    rw [linuxfbAlloc,if_pos rfl] at heq
    injection heq with heq
    rw [←heq]
    exact ⟨rfl,rfl⟩
  exact configureSpec_keeps fbdevFargs_untouched halloc c.front_eq

/-- The supported formats are handled. -/
theorem handled_of_supported (host : Host) {v : FbVarScreeninfo} (h : depthSupported v=true) :
    Handled host v.bitsPerPixel := by
  intro px
  rw [depthSupported] at h
  split at h
  · next h8 =>
      rw [h8]
      rfl
  · split at h
    · next hbits =>
        rcases hbits with hbits|hbits|hbits
        all_goals
          rw [hbits]
          rfl
    · cases h

section Updates

variable {host : Host} {lf : Linuxfb}

/-- The columns of a line are converted where the format is handled. -/
theorem columnLoop_handled (h : Handled host lf.vscreen.bitsPerPixel) {y : ℕ}
    (hy : y<lf.fb.size.height.toNat) (n x : ℕ) (hx : x+n≤lf.fb.size.width.toNat)
    (painter : Painter) :
    ∃ after,columnLoop host lf (UInt32.ofNat y) n (UInt32.ofNat x) painter=some (0,after) := by
  induction n generalizing x painter with
  | zero => exact ⟨painter,rfl⟩
  | succ n ih =>
    have hin : lf.fb.size.Contains (UInt32.ofNat x) (UInt32.ofNat y) :=
      contains_ofNat (by omega) hy
    obtain ⟨bytes,hbytes⟩ := Option.isSome_iff_exists.mp
      (h (lf.fb.pixels (fbIndex lf.fb (UInt32.ofNat x) (UInt32.ofNat y))))
    rw [columnLoop,fbGetPixel,if_pos hin]
    dsimp only
    rw [hbytes]
    have hrest := ih (x+1) (by omega) (bytes.foldl Painter.put painter)
    rwa [UInt32.ofNat_add] at hrest

/-- The lines are converted where the format is handled. -/
theorem lineLoop_handled (h : Handled host lf.vscreen.bitsPerPixel) (n y : ℕ)
    (hy : y+n≤lf.fb.size.height.toNat) (painter : Painter) :
    ∃ after,lineLoop host lf n (UInt32.ofNat y) painter=some (0,after) := by
  have hwidth : 0+(shownWidth lf).toNat≤lf.fb.size.width.toNat := by
    rw [shownWidth,toNat_least]
    omega
  induction n generalizing y painter with
  | zero => exact ⟨painter,rfl⟩
  | succ n ih =>
    obtain ⟨drawn,hdrawn⟩ := columnLoop_handled h (by omega : y<lf.fb.size.height.toNat)
      (shownWidth lf).toNat 0 hwidth
      (painter.advance (lf.vscreen.xoffset*lf.vscreen.bytesPerPixel))
    rw [lineLoop]
    change columnLoop host lf (UInt32.ofNat y) (shownWidth lf).toNat 0 _=_ at hdrawn
    rw [hdrawn]
    dsimp only
    rw [if_neg (not_not.mpr rfl)]
    have hrest := ih (y+1) (by omega)
      (drawn.advance ((lf.vscreen.xresVirtual-shownWidth lf)*lf.vscreen.bytesPerPixel))
    rwa [UInt32.ofNat_add] at hrest

/-- Every framebuffer is converted where the format is handled. -/
theorem convert_handled (h : Handled host lf.vscreen.bitsPerPixel) :
    ∃ painter,convert host lf=some (0,painter) := by
  have hheight : 0+(shownHeight lf).toNat≤lf.fb.size.height.toNat := by
    rw [shownHeight,toNat_least]
    omega
  exact lineLoop_handled h (shownHeight lf).toNat 0 hheight _

/-- An update of a frontend with a buffer and a handled format goes through and
leaves both. -/
theorem updateStep_ready (hready : Ready host lf) (round : Round) :
    ∃ result after,updateStep host lf round=some (result,after) ∧ Ready host after := by
  obtain ⟨hmem,h⟩ := hready
  obtain ⟨mem,hmem⟩ := Option.isSome_iff_exists.mp hmem
  obtain ⟨painter,hconvert⟩ : ∃ painter,convert host {lf with fb := round.fb}=some (0,painter) :=
    convert_handled h
  rw [updateStep,linuxfbUpdate,hconvert]
  dsimp only
  rw [hmem]
  exact ⟨_,_,rfl,rfl,h⟩

/-- A frontend with a buffer and a handled format can be updated for ever. -/
theorem run_handled (hready : Ready host lf) (rounds : List Round) :
    ∃ results now,run (updateStep host) lf rounds=some (results,now) ∧
      ∀ fb,∃ painter,convert host {now with fb := fb}=some (0,painter) := by
  have hstep : ∀ (lf : Linuxfb) (round : Round),Ready host lf → True →
      ∃ result after,updateStep host lf round=some (result,after) ∧ Ready host after :=
    fun lf round hlf _ => updateStep_ready hlf round
  obtain ⟨results,now,hrun,hnow⟩ := run_total hstep hready
    (admitted_iff.mpr fun _ _ _ _ _ _ _ => trivial : Admitted (fun _ _ => True) _ lf rounds)
  refine ⟨results,now,hrun,fun fb => ?_⟩
  exact convert_handled hnow.2

end Updates

/-- A start after which the format is not supported returns zero and leaves the
device and the buffer as they were. -/
theorem start_unsupported (c : Configured) {d : Driver} {fd : ℤ} {v : FbVarScreeninfo}
    (hopened : d.opened=.ok fd) (hinfo : d.info=.ok v) (h : depthSupported v=false) :
    start c d=(0,{c.front.linuxfb with vscreen := v}) := by
  rw [start,linuxfbStart.eq_def,hopened,hinfo]
  dsimp only
  rw [h]
  rfl

/-- A start after which the format is supported returns zero only with a device and
a buffer. -/
theorem usable_of_supported (host : Host) (c : Configured) {d : Driver} {fd : ℤ}
    {v : FbVarScreeninfo} (hopened : d.opened=.ok fd) (hinfo : d.info=.ok v)
    (h : depthSupported v=true) {lf : Linuxfb} (hstart : start c d=(0,lf)) : Usable host d lf := by
  rw [start,linuxfbStart.eq_def,hopened,hinfo] at hstart
  dsimp only at hstart
  rw [if_pos h] at hstart
  cases hblock : d.block with
  | none =>
    rw [hblock] at hstart
    injection hstart with herr
    exact absurd herr (by decide)
  | some heap =>
    rw [hblock] at hstart
    injection hstart with _ hlf
    have hformat : Handled host lf.vscreen.bitsPerPixel := by
      rw [←hlf]
      exact handled_of_supported host h
    have hmem : lf.fbmem.isSome := by
      rw [←hlf]
      rfl
    refine ⟨?_,hmem,hformat,run_handled ⟨hmem,hformat⟩⟩
    rw [hopened,←hlf]

/-- A start that returns zero leaves a usable frontend if and only if the device
cannot be opened or the driver does not report its screen (and the start does not
return zero), or the driver reports a supported format. -/
theorem started_usable_iff (host : Host) (c : Configured) (d : Driver) :
    (∀ lf,start c d=(0,lf) → Usable host d lf) ↔ d.Supported := by
  cases hopened : d.opened with
  | error errno =>
    refine iff_of_true (fun lf hstart => ?_) (Or.inl ⟨errno,hopened⟩)
    have hpos := d.opened_errno errno hopened
    rw [start,linuxfbStart.eq_def,hopened] at hstart
    injection hstart with herr
    omega
  | ok fd =>
    cases hinfo : d.info with
    | error errno =>
      refine iff_of_true (fun lf hstart => ?_) (Or.inr (Or.inl ⟨errno,hinfo⟩))
      have hpos := d.info_errno errno hinfo
      rw [start,linuxfbStart.eq_def,hopened,hinfo] at hstart
      injection hstart with herr
      omega
    | ok v =>
      cases hdepth : depthSupported v with
      | true =>
        exact iff_of_true (fun lf => usable_of_supported host c hopened hinfo hdepth)
          (Or.inr (Or.inr ⟨v,hinfo,hdepth⟩))
      | false =>
        refine iff_of_false (fun hall => ?_) ?_
        · -- the start returns zero and there is no buffer
          have husable := hall _ (start_unsupported c hopened hinfo hdepth)
          have hmem := husable.fbmem
          rw [c.untouched.2] at hmem
          cases hmem
        · rintro (⟨errno,herr⟩|⟨errno,herr⟩|⟨v',hinfo',hdepth'⟩)
          · rw [hopened] at herr
            cases herr
          · rw [hinfo] at herr
            cases herr
          · rw [hinfo] at hinfo'
            cases hinfo'
            rw [hdepth] at hdepth'
            cases hdepth'

/-- A driver that opens a device and reports so many bits and this grayscale for a
screen of 2 by 2 pixels. -/
def reporting (bitsPerPixel grayscale : UInt32) : Driver where
  opened := .ok 3
  info := .ok ⟨2,2,2,2,0,0,bitsPerPixel,grayscale⟩
  block := some fun _ => 0
  opened_errno := fun _ h => nomatch h
  info_errno := fun _ h => nomatch h

/-- The frontend of a small surface, without options. -/
def smallConfigured : Configured where
  fb := obtained ⟨4,4⟩
  heap := fun _ => true
  allocated := smallFbdev
  allocated_eq := rfl
  block := specBlock fbdevName []
  spec := 0
  front := smallFbdev
  front_eq := configureSpec_written fbdevFargs smallFbdev _ []

/-- A start with 8 bits and a palette returns zero without a device and a buffer, and
the first update stores through the unset pointer. One with a single bit runs
into the format that should not happen. -/
theorem palette_not_usable :
    (start smallConfigured (reporting 8 0)).1=0 ∧
      (start smallConfigured (reporting 8 0)).2.fd=-1 ∧
      updateStep .littleEndian (start smallConfigured (reporting 8 0)).2 ⟨obtained ⟨4,4⟩,[]⟩=none ∧
      (start smallConfigured (reporting 1 0)).1=0 ∧
      convert .littleEndian (start smallConfigured (reporting 1 0)).2=some (-EINVAL,⟨0,[]⟩) ∧
      ¬∀ lf,start smallConfigured (reporting 8 0)=(0,lf) →
        Usable .littleEndian (reporting 8 0) lf := by
  refine ⟨by decide,by decide,by decide,by decide,by decide,fun hall => ?_⟩
  have husable := hall _ rfl
  exact absurd husable.fbmem (by decide)

end Shoreline.FbdevLifeCycle
