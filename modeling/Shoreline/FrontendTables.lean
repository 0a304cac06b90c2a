import Shoreline.FbdevFrontend
import Shoreline.FrontendOptions

/-!
# The arguments of the frontends

Three frontends have a table of arguments. A value that is missing reaches the
configure functions as a pointer to nothing. The functions of the VNC and of the
statistics frontend look at the pointer first. Those of the fbdev frontend do
not, so an option without a value crashes unless an option before it is refused.
-/

namespace Shoreline.FrontendTables

open Framebuffer Addressing FbdevFrontend FrontendOptions

/-- The bytes of a text. -/
def ascii (text : String) : List UInt8 := text.toList.map fun c => UInt8.ofNat c.toNat

/-- `isspace`. -/
def isspace (c : UInt8) : Bool := c=0x20 ∨ (0x09 ≤ c ∧ c≤0x0d)

/-- `isdigit`. -/
def isdigit (c : UInt8) : Bool := 0x30 ≤ c ∧ c≤0x39

/-- The number that the digits at the beginning are written for. -/
def decimal (text : List UInt8) : ℤ :=
  (text.takeWhile isdigit).foldl (fun value c => 10*value+(c.toNat-0x30)) 0

/-- `strtol` with base ten, which is limited to 64 bits. -/
def strtol (text : List UInt8) : ℤ :=
  let value :=
    match text.dropWhile isspace with
    | [] => 0
    | c::rest =>
      if c=0x2d then -decimal rest
      else if c=0x2b then decimal rest
      else decimal (c::rest)
  max (-2^63) (min (2^63-1) value)

/-- `atoi`, which cuts off to 32 bits. -/
def atoi (text : List UInt8) : Int32 := Int32.ofInt (strtol text)

/-- A configure function that looks at the pointer first and refuses what it does
not accept, in both cases without a change. -/
def configureValue {σ : Type*} (accept : List UInt8 → Option σ) (front : σ) :
    Option (List UInt8) → Option (ℤ×σ)
  | none => some (-EINVAL,front)
  | some value =>
    match accept value with
    | none => some (-EINVAL,front)
    | some front => some (0,front)

/-- A port number. -/
def portOf (value : List UInt8) : Option Int32 :=
  let port := atoi value
  if port<0 ∨ port>65535 then none else some port

/-- What is used of the screen of the VNC library. -/
structure RfbScreen where
  port : Int32
  ipv6port : Int32
  autoPort : Bool
  alwaysShared : Bool
  neverShared : Bool
  deriving DecidableEq, Repr

/-- What the configure functions use of `struct vnc`, and what the next calls of
`rfbLoadConsoleFont` return. -/
structure Vnc (Font : Type*) where
  server : RfbScreen
  font : Option Font
  syncOverlayDraw : Bool
  loads : ℕ → Option Font

section Vnc

variable {Font : Type*}

/-- `set_shared`. -/
def setShared (vnc : Vnc Font) (shared : Bool) : Vnc Font :=
  {vnc with server := {vnc.server with alwaysShared := shared, neverShared := !shared}}

/-- `vnc_configure_port`. -/
def vncConfigurePort (vnc : Vnc Font) : Option (List UInt8) → Option (ℤ×Vnc Font) :=
  configureValue (fun value => (portOf value).map fun port =>
    {vnc with server := {vnc.server with port := port, ipv6port := port, autoPort := false}}) vnc

/-- `vnc_configure_font`. -/
def vncConfigureFont (vnc : Vnc Font) : Option (List UInt8) → Option (ℤ×Vnc Font)
  | none => some (-EINVAL,vnc)
  | some _ =>
    let vnc := {vnc with font := vnc.loads 0, loads := fun n => vnc.loads (n+1)}
    if vnc.font.isNone then some (-EINVAL,vnc) else some (0,vnc)

/-- `vnc_configure_flicker`. -/
def vncConfigureFlicker (vnc : Vnc Font) (_ : Option (List UInt8)) : Option (ℤ×Vnc Font) :=
  some (0,setShared {vnc with syncOverlayDraw := true} false)

/-- `fargs` of the VNC frontend. -/
def vncFargs : List (FrontendArg (Vnc Font)) :=
  [⟨ascii "port",by decide,vncConfigurePort⟩,⟨ascii "font",by decide,vncConfigureFont⟩,
    ⟨ascii "flickerfree",by decide,vncConfigureFlicker⟩]

end Vnc

/-- What the configure functions use of `struct statistics_frontend`. -/
structure StatisticsFrontend where
  listenPort : List UInt8
  listenAddress : List UInt8
  deriving DecidableEq, Repr

/-- `statistics_frontend_configure_port`, which keeps the text of the number. -/
def statisticsFrontendConfigurePort (sfront : StatisticsFrontend) :
    Option (List UInt8) → Option (ℤ×StatisticsFrontend) :=
  configureValue (fun value => (portOf value).map fun _ =>
    {sfront with listenPort := value}) sfront

/-- `statistics_frontend_configure_listen_address`. -/
def statisticsFrontendConfigureListenAddress (sfront : StatisticsFrontend) :
    Option (List UInt8) → Option (ℤ×StatisticsFrontend) :=
  configureValue (fun value => some {sfront with listenAddress := value}) sfront

/-- `fargs` of the statistics frontend. -/
def statisticsFargs : List (FrontendArg StatisticsFrontend) :=
  [⟨ascii "port",by decide,statisticsFrontendConfigurePort⟩,
    ⟨ascii "listen",by decide,statisticsFrontendConfigureListenAddress⟩]

/-- `struct linuxfb` with the path of the device, and whether the next allocations
of `strdup` succeed. -/
structure FbdevState where
  linuxfb : Linuxfb
  fbdev : List UInt8
  heap : ℕ → Bool

/-- `default_fbdev`. -/
def defaultFbdev : List UInt8 := ascii "/dev/fb0"

/-- `linuxfb_alloc`, given whether its `calloc` succeeds. -/
def linuxfbAlloc (allocated : Bool) (fb : Fb) (heap : ℕ → Bool) : Except ℤ FbdevState :=
  if allocated then .ok ⟨⟨fb,-1,none,⟨0,0,0,0,0,0,0,0⟩,0⟩,defaultFbdev,heap⟩
  else .error (-ENOMEM)

/-- `configure_fbdev`. -/
def configureFbdev (front : FbdevState) : Option (List UInt8) → Option (ℤ×FbdevState)
  -- strdup reads the string without a look at the pointer
  | none => none
  | some value =>
    let heap := fun n => front.heap (n+1)
    if front.heap 0 then some (0,{front with fbdev := value, heap := heap})
    else some (-ENOMEM,{front with heap := heap})

/-- `configure_offset`. -/
def configureOffset (front : FbdevState) : Option (List UInt8) → Option (ℤ×FbdevState)
  -- and so does atoi
  | none => none
  | some value =>
    let offset := atoi value
    if offset<0 then some (-EINVAL,front)
    else some (0,{front with linuxfb := {front.linuxfb with pixelOffset := offset.toUInt32}})

/-- `fargs` of the fbdev frontend. -/
def fbdevFargs : List (FrontendArg FbdevState) :=
  [⟨ascii "fb",by decide,configureFbdev⟩,⟨ascii "offset",by decide,configureOffset⟩]

/-- A string of C, without the terminator. -/
structure CString where
  text : List UInt8
  plain : 0∉text

/-- `frontend_configure` for the options that a string holds, between what is in
memory before and behind it. -/
def configureString {σ : Type*} (args : List (FrontendArg σ)) (front : σ)
    (before : List UInt8) (options : CString) (after : List UInt8) : Option (ℤ×σ) :=
  frontendConfigure (some args) front (before++(options.text++0::after)) before.length

/-- The options of a string. -/
def CString.options (s : CString) : List Decoded := (pieces s.text).map decode

/-- A call returns zero or a negative error, and does not crash. -/
def Returns {σ : Type*} (out : Option (ℤ×σ)) : Prop := ∃ err front,out=some (err,front) ∧ err≤0

/-- An option of the fbdev frontend without a value is reached: all options before
it have a value and are accepted, given which of the next allocations succeed. -/
def bareReached : (ℕ → Bool) → List Decoded → Bool
  | _,[] => false
  | heap,d::ds =>
    if d.key=ascii "fb" then
      d.value.all fun _ => heap 0 && bareReached (fun n => heap (n+1)) ds
    else if d.key=ascii "offset" then
      d.value.all fun value => decide (0≤atoi value) && bareReached heap ds
    else false

/-- Where all options `fb` and `offset` have a value, none without is reached. -/
theorem bareReached_of_valued {ds : List Decoded} (h : ∀ d∈ds,
    d.key=ascii "fb" ∨ d.key=ascii "offset" → d.value.isSome) (heap : ℕ → Bool) :
    bareReached heap ds=false := by
  induction ds generalizing heap with
  | nil => rfl
  | cons d ds ih =>
    have hvalue := h d List.mem_cons_self
    have hrest := fun heap => ih (fun d hd => h d (List.mem_cons_of_mem _ hd)) heap
    rw [bareReached]
    split
    · next hfb =>
        obtain ⟨value,hsome⟩ := Option.isSome_iff_exists.mp (hvalue (Or.inl hfb))
        rw [hsome,Option.all_some,hrest,Bool.and_false]
    · split
      · next hoffset =>
          obtain ⟨value,hsome⟩ := Option.isSome_iff_exists.mp (hvalue (Or.inr hoffset))
          rw [hsome,Option.all_some,hrest,Bool.and_false]
      · rfl

/-- A string reaches the calls of its options. -/
theorem configureString_eq {σ : Type*} (args : List (FrontendArg σ)) (front : σ)
    (before : List UInt8) (s : CString) (after : List UInt8) :
    configureString args front before s after=callArgs (some args) front s.options :=
  frontendConfigure_eq (some args) front s.plain before after

section Calls

variable {σ : Type*}

/-- A call with this result. -/
theorem returns_mk {err : ℤ} (front : σ) (h : err≤0) : Returns (some (err,front)) :=
  ⟨err,front,rfl,h⟩

/-- An option returns where the argument of its name does. -/
theorem callArg_returns {args : List (FrontendArg σ)} {d : Decoded} {front : σ}
    (h : ∀ arg∈args,arg.name=d.key → Returns (arg.configure front d.value)) :
    Returns (callArg (some args) front d) := by
  rw [callArg,Option.getD_some]
  split
  · exact returns_mk front (by decide)
  · next arg hfind =>
      have hname := List.find?_some hfind
      exact h arg (List.mem_of_find?_eq_some hfind) (of_decide_eq_true hname)

/-- Options return where every argument does, for every value and none. -/
theorem callArgs_returns {args : List (FrontendArg σ)}
    (h : ∀ arg∈args,∀ front value,Returns (arg.configure front value)) (front : σ)
    (ds : List Decoded) : Returns (callArgs (some args) front ds) := by
  induction ds generalizing front with
  | nil => exact returns_mk front le_rfl
  | cons d ds ih =>
    obtain ⟨err,next,hcall,herr⟩ := callArg_returns
      (fun arg harg _ => h arg harg front d.value) (d := d)
    rw [callArgs,hcall]
    dsimp only
    split
    · exact ih next
    · exact returns_mk next herr

end Calls

/-- A function that looks at the pointer first returns. -/
theorem configureValue_returns {σ : Type*} (accept : List UInt8 → Option σ) (front : σ)
    (value : Option (List UInt8)) : Returns (configureValue accept front value) := by
  have hEINVAL : -EINVAL≤0 := by decide
  cases value with
  | none => exact returns_mk front hEINVAL
  | some value =>
    rw [configureValue]
    split
    · exact returns_mk front hEINVAL
    · exact returns_mk _ le_rfl

/-- The functions of the VNC frontend return for every value and none. -/
theorem vncFargs_return {Font : Type*} (arg : FrontendArg (Vnc Font)) (harg : arg∈vncFargs)
    (vnc : Vnc Font) (value : Option (List UInt8)) : Returns (arg.configure vnc value) := by
  rw [vncFargs,List.mem_cons,List.mem_cons,List.mem_singleton] at harg
  rcases harg with rfl|rfl|rfl
  · exact configureValue_returns _ vnc value
  · -- the font is stored before it is looked at
    cases value with
    | none => exact returns_mk vnc (by decide)
    | some value =>
      dsimp only [vncConfigureFont]
      split
      · exact returns_mk _ (by decide)
      · exact returns_mk _ le_rfl
  · exact returns_mk _ le_rfl

/-- The functions of the statistics frontend return for every value and none. -/
theorem statisticsFargs_return (arg : FrontendArg StatisticsFrontend) (harg : arg∈statisticsFargs)
    (sfront : StatisticsFrontend) (value : Option (List UInt8)) :
    Returns (arg.configure sfront value) := by
  rw [statisticsFargs,List.mem_cons,List.mem_singleton] at harg
  rcases harg with rfl|rfl
  · exact configureValue_returns _ sfront value
  · exact configureValue_returns (fun value => some {sfront with listenAddress := value}) sfront
      value

/-- The calls of the fbdev frontend. -/
theorem callArg_fbdev (front : FbdevState) (d : Decoded) : callArg (some fbdevFargs) front d=
    if d.key=ascii "fb" then configureFbdev front d.value
    else if d.key=ascii "offset" then configureOffset front d.value
    else some (-ENOENT,front) := by
  rw [callArg,Option.getD_some,fbdevFargs,List.find?_cons,List.find?_cons,List.find?_nil]
  dsimp only
  by_cases hfb : d.key=ascii "fb"
  · rw [if_pos hfb,decide_eq_true hfb.symm]
  · rw [if_neg hfb,decide_eq_false (Ne.symm hfb)]
    by_cases hoffset : d.key=ascii "offset"
    · rw [if_pos hoffset,decide_eq_true hoffset.symm]
    · rw [if_neg hoffset,decide_eq_false (Ne.symm hoffset)]

/-- The options of the fbdev frontend return if and only if none without a value is
reached. -/
theorem callArgs_fbdev_iff (front : FbdevState) (ds : List Decoded) :
    Returns (callArgs (some fbdevFargs) front ds) ↔ bareReached front.heap ds=false := by
  induction ds generalizing front with
  | nil => exact iff_of_true (returns_mk front le_rfl) rfl
  | cons d ds ih =>
    rw [callArgs,callArg_fbdev,bareReached]
    by_cases hfb : d.key=ascii "fb"
    · rw [if_pos hfb,if_pos hfb]
      cases hvalue : d.value with
      | none =>
        refine iff_of_false ?_ (by rw [Option.all_none]; exact Bool.noConfusion)
        rintro ⟨err,next,hnone,-⟩
        cases hnone
      | some value =>
        rw [configureFbdev,Option.all_some]
        cases hheap : front.heap 0 with
        | true => exact ih _
        | false => exact iff_of_true (returns_mk _ (by decide)) rfl
    · rw [if_neg hfb,if_neg hfb]
      by_cases hoffset : d.key=ascii "offset"
      · rw [if_pos hoffset,if_pos hoffset]
        cases hvalue : d.value with
        | none =>
          refine iff_of_false ?_ (by rw [Option.all_none]; exact Bool.noConfusion)
          rintro ⟨err,next,hnone,-⟩
          cases hnone
        | some value =>
          rw [configureOffset,Option.all_some]
          dsimp only
          by_cases hneg : atoi value<0
          · rw [if_pos hneg,decide_eq_false (Int32.not_le.mpr hneg)]
            exact iff_of_true (returns_mk _ (by decide)) rfl
          · rw [if_neg hneg,decide_eq_true (Int32.not_lt.mp hneg)]
            exact ih _
      · rw [if_neg hoffset,if_neg hoffset]
        exact iff_of_true (returns_mk _ (by decide)) rfl

/-- Configuring a frontend with the options of any string returns zero or a negative
error, for the VNC and the statistics frontend always and for the fbdev frontend if
and only if no option without a value is reached. -/
theorem configure_returns_iff {Font : Type*} (before after : List UInt8) (s : CString) :
    (∀ vnc : Vnc Font,Returns (configureString vncFargs vnc before s after)) ∧
    (∀ sfront,Returns (configureString statisticsFargs sfront before s after)) ∧
    ∀ front,Returns (configureString fbdevFargs front before s after) ↔
      bareReached front.heap s.options=false := by
  refine ⟨fun vnc => ?_,fun sfront => ?_,fun front => ?_⟩
  · rw [configureString_eq]
    exact callArgs_returns vncFargs_return vnc _
  · rw [configureString_eq]
    exact callArgs_returns statisticsFargs_return sfront _
  · rw [configureString_eq]
    exact callArgs_fbdev_iff front _

/-- The fbdev frontend of a small surface. -/
def smallFbdev : FbdevState :=
  ⟨⟨obtained ⟨4,4⟩,-1,none,⟨0,0,0,0,0,0,0,0⟩,0⟩,defaultFbdev,fun _ => true⟩

/-- The name of the frontend. -/
def fbdevName : WrittenName := ⟨ascii "fbdev",by decide +kernel⟩

/-- `offset`, without a value. -/
def bareOffset : WrittenOption :=
  ⟨ascii "offset",none,by decide,by decide +kernel,(fun _ h => nomatch h),
    (fun _ h => nomatch h)⟩

/-- The specification `fbdev,offset` crashes the start-up. -/
theorem bare_offset_crashes :
    linuxfbAlloc true (obtained ⟨4,4⟩) (fun _ => true)=.ok smallFbdev ∧
      specBlock fbdevName [bareOffset]=ascii "fbdev,offset"++[0] ∧
      configureSpec (some fbdevFargs) smallFbdev (ascii "fbdev,offset"++[0]) 0=none ∧
      ¬Returns (configureString fbdevFargs smallFbdev (ascii "fbdev"++[0])
        ⟨ascii "offset",by decide +kernel⟩ []) := by
  have hblock : specBlock fbdevName [bareOffset]=ascii "fbdev,offset"++[0] := by
    decide +kernel
  refine ⟨rfl,hblock,?_,?_⟩
  · rw [←hblock,configureSpec_written]
    rfl
  · rw [configureString_eq,callArgs_fbdev_iff]
    decide +kernel

end Shoreline.FrontendTables
