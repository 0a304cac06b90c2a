import Shoreline.Resources
import Shoreline.FrontendTables

/-!
# What the frontends hold

The frontends, as what they take and release. A pointer that a frontend
overwrites or never frees stays behind: the overlay and the fonts of the VNC
frontend, and the buffer, earlier paths and a descriptor zero of the fbdev
frontend. Nothing else does.
-/

namespace Shoreline.FrontendResources

open Ownership Resources FrontendOptions FrontendTables

/-- `struct sdl`, with the video subsystem that `SDL_Init` starts. -/
structure Sdl where
  sdl : ℕ
  video : ℕ
  window : ℕ
  renderer : ℕ
  texture : ℕ

/-- `sdl_alloc` behind the label `fail_sdl_init`. -/
def failSdlInit (sdl video : ℕ) : Run (Except ℤ Sdl) := do
  release (.sdlVideo,video)
  release (.sdl,sdl)
  return .error (-1)

/-- `sdl_alloc` behind the label `fail_sdl_window`. -/
def failSdlWindow (sdl video window : ℕ) : Run (Except ℤ Sdl) := do
  release (.sdlWindow,window)
  failSdlInit sdl video

/-- `sdl_alloc`. -/
def sdlAlloc : Run (Except ℤ Sdl) := do
  match ← allocate .sdl with
  | none => return .error (-ENOMEM)
  | some sdl =>
    match ← attempt .initSdl .sdlVideo with
    | .error _ =>
      release (.sdl,sdl)
      return .error (-1)
    | .ok video =>
      match ← allocate .sdlWindow with
      | none => failSdlInit sdl video
      | some window =>
        match ← allocate .sdlRenderer with
        | none => failSdlWindow sdl video window
        | some renderer =>
          match ← allocate .sdlTexture with
          | none =>
            release (.sdlRenderer,renderer)
            failSdlWindow sdl video window
          | some texture => return .ok ⟨sdl,video,window,renderer,texture⟩

/-- `SDL_QUIT`. -/
def sdlQuit : ℤ := 256

/-- An `SDL_WINDOWEVENT` with `SDL_WINDOWEVENT_RESIZED`. -/
def sdlResized : ℤ := 512

/-- So many events of `sdl_update`, up to one that asks to quit. A resized window gives
the framebuffers of the list to the work queues, and is not followed. -/
def sdlPoll : ℕ → Run Bool
  | 0 => return false
  | left+1 => do
    let event ← call .sdlEvent
    if event=sdlResized then fault
    else if event=sdlQuit then return true
    else sdlPoll left

/-- `sdl_update`. -/
def sdlUpdate (d : Sdl) (fb : FbBlocks) : Run ℤ := do
  touchAll [(.sdl,d.sdl),(.fb,fb.fb)]
  let events ← call .sdlEvents
  let quit ← sdlPoll events.toNat
  if quit then
    return 1
  else
    fbUse fb
    touchAll [(.sdlTexture,d.texture),(.sdlRenderer,d.renderer)]
    return 0

/-- `sdl_free`. -/
def sdlFree (d : Sdl) : Run Unit := do
  touch (.sdl,d.sdl)
  release (.sdlTexture,d.texture)
  release (.sdlRenderer,d.renderer)
  release (.sdlWindow,d.window)
  release (.sdlVideo,d.video)
  release (.sdl,d.sdl)

/-- `struct vnc`. -/
structure Vnc where
  vnc : ℕ
  fbOverlay : FbBlocks
  server : ℕ
  font : Option ℕ
  /-- The fonts that `font` pointed to before. -/
  earlier : List ℕ

/-- `vnc_alloc`. -/
def vncAlloc : Run (Except ℤ Vnc) := do
  match ← allocate .vnc with
  | none => return .error (-ENOMEM)
  | some vnc =>
    match ← fbAlloc with
    | .error err =>
      release (.vnc,vnc)
      return .error err
    | .ok fbOverlay =>
      match ← allocate .rfbScreen with
      | none =>
        fbFree fbOverlay
        release (.vnc,vnc)
        return .error (-ENOMEM)
      | some server => return .ok ⟨vnc,fbOverlay,server,none,[]⟩

/-- `vnc_configure_port`. -/
def vncConfigurePort (v : Vnc) : Option (List UInt8) → Run (ℤ×Vnc)
  | none => return (-EINVAL,v)
  | some value => do
    touchAll [(.vnc,v.vnc),(.rfbScreen,v.server)]
    return (if (portOf value).isSome then 0 else -EINVAL,v)

/-- `vnc_configure_font`. -/
def vncConfigureFont (v : Vnc) : Option (List UInt8) → Run (ℤ×Vnc)
  | none => return (-EINVAL,v)
  | some _ => do
    touch (.vnc,v.vnc)
    let font ← allocate .rfbFont
    return (if font.isSome then 0 else -EINVAL,{v with font, earlier := v.font.toList++v.earlier})

/-- `vnc_configure_flicker`. -/
def vncConfigureFlicker (v : Vnc) (_ : Option (List UInt8)) : Run (ℤ×Vnc) := do
  touchAll [(.vnc,v.vnc),(.rfbScreen,v.server)]
  return (0,v)

/-- `vnc_start`. -/
def vncStart (v : Vnc) : Run (ℤ×Vnc) := do
  touchAll [(.vnc,v.vnc),(.rfbScreen,v.server)]
  return (0,v)

/-- `vnc_update`. -/
def vncUpdate (v : Vnc) (fb : FbBlocks) : Run ℤ := do
  touch (.vnc,v.vnc)
  fbUse fb
  fbUse v.fbOverlay
  touch (.rfbScreen,v.server)
  let active ← call .rfbIsActive
  return if active=0 then 1 else 0

/-- `vnc_draw_string` for `description`. -/
def vncDrawString (v : Vnc) (description : Option ℕ) : Run Unit := do
  touch (.vnc,v.vnc)
  match v.font with
  | none => return ()
  | some font =>
    touchAll (pointed .description description)
    touchAll [(.rfbFont,font),(.rfbScreen,v.server),(.pixels,v.fbOverlay.pixels)]

/-- `vnc_free`. -/
def vncFree (v : Vnc) : Run Unit := do
  touch (.vnc,v.vnc)
  release (.rfbScreen,v.server)
  release (.vnc,v.vnc)

/-- `struct statistics_frontend`. -/
structure Statistics where
  sfront : ℕ
  socket : Option ℕ
  addrList : Option ℕ
  /-- `listen_thread`, where `thread_created` is set. -/
  listenThread : Option ℕ

/-- `statistics_frontend_alloc`. -/
def statisticsFrontendAlloc : Run (Except ℤ Statistics) := do
  match ← allocate .sfront with
  | none => return .error (-ENOMEM)
  | some sfront => return .ok ⟨sfront,none,none,none⟩

/-- `statistics_frontend_configure_port`. -/
def statisticsFrontendConfigurePort (s : Statistics) : Option (List UInt8) → Run (ℤ×Statistics)
  | none => return (-EINVAL,s)
  | some value => do
    touch (.sfront,s.sfront)
    return (if (portOf value).isSome then 0 else -EINVAL,s)

/-- `statistics_frontend_configure_listen_address`. -/
def statisticsFrontendConfigureListenAddress (s : Statistics) :
    Option (List UInt8) → Run (ℤ×Statistics)
  | none => return (-EINVAL,s)
  | some _ => do
    touch (.sfront,s.sfront)
    return (0,s)

/-- `statistics_frontend_start` behind the label `fail_socket`. -/
def failSocket (s : Statistics) (socket addrList : ℕ) (err : ℤ) : Run (ℤ×Statistics) := do
  release (.descriptor,socket)
  release (.addrList,addrList)
  return (err,{s with socket := none, addrList := none})

/-- `statistics_frontend_start`. -/
def statisticsFrontendStart (s : Statistics) : Run (ℤ×Statistics) := do
  touch (.sfront,s.sfront)
  match ← attempt .getaddrinfo .addrList with
  | .error err => return (-err,s)
  | .ok addrList =>
    match ← descriptor .socket with
    | .error err =>
      release (.addrList,addrList)
      return (err,{s with addrList := none})
    | .ok socket =>
      let bound ← call .bind
      if bound<0 then
        failSocket s socket addrList bound
      else
        let listens ← call .listen
        if listens≠0 then
          failSocket s socket addrList listens
        else
          match ← attempt (.createThread .apiThread) .apiThread with
          | .error err => failSocket s socket addrList (-err)
          | .ok thread =>
            return (0,{s with
              socket := some socket, addrList := some addrList, listenThread := some thread})

/-- `statistics_frontend_update_statistics`. -/
def statisticsFrontendUpdateStatistics (s : Statistics) : Run ℤ := do
  touch (.sfront,s.sfront)
  return 0

/-- `statistics_frontend_free`. -/
def statisticsFrontendFree (s : Statistics) : Run Unit := do
  touch (.sfront,s.sfront)
  releaseAll (pointed .apiThread s.listenThread)
  releaseAll (pointed .descriptor s.socket)
  releaseAll (pointed .addrList s.addrList)
  release (.sfront,s.sfront)

/-- `struct linuxfb`. -/
structure Linuxfb where
  linuxfb : ℕ
  /-- `fbdev`, where it is not `default_fbdev`. -/
  fbdev : Option ℕ
  /-- The paths that `fbdev` pointed to before. -/
  earlier : List ℕ
  /-- `fd`, where it is not minus one. -/
  fd : Option ℕ
  fbmem : Option ℕ
  bitsPerPixel : ℤ
  grayscale : ℤ

/-- `linuxfb_alloc`. -/
def linuxfbAlloc : Run (Except ℤ Linuxfb) := do
  match ← allocate .linuxfb with
  | none => return .error (-ENOMEM)
  | some linuxfb => return .ok ⟨linuxfb,none,[],none,none,0,0⟩

/-- `configure_fbdev`, which crashes without a value. -/
def configureFbdev (l : Linuxfb) : Option (List UInt8) → Run (ℤ×Linuxfb)
  | none => fault
  | some _ => do
    touch (.linuxfb,l.linuxfb)
    match ← allocate .fbdev with
    | none => return (-ENOMEM,l)
    | some fbdev =>
      return (0,{l with fbdev := some fbdev, earlier := l.fbdev.toList++l.earlier})

/-- `configure_offset`, which crashes without a value. -/
def configureOffset (l : Linuxfb) : Option (List UInt8) → Run (ℤ×Linuxfb)
  | none => fault
  | some value => do
    touch (.linuxfb,l.linuxfb)
    return (if atoi value<0 then -EINVAL else 0,l)

/-- The depth switch of `linuxfb_start` does not go to `fail_depth`. -/
def depthSupported (bitsPerPixel grayscale : ℤ) : Bool :=
  if bitsPerPixel=8 then grayscale=1
  else if bitsPerPixel=16 ∨ bitsPerPixel=24 ∨ bitsPerPixel=32 then grayscale=0
  else false

/-- `linuxfb_start`. An unsupported depth leaves the zero of `ioctl` as the
result. -/
def linuxfbStart (l : Linuxfb) : Run (ℤ×Linuxfb) := do
  touch (.linuxfb,l.linuxfb)
  match ← descriptor .openFbdev with
  | .error err => return (err,l)
  | .ok fd =>
    let err ← call .ioctl
    if err<0 then
      release (.descriptor,fd)
      return (err,l)
    else
      let bitsPerPixel ← call .bitsPerPixel
      let grayscale ← call .grayscale
      let l := {l with bitsPerPixel, grayscale}
      if depthSupported bitsPerPixel grayscale then
        match ← allocate .fbmem with
        | none =>
          release (.descriptor,fd)
          return (-ENOMEM,l)
        | some fbmem => return (0,{l with fd := some fd, fbmem := some fbmem})
      else
        release (.descriptor,fd)
        return (0,l)

/-- The stores of `linuxfb_update` for pixels of a depth that it knows. -/
def storePixels (l : Linuxfb) : Run Unit :=
  match l.fbmem with
  | none => fault
  | some fbmem => touch (.fbmem,fbmem)

/-- `linuxfb_update`. Where there is a pixel to show, the depth decides whether
it is stored or the update is refused. -/
def linuxfbUpdate (l : Linuxfb) (fb : FbBlocks) : Run ℤ := do
  touch (.linuxfb,l.linuxfb)
  let visible ← call .visible
  if visible=0 then
    touchAll (pointed .fbmem l.fbmem)
    let written ← call .write
    return min written 0
  else if l.bitsPerPixel=8 ∨ l.bitsPerPixel=16 ∨ l.bitsPerPixel=24 ∨ l.bitsPerPixel=32 then
    fbUse fb
    storePixels l
    let written ← call .write
    return min written 0
  else return -EINVAL

/-- `linuxfb_free`. -/
def linuxfbFree (l : Linuxfb) : Run Unit := do
  touch (.linuxfb,l.linuxfb)
  releaseAll (pointed .fbdev l.fbdev)
  releaseAll (pointed .descriptor (l.fd.filter (0<·)))
  release (.linuxfb,l.linuxfb)

/-- A frontend of one of the four kinds. -/
inductive Front where
  | sdl (d : Sdl)
  | vnc (v : Vnc)
  | statistics (s : Statistics)
  | fbdev (l : Linuxfb)

/-- The definitions in `frontends`. -/
inductive FrontendDef where
  | sdl
  | vnc
  | statistics
  | fbdev
  deriving DecidableEq, Repr

/-- `def` of a frontend. -/
def Front.frontdef : Front → FrontendDef
  | .sdl _ => .sdl
  | .vnc _ => .vnc
  | .statistics _ => .statistics
  | .fbdev _ => .fbdev

/-- `handles_signals`. -/
def FrontendDef.handlesSignals : FrontendDef → Bool
  | .sdl => false
  | .vnc => true
  | .statistics => true
  | .fbdev => true

/-- `frontends`. -/
def frontends : List (List UInt8×FrontendDef) :=
  [(ascii "sdl",.sdl),(ascii "vnc",.vnc),(ascii "statistics",.statistics),(ascii "fbdev",.fbdev)]

/-- `frontend_get_def`. -/
def frontendGetDef (id : List UInt8) : Option FrontendDef :=
  (frontends.find? (·.1=id)).map Prod.snd

/-- `frontend_alloc`. -/
def frontendAlloc : FrontendDef → Run (Except ℤ Front)
  | .sdl => do return (← sdlAlloc).map Front.sdl
  | .vnc => do return (← vncAlloc).map Front.vnc
  | .statistics => do return (← statisticsFrontendAlloc).map Front.statistics
  | .fbdev => do return (← linuxfbAlloc).map Front.fbdev

/-- An argument of a frontend and its configure function. -/
abbrev Arg (σ : Type) := List UInt8×(σ → Option (List UInt8) → Run (ℤ×σ))

/-- `fargs` of the VNC frontend. -/
def vncArgs : List (Arg Vnc) :=
  [(ascii "port",vncConfigurePort),(ascii "font",vncConfigureFont),
    (ascii "flickerfree",vncConfigureFlicker)]

/-- `fargs` of the statistics frontend. -/
def statisticsArgs : List (Arg Statistics) :=
  [(ascii "port",statisticsFrontendConfigurePort),
    (ascii "listen",statisticsFrontendConfigureListenAddress)]

/-- `fargs` of the fbdev frontend. -/
def fbdevArgs : List (Arg Linuxfb) :=
  [(ascii "fb",configureFbdev),(ascii "offset",configureOffset)]

/-- `frontend_configure_option`. -/
def frontendConfigureOption {σ : Type} (args : List (Arg σ)) (front : σ) (d : Decoded) :
    Run (ℤ×σ) :=
  match args.find? (·.1=d.key) with
  | none => return (-ENOENT,front)
  | some arg => arg.2 front d.value

/-- The loop of `frontend_configure`. -/
def configureLoop {σ : Type} (args : List (Arg σ)) : σ → List Decoded → Run (ℤ×σ)
  | front,[] => return (0,front)
  | front,d::ds => do
    let (err,front) ← frontendConfigureOption args front d
    if err≠0 then return (err,front)
    configureLoop args front ds

/-- `frontend_configure`, where a frontend has options. -/
def frontendConfigure (front : Front) (options : List UInt8) : Run (ℤ×Front) :=
  let ds := (pieces options).map decode
  match front with
  | .sdl d => return (0,.sdl d)
  | .vnc v => do
    let (err,v) ← configureLoop vncArgs v ds
    return (err,.vnc v)
  | .statistics s => do
    let (err,s) ← configureLoop statisticsArgs s ds
    return (err,.statistics s)
  | .fbdev l => do
    let (err,l) ← configureLoop fbdevArgs l ds
    return (err,.fbdev l)

/-- `frontend_start`, where a frontend can be started. -/
def frontendStart : Front → Run (ℤ×Front)
  | .sdl d => return (0,.sdl d)
  | .vnc v => do
    let (err,v) ← vncStart v
    return (err,.vnc v)
  | .statistics s => do
    let (err,s) ← statisticsFrontendStart s
    return (err,.statistics s)
  | .fbdev l => do
    let (err,l) ← linuxfbStart l
    return (err,.fbdev l)

/-- `frontend_update`. -/
def frontendUpdate (fb : FbBlocks) : Front → Run ℤ
  | .sdl d => sdlUpdate d fb
  | .vnc v => vncUpdate v fb
  | .statistics s => statisticsFrontendUpdateStatistics s
  | .fbdev l => linuxfbUpdate l fb

/-- `frontend_draw_string`, where a frontend can draw. -/
def frontendDrawString (description : Option ℕ) : Front → Run Unit
  | .sdl _ => return ()
  | .vnc v => vncDrawString v description
  | .statistics _ => return ()
  | .fbdev _ => return ()

/-- `frontend_free`. -/
def frontendFree : Front → Run Unit
  | .sdl d => sdlFree d
  | .vnc v => vncFree v
  | .statistics s => statisticsFrontendFree s
  | .fbdev l => linuxfbFree l

/-- What an SDL frontend holds. -/
def Sdl.own (d : Sdl) : Multiset Resource :=
  {(.sdlTexture,d.texture)}+({(.sdlRenderer,d.renderer)}+({(.sdlWindow,d.window)}+
    ({(.sdlVideo,d.video)}+{(.sdl,d.sdl)})))

/-- What a VNC frontend leaves behind: its overlay and every font. -/
def Vnc.lost (v : Vnc) : Multiset Resource :=
  v.fbOverlay.own+addresses .rfbFont v.font.toList+addresses .rfbFont v.earlier

/-- What a VNC frontend holds. -/
def Vnc.own (v : Vnc) : Multiset Resource := {(.vnc,v.vnc)}+{(.rfbScreen,v.server)}+v.lost

/-- What a statistics frontend holds. -/
def Statistics.own (s : Statistics) : Multiset Resource :=
  {(.sfront,s.sfront)}+addresses .apiThread s.listenThread.toList+
    addresses .descriptor s.socket.toList+addresses .addrList s.addrList.toList

/-- What an fbdev frontend leaves behind: its buffer, the paths but the last one,
and a descriptor zero. -/
def Linuxfb.lost (l : Linuxfb) : Multiset Resource :=
  addresses .fbmem l.fbmem.toList+addresses .fbdev l.earlier+
    addresses .descriptor (l.fd.filter (·=0)).toList

/-- What an fbdev frontend holds. -/
def Linuxfb.own (l : Linuxfb) : Multiset Resource :=
  {(.linuxfb,l.linuxfb)}+addresses .fbdev l.fbdev.toList+
    addresses .descriptor (l.fd.filter (0<·)).toList+l.lost

/-- What a frontend holds. -/
def Front.own : Front → Multiset Resource
  | .sdl d => d.own
  | .vnc v => v.own
  | .statistics s => s.own
  | .fbdev l => l.own

/-- What a frontend leaves behind. -/
def Front.lost : Front → Multiset Resource
  | .sdl _ => 0
  | .vnc v => v.lost
  | .statistics _ => 0
  | .fbdev l => l.lost

/-- A statistics frontend that has not been started. -/
def Statistics.Fresh (s : Statistics) : Prop :=
  s.socket=none ∧ s.addrList=none ∧ s.listenThread=none

/-- An fbdev frontend that has not been started. -/
def Linuxfb.Fresh (l : Linuxfb) : Prop := l.fd=none ∧ l.fbmem=none

/-- A frontend that has not been started. -/
def Front.Fresh : Front → Prop
  | .sdl _ => True
  | .vnc _ => True
  | .statistics s => s.Fresh
  | .fbdev l => l.Fresh

/-- A frontend that can be updated: an fbdev frontend has a buffer. -/
def Front.Started : Front → Prop
  | .sdl _ => True
  | .vnc _ => True
  | .statistics _ => True
  | .fbdev l => l.fbmem.isSome

/-- The devices report depths that the fbdev frontend supports. -/
def DepthsSupported (env : Surroundings Call) : Prop :=
  ∀ t t', depthSupported (env .bitsPerPixel t) (env .grayscale t')=true

/-- No window is resized. -/
def Unresized (env : Surroundings Call) : Prop := ∀ t, env .sdlEvent t≠sdlResized

/-- Options that an fbdev frontend can take: those that it knows have a value. -/
def Valued (ds : List Decoded) : Prop :=
  ∀ d∈ds,d.key=ascii "fb" ∨ d.key=ascii "offset" → d.value.isSome

section Specs

variable {env : Surroundings Call}

/-- Without a window nothing stays. -/
theorem failSdlInit_spec (sdl video : ℕ) :
    Triple env ({(.sdlVideo,video)}+{(.sdl,sdl)}) (failSdlInit sdl video)
      fun out left => out=.error (-1) ∧ left=0 :=
  Triple.release_bind rfl (Triple.release_bind (add_zero _).symm (Triple.pure ⟨rfl,rfl⟩))

/-- Without a renderer or a texture nothing stays. -/
theorem failSdlWindow_spec (sdl video window : ℕ) :
    Triple env ({(.sdlWindow,window)}+({(.sdlVideo,video)}+{(.sdl,sdl)}))
      (failSdlWindow sdl video window) fun out left => out=.error (-1) ∧ left=0 :=
  Triple.release_bind rfl (failSdlInit_spec sdl video)

/-- `sdl_alloc` holds a frontend or nothing. -/
theorem sdlAlloc_spec : Triple env 0 sdlAlloc fun out left =>
    match out with
    | .error err => left=0 ∧ err≠0
    | .ok d => left=d.own := by
  have hfail : ∀ {before : Multiset Resource} {m : Run (Except ℤ Sdl)},
      Triple env before m (fun out left => out=.error (-1) ∧ left=0) →
        Triple env before m fun out left =>
          match out with
          | .error err => left=0 ∧ err≠0
          | .ok d => left=d.own := by
    intro before m hm
    refine hm.mono fun out left h => ?_
    obtain ⟨rfl,rfl⟩ := h
    exact ⟨rfl,by decide⟩
  refine (allocate_spec .sdl).gain_bind fun p left hleft => ?_
  subst hleft
  cases p with
  | none => exact Triple.pure ⟨rfl,by decide⟩
  | some sdl =>
    rw [addresses_some,add_zero]
    refine (attempt_spec .initSdl .sdlVideo).gain_bind fun out left hleft => ?_
    cases out with
    | error err =>
      obtain ⟨rfl,-,-⟩ := hleft
      exact Triple.release_bind (add_comm _ _) (Triple.pure ⟨rfl,by decide⟩)
    | ok video =>
      subst hleft
      refine (allocate_spec .sdlWindow).gain_bind fun p left hleft => ?_
      subst hleft
      cases p with
      | none =>
        rw [addresses_none,zero_add]
        exact hfail (failSdlInit_spec sdl video)
      | some window =>
        rw [addresses_some]
        refine (allocate_spec .sdlRenderer).gain_bind fun p left hleft => ?_
        subst hleft
        cases p with
        | none =>
          rw [addresses_none,zero_add]
          exact hfail (failSdlWindow_spec sdl video window)
        | some renderer =>
          rw [addresses_some]
          refine (allocate_spec .sdlTexture).gain_bind fun p left hleft => ?_
          subst hleft
          cases p with
          | none =>
            rw [addresses_none,zero_add]
            exact Triple.release_bind rfl (hfail (failSdlWindow_spec sdl video window))
          | some texture =>
            rw [addresses_some]
            exact Triple.pure rfl

/-- `vnc_alloc` holds a frontend or nothing. -/
theorem vncAlloc_spec : Triple env 0 vncAlloc fun out left =>
    match out with
    | .error err => left=0 ∧ err≠0
    | .ok v => left=v.own := by
  refine (allocate_spec .vnc).gain_bind fun p left hleft => ?_
  subst hleft
  cases p with
  | none => exact Triple.pure ⟨rfl,by decide⟩
  | some vnc =>
    refine fbAlloc_spec.gain_bind fun out left hleft => ?_
    cases out with
    | error err =>
      obtain ⟨rfl,herr⟩ := hleft
      exact Triple.release_bind (zero_add _) (Triple.pure ⟨rfl,herr⟩)
    | ok fbOverlay =>
      subst hleft
      refine (allocate_spec .rfbScreen).gain_bind fun q left hleft => ?_
      subst hleft
      cases q with
      | none =>
        exact (fbFree_spec fbOverlay).spend_bind (zero_add _) fun _ =>
          Triple.release_bind rfl (Triple.pure ⟨rfl,by decide⟩)
      | some server =>
        refine Triple.pure ?_
        change _=Vnc.own ⟨vnc,fbOverlay,server,none,[]⟩
        rw [Vnc.own,Vnc.lost,addresses_none,addresses_nil,addresses_some,addresses_some]
        abel

/-- What configuring a frontend keeps. -/
def Keeps {σ : Type} (own : σ → Multiset Resource) (inv : σ → Prop) (out : ℤ×σ)
    (left : Multiset Resource) : Prop := left=own out.2 ∧ inv out.2

/-- A VNC frontend holds itself after an option. -/
theorem vncArgs_spec (arg : Arg Vnc) (harg : arg∈vncArgs) (v : Vnc) (value : Option (List UInt8)) :
    Triple env v.own (arg.2 v value) (Keeps Vnc.own fun _ => True) := by
  have hpair : ∀ r∈[(Kind.vnc,v.vnc),(.rfbScreen,v.server)],r∈v.own := by
    simp [Vnc.own]
  simp only [vncArgs,List.mem_cons,List.not_mem_nil,or_false] at harg
  rcases harg with rfl | rfl | rfl
  · cases value with
    | none => exact Triple.pure ⟨rfl,trivial⟩
    | some value => exact Triple.touchAll_bind hpair (Triple.pure ⟨rfl,trivial⟩)
  · cases value with
    | none => exact Triple.pure ⟨rfl,trivial⟩
    | some value =>
      refine Triple.touch_bind (hpair _ List.mem_cons_self)
        ((allocate_spec .rfbFont).gain_bind fun font left hleft => Triple.pure ⟨?_,trivial⟩)
      rw [hleft,Vnc.own,Vnc.own,Vnc.lost,Vnc.lost,addresses_append]
      abel
  · exact Triple.touchAll_bind hpair (Triple.pure ⟨rfl,trivial⟩)

/-- A statistics frontend holds itself after an option. -/
theorem statisticsArgs_spec (arg : Arg Statistics) (harg : arg∈statisticsArgs) (s : Statistics)
    (hs : s.Fresh) (value : Option (List UInt8)) :
    Triple env s.own (arg.2 s value) (Keeps Statistics.own Statistics.Fresh) := by
  have huse : (Kind.sfront,s.sfront)∈s.own := by simp [Statistics.own]
  simp only [statisticsArgs,List.mem_cons,List.not_mem_nil,or_false] at harg
  rcases harg with rfl | rfl
  · cases value with
    | none => exact Triple.pure ⟨rfl,hs⟩
    | some value => exact Triple.touch_bind huse (Triple.pure ⟨rfl,hs⟩)
  · cases value with
    | none => exact Triple.pure ⟨rfl,hs⟩
    | some value => exact Triple.touch_bind huse (Triple.pure ⟨rfl,hs⟩)

/-- An fbdev frontend holds itself after an option that has a value. -/
theorem fbdevArgs_spec (arg : Arg Linuxfb) (harg : arg∈fbdevArgs) (l : Linuxfb) (hl : l.Fresh)
    (value : List UInt8) :
    Triple env l.own (arg.2 l (some value)) (Keeps Linuxfb.own Linuxfb.Fresh) := by
  have huse : (Kind.linuxfb,l.linuxfb)∈l.own := by simp [Linuxfb.own]
  simp only [fbdevArgs,List.mem_cons,List.not_mem_nil,or_false] at harg
  rcases harg with rfl | rfl
  · refine Triple.touch_bind huse ((allocate_spec .fbdev).gain_bind fun p left hleft => ?_)
    subst hleft
    cases p with
    | none => exact Triple.pure ⟨zero_add _,hl⟩
    | some fbdev =>
      refine Triple.pure ⟨?_,hl⟩
      rw [Linuxfb.own,Linuxfb.own,Linuxfb.lost,Linuxfb.lost,addresses_append]
      abel
  · exact Triple.touch_bind huse (Triple.pure ⟨rfl,hl⟩)

/-- Options keep what a frontend holds where each of them does. -/
theorem configureLoop_spec {σ : Type} {args : List (Arg σ)} {own : σ → Multiset Resource}
    {inv : σ → Prop} {ds : List Decoded}
    (h : ∀ arg∈args,∀ d∈ds,arg.1=d.key → ∀ front, inv front →
      Triple env (own front) (arg.2 front d.value) (Keeps own inv))
    {front : σ} (hfront : inv front) :
    Triple env (own front) (configureLoop args front ds) (Keeps own inv) := by
  induction ds generalizing front with
  | nil => exact Triple.pure ⟨rfl,hfront⟩
  | cons d ds ih =>
    have hone : Triple env (own front) (frontendConfigureOption args front d) (Keeps own inv) := by
      rw [frontendConfigureOption]
      split
      · exact Triple.pure ⟨rfl,hfront⟩
      · next arg hfind =>
          have hname : arg.1=d.key := by simpa using List.find?_some hfind
          exact h arg (List.mem_of_find?_eq_some hfind) d List.mem_cons_self hname front hfront
    refine hone.bind (add_zero _).symm fun out left hleft => ?_
    obtain ⟨err,next⟩ := out
    obtain ⟨rfl,hinv⟩ := hleft
    rw [add_zero]
    change Triple env (own next)
      (if err≠0 then pure (err,next) else configureLoop args next ds) (Keeps own inv)
    split
    · exact Triple.pure ⟨rfl,hinv⟩
    · exact ih (fun arg harg d hd => h arg harg d (List.mem_cons_of_mem _ hd)) hinv

/-- `statistics_frontend_alloc` holds a frontend or nothing. -/
theorem statisticsFrontendAlloc_spec : Triple env 0 statisticsFrontendAlloc fun out left =>
    match out with
    | .error err => left=0 ∧ err≠0
    | .ok s => left=s.own ∧ s.Fresh := by
  refine (allocate_spec .sfront).gain_bind fun p left hleft => ?_
  subst hleft
  cases p with
  | none => exact Triple.pure ⟨rfl,by decide⟩
  | some sfront => exact Triple.pure ⟨rfl,rfl,rfl,rfl⟩

/-- `linuxfb_alloc` holds a frontend or nothing. -/
theorem linuxfbAlloc_spec : Triple env 0 linuxfbAlloc fun out left =>
    match out with
    | .error err => left=0 ∧ err≠0
    | .ok l => left=l.own ∧ l.Fresh := by
  refine (allocate_spec .linuxfb).gain_bind fun p left hleft => ?_
  subst hleft
  cases p with
  | none => exact Triple.pure ⟨rfl,by decide⟩
  | some linuxfb => exact Triple.pure ⟨rfl,rfl,rfl⟩

/-- A new frontend of the wanted kind holds itself; a failed one nothing. -/
theorem frontendAlloc_spec (frontdef : FrontendDef) :
    Triple env 0 (frontendAlloc frontdef) fun out left =>
      match out with
      | .error err => left=0 ∧ err≠0
      | .ok front => left=front.own ∧ front.Fresh ∧ front.frontdef=frontdef := by
  cases frontdef with
  | sdl =>
    refine sdlAlloc_spec.gain_bind fun out left hleft => Triple.pure ?_
    rw [add_zero]
    cases out with
    | error err => exact hleft
    | ok d => exact ⟨hleft,trivial,rfl⟩
  | vnc =>
    refine vncAlloc_spec.gain_bind fun out left hleft => Triple.pure ?_
    rw [add_zero]
    cases out with
    | error err => exact hleft
    | ok v => exact ⟨hleft,trivial,rfl⟩
  | statistics =>
    refine statisticsFrontendAlloc_spec.gain_bind fun out left hleft => Triple.pure ?_
    rw [add_zero]
    cases out with
    | error err => exact hleft
    | ok s => exact ⟨hleft.1,hleft.2,rfl⟩
  | fbdev =>
    refine linuxfbAlloc_spec.gain_bind fun out left hleft => Triple.pure ?_
    rw [add_zero]
    cases out with
    | error err => exact hleft
    | ok l => exact ⟨hleft.1,hleft.2,rfl⟩

/-- A frontend of a definition that has not been started. -/
def FreshOf (frontdef : FrontendDef) (front : Front) : Prop :=
  front.Fresh ∧ front.frontdef = frontdef

/-- `frontend_configure` keeps what a frontend holds. -/
theorem frontendConfigure_spec {frontdef : FrontendDef} {front : Front}
    (hfresh : FreshOf frontdef front) {options : List UInt8}
    (hvalued : frontdef=.fbdev → Valued ((pieces options).map decode)) :
    Triple env front.own (frontendConfigure front options)
      (Keeps Front.own (FreshOf frontdef)) := by
  obtain ⟨hfresh,rfl⟩ := hfresh
  cases front with
  | sdl d => exact Triple.pure ⟨rfl,trivial,rfl⟩
  | vnc v =>
    have hloop := @configureLoop_spec env Vnc vncArgs Vnc.own (fun _ => True)
      ((pieces options).map decode) (fun arg harg d _ _ v _ => vncArgs_spec arg harg v d.value) v
      trivial
    refine hloop.bind (add_zero _).symm fun out left hleft => ?_
    rw [add_zero]
    exact Triple.pure ⟨hleft.1,hleft.2,rfl⟩
  | statistics s =>
    have hloop := @configureLoop_spec env Statistics statisticsArgs Statistics.own
      Statistics.Fresh ((pieces options).map decode)
      (fun arg harg d _ _ s hs => statisticsArgs_spec arg harg s hs d.value) s hfresh
    refine hloop.bind (add_zero _).symm fun out left hleft => ?_
    rw [add_zero]
    exact Triple.pure ⟨hleft.1,hleft.2,rfl⟩
  | fbdev l =>
    have hstep : ∀ arg∈fbdevArgs,∀ d∈(pieces options).map decode,arg.1=d.key →
        ∀ l : Linuxfb, l.Fresh →
          Triple env l.own (arg.2 l d.value) (Keeps Linuxfb.own Linuxfb.Fresh) := by
      intro arg harg d hd hname l hl
      have hkey : d.key=ascii "fb" ∨ d.key=ascii "offset" := by
        rw [←hname]
        simp only [fbdevArgs,List.mem_cons,List.not_mem_nil,or_false] at harg
        rcases harg with rfl | rfl
        · exact Or.inl rfl
        · exact Or.inr rfl
      obtain ⟨value,hvalue⟩ := Option.isSome_iff_exists.mp (hvalued rfl d hd hkey)
      rw [hvalue]
      exact fbdevArgs_spec arg harg l hl value
    refine (configureLoop_spec hstep hfresh).bind (add_zero _).symm fun out left hleft => ?_
    rw [add_zero]
    exact Triple.pure ⟨hleft.1,hleft.2,rfl⟩

/-- A statistics frontend that could not be started holds itself only. -/
theorem failSocket_spec {s : Statistics} (hs : s.Fresh) (socket addrList : ℕ) (err : ℤ) :
    Triple env ({(.descriptor,socket)}+({(.addrList,addrList)}+s.own))
      (failSocket s socket addrList err) fun out left => left=out.2.own := by
  refine Triple.release_bind rfl (Triple.release_bind rfl (Triple.pure ?_))
  rw [Statistics.own,Statistics.own,hs.1,hs.2.1]

/-- `statistics_frontend_start` leaves a frontend that holds its thread, socket and
addresses, or itself only. -/
theorem statisticsFrontendStart_spec {s : Statistics} (hs : s.Fresh) :
    Triple env s.own (statisticsFrontendStart s) fun out left => left=out.2.own := by
  have huse : (Kind.sfront,s.sfront)∈s.own := by simp [Statistics.own]
  refine Triple.touch_bind huse
    ((attempt_spec .getaddrinfo .addrList).gain_bind fun out left hleft => ?_)
  cases out with
  | error err =>
    obtain ⟨rfl,-,-⟩ := hleft
    exact Triple.pure (zero_add _)
  | ok addrList =>
    subst hleft
    refine (descriptor_spec .socket).gain_bind fun out left hleft => ?_
    cases out with
    | error err =>
      obtain ⟨rfl,-⟩ := hleft
      refine Triple.release_bind (zero_add _) (Triple.pure ?_)
      rw [Statistics.own,Statistics.own,hs.2.1]
    | ok socket =>
      subst hleft
      refine Triple.call_bind fun t => ?_
      split
      · exact failSocket_spec hs socket addrList _
      · refine Triple.call_bind fun t => ?_
        split
        · exact failSocket_spec hs socket addrList _
        · refine (attempt_spec _ .apiThread).gain_bind fun out left hleft => ?_
          cases out with
          | error err =>
            obtain ⟨rfl,-,-⟩ := hleft
            rw [zero_add]
            exact failSocket_spec hs socket addrList _
          | ok thread =>
            refine Triple.pure ?_
            rw [hleft,Statistics.own,Statistics.own,hs.1,hs.2.1,hs.2.2,addresses_some,
              addresses_some,addresses_some,addresses_none,addresses_none,addresses_none]
            abel

/-- A descriptor is zero or positive. -/
theorem addresses_fd (fd : ℕ) : addresses .descriptor ((some fd).filter (0<·)).toList+
    addresses .descriptor ((some fd).filter (·=0)).toList={(.descriptor,fd)} := by
  cases fd with
  | zero => rfl
  | succ fd => rfl

/-- `linuxfb_start` leaves a frontend that holds its descriptor and buffer, or itself
only; without an error it has a buffer if the depth is supported. -/
theorem linuxfbStart_spec (hdepths : DepthsSupported env) {l : Linuxfb} (hl : l.Fresh) :
    Triple env l.own (linuxfbStart l) fun out left => left=out.2.own ∧
      (out.1=0 → out.2.fbmem.isSome) := by
  have huse : (Kind.linuxfb,l.linuxfb)∈l.own := by simp [Linuxfb.own]
  refine Triple.touch_bind huse ((descriptor_spec .openFbdev).gain_bind fun out left hleft => ?_)
  cases out with
  | error err =>
    obtain ⟨rfl,herr⟩ := hleft
    exact Triple.pure ⟨zero_add _,fun h => absurd h herr⟩
  | ok fd =>
    subst hleft
    refine Triple.call_bind fun t => ?_
    split
    · next herr =>
        exact Triple.release_bind rfl (Triple.pure ⟨rfl,fun h => absurd h herr.ne⟩)
    · refine Triple.call_bind fun t => Triple.call_bind fun t' => ?_
      rw [if_pos (hdepths t t')]
      refine (allocate_spec .fbmem).gain_bind fun p left hleft => ?_
      subst hleft
      cases p with
      | none =>
        exact Triple.release_bind (zero_add _)
          (Triple.pure ⟨rfl,fun h : -ENOMEM=0 => absurd h (by decide)⟩)
      | some fbmem =>
        refine Triple.pure ⟨?_,fun _ => rfl⟩
        have hfd := addresses_fd fd
        simp only [Linuxfb.own,Linuxfb.lost,hl.1,hl.2,←hfd,addresses_some,addresses_none,
          Option.filter_none]
        abel

/-- A frontend that was started holds itself; without an error it can be updated. -/
theorem frontendStart_spec (hdepths : DepthsSupported env) {front : Front}
    (hfresh : front.Fresh) : Triple env front.own (frontendStart front) fun out left =>
      left=out.2.own ∧ out.2.frontdef=front.frontdef ∧ (out.1=0 → out.2.Started) := by
  cases front with
  | sdl d => exact Triple.pure ⟨rfl,rfl,fun _ => trivial⟩
  | vnc v =>
    have hpair : ∀ r∈[(Kind.vnc,v.vnc),(.rfbScreen,v.server)],r∈v.own := by simp [Vnc.own]
    have hstart : Triple env v.own (vncStart v) fun out left => left=out.2.own :=
      Triple.touchAll_bind hpair (Triple.pure rfl)
    refine hstart.bind (add_zero _).symm fun out left hleft => ?_
    rw [add_zero]
    exact Triple.pure ⟨hleft,rfl,fun _ => trivial⟩
  | statistics s =>
    refine (statisticsFrontendStart_spec hfresh).bind (add_zero _).symm fun out left hleft => ?_
    rw [add_zero]
    exact Triple.pure ⟨hleft,rfl,fun _ => trivial⟩
  | fbdev l =>
    refine (linuxfbStart_spec hdepths hfresh).bind (add_zero _).symm fun out left hleft => ?_
    rw [add_zero]
    exact Triple.pure ⟨hleft.1,rfl,hleft.2⟩

section Updates

variable {rest : Multiset Resource} {fb : FbBlocks}

/-- What a frontend holds may be used. -/
theorem mem_own_add {own : Multiset Resource} {r : Resource} (h : r∈own) : r∈own+rest :=
  Multiset.mem_add.mpr (Or.inl h)

/-- Events that resize nothing change nothing that is held. -/
theorem sdlPoll_spec (hsize : Unresized env) (events : ℕ) :
    Triple env 0 (sdlPoll events) fun _ left => left=0 := by
  induction events with
  | zero => exact Triple.pure rfl
  | succ events ih =>
    refine Triple.call_bind fun t => ?_
    rw [if_neg (hsize t)]
    split
    · exact Triple.pure rfl
    · exact ih

/-- `frontend_update` of a started frontend uses the frontend and the framebuffer. -/
theorem frontendUpdate_spec (hsize : Unresized env) {front : Front} (hstarted : front.Started) :
    Triple env (front.own+fb.own) (frontendUpdate fb front) fun _ left =>
      left=front.own+fb.own := by
  have hfb : fb.own ≤ front.own+fb.own := Multiset.le_add_left _ _
  cases front with
  | sdl d =>
    have huse : ∀ r∈[(Kind.sdl,d.sdl),(.fb,fb.fb)],r∈d.own+fb.own := by
      simp [Sdl.own,FbBlocks.own]
    have hshow : ∀ r∈[(Kind.sdlTexture,d.texture),(.sdlRenderer,d.renderer)],r∈d.own+fb.own := by
      simp [Sdl.own]
    refine Triple.touchAll_bind huse (Triple.call_bind fun t =>
      (sdlPoll_spec hsize _).gain_bind fun quit left hleft => ?_)
    rw [hleft,zero_add]
    split
    · exact Triple.pure rfl
    · exact fbUse_bind hfb (Triple.touchAll_bind hshow (Triple.pure rfl))
  | vnc v =>
    have huse : (Kind.vnc,v.vnc)∈v.own+fb.own := mem_own_add (by simp [Vnc.own])
    have hscreen : (Kind.rfbScreen,v.server)∈v.own+fb.own := mem_own_add (by simp [Vnc.own])
    have hoverlay : v.fbOverlay.own ≤ v.own+fb.own := by
      refine le_trans ?_ (Multiset.le_add_right v.own fb.own)
      rw [Vnc.own,Vnc.lost,add_assoc v.fbOverlay.own,add_left_comm]
      exact Multiset.le_add_right _ _
    exact Triple.touch_bind huse (fbUse_bind hfb (fbUse_bind hoverlay
      (Triple.touch_bind hscreen (Triple.call_bind fun t => Triple.pure rfl))))
  | statistics s =>
    have huse : (Kind.sfront,s.sfront)∈s.own+fb.own := mem_own_add (by simp [Statistics.own])
    exact Triple.touch_bind huse (Triple.pure rfl)
  | fbdev l =>
    obtain ⟨fbmem,hsome⟩ := Option.isSome_iff_exists.mp hstarted
    have huse : (Kind.linuxfb,l.linuxfb)∈l.own+fb.own := mem_own_add (by simp [Linuxfb.own])
    have hmem : (Kind.fbmem,fbmem)∈l.own+fb.own :=
      mem_own_add (by simp [Linuxfb.own,Linuxfb.lost,hsome,addresses_cons])
    refine Triple.touch_bind huse (Triple.call_bind fun t => ?_)
    split
    · refine Triple.touchAll_bind ?_ (Triple.call_bind fun t => Triple.pure rfl)
      intro r hr
      rw [hsome,pointed,Option.toList_some,List.map_singleton,List.mem_singleton] at hr
      rw [hr]
      exact hmem
    · split
      · rw [storePixels,hsome]
        exact fbUse_bind hfb (Triple.touch_bind hmem (Triple.call_bind fun t => Triple.pure rfl))
      · exact Triple.pure rfl

/-- `frontend_draw_string` uses the frontend and the text. -/
theorem frontendDrawString_spec (front : Front) (description : Option ℕ) :
    Triple env (front.own+addresses .description description.toList)
      (frontendDrawString description front) fun _ left =>
        left=front.own+addresses .description description.toList := by
  cases front with
  | sdl d => exact Triple.pure rfl
  | vnc v =>
    have huse : (Kind.vnc,v.vnc)∈v.own+addresses .description description.toList :=
      mem_own_add (by simp [Vnc.own])
    refine Triple.touch_bind huse ?_
    split
    · exact Triple.pure rfl
    · next font hfont =>
        have htext : ∀ r∈pointed .description description,
            r∈v.own+addresses .description description.toList := fun r hr =>
          Multiset.mem_add.mpr (Or.inr hr)
        have hdraw : ∀ r∈[(Kind.rfbFont,font),(.rfbScreen,v.server),(.pixels,v.fbOverlay.pixels)],
            r∈v.own+addresses .description description.toList := fun r hr =>
          mem_own_add (by
            simp only [List.mem_cons,List.not_mem_nil,or_false] at hr
            rcases hr with rfl | rfl | rfl <;>
              simp [Vnc.own,Vnc.lost,FbBlocks.own,hfont,addresses_cons])
        exact Triple.touchAll_bind htext (Triple.touchAll hdraw)
  | statistics s => exact Triple.pure rfl
  | fbdev l => exact Triple.pure rfl

end Updates

/-- `frontend_free` gives back what a frontend does not lose. -/
theorem frontendFree_spec (front : Front) :
    Triple env front.own (frontendFree front) fun _ left => left=front.lost := by
  cases front with
  | sdl d =>
    have huse : (Kind.sdl,d.sdl)∈d.own := by simp [Sdl.own]
    exact Triple.touch_bind huse (Triple.release_bind rfl (Triple.release_bind rfl
      (Triple.release_bind rfl (Triple.release_bind rfl (Triple.release (add_zero _).symm)))))
  | vnc v =>
    have huse : (Kind.vnc,v.vnc)∈v.own := by simp [Vnc.own]
    have hscreen : v.own={(.rfbScreen,v.server)}+({(.vnc,v.vnc)}+v.lost) := by
      rw [Vnc.own]
      abel
    exact Triple.touch_bind huse (Triple.release_bind hscreen (Triple.release rfl))
  | statistics s =>
    have huse : (Kind.sfront,s.sfront)∈s.own := by simp [Statistics.own]
    have hown : s.own=(pointed .apiThread s.listenThread : Multiset Resource)+
        ((pointed .descriptor s.socket : Multiset Resource)+
          ((pointed .addrList s.addrList : Multiset Resource)+{(.sfront,s.sfront)})) := by
      rw [Statistics.own,coe_pointed,coe_pointed,coe_pointed]
      abel
    exact Triple.touch_bind huse (Triple.releaseAll_bind hown (Triple.releaseAll_bind rfl
      (Triple.releaseAll_bind rfl (Triple.release (add_zero _).symm))))
  | fbdev l =>
    have huse : (Kind.linuxfb,l.linuxfb)∈l.own := by simp [Linuxfb.own]
    have hown : l.own=(pointed .fbdev l.fbdev : Multiset Resource)+
        ((pointed .descriptor (l.fd.filter (0<·)) : Multiset Resource)+
          ({(.linuxfb,l.linuxfb)}+l.lost)) := by
      rw [Linuxfb.own,coe_pointed,coe_pointed]
      abel
    exact Triple.touch_bind huse (Triple.releaseAll_bind hown (Triple.releaseAll_bind rfl
      (Triple.release rfl)))

end Specs

end Shoreline.FrontendResources
