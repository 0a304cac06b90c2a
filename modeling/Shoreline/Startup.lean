import Shoreline.FrontendResources

/-!
# The run of the server from its start to its end

`main`, as what it takes and releases: the options, the frontends from the last
one to the first, the network, the rounds of the screen loop, and the labels
that every failure on the way jumps to. Outside of the failures that are named,
of `workqueue_init` and of the threads of the network, every way through it
releases everything once and leaves behind exactly what some pointer was made to
forget.
-/

namespace Shoreline.Startup

open Ownership Resources FrontendResources FrontendOptions FrontendTables

/-- An option of the command line with its argument. -/
inductive Opt where
  /-- `-p` and `-b`. -/
  | address
  /-- `-w`. -/
  | width (optarg : List UInt8)
  /-- `-h`. -/
  | height (optarg : List UInt8)
  /-- `-r`. -/
  | rate (optarg : List UInt8)
  /-- `-s`. -/
  | ringSize (optarg : List UInt8)
  /-- `-l`. -/
  | listenThreads (optarg : List UInt8)
  /-- `-f`. -/
  | frontend (optarg : List UInt8)
  /-- `-t`. -/
  | fontfile
  /-- `-d`. -/
  | description
  /-- `-?` and what `getopt` does not know. -/
  | usage

/-- What `main` keeps track of. -/
structure Locals where
  listenThreads : Int32
  /-- The first `frontend_cnt` entries of `frontend_names`, the last one first,
  with their texts. -/
  frontendNames : List (ℕ×List UInt8)
  txtrndr : Option Textrender
  /-- What `txtrndr` pointed to before. -/
  earlierTxtrndr : List Textrender
  /-- `description`, where it is not `default_description`. -/
  description : Option ℕ
  /-- The copies that `description` pointed to before. -/
  earlierDescription : List ℕ
  queues : Workqueues
  fronts : List Front

/-- `MAX_FRONTENDS`. -/
def maxFrontends : ℕ := 16

/-- The locals with their defaults. -/
def Locals.initial : Locals := ⟨10,[],none,[],none,[],⟨0,none,[]⟩,[]⟩

/-- An option with a number that is to be at least a bound. -/
def bounded (bound : Int32) (optarg : List UInt8) (s : Locals) : ℤ×Locals :=
  if atoi optarg < bound then (-EINVAL,s) else (0,s)

/-- An option of the command line; an error leads to the label `fail`. -/
def parseOption (s : Locals) : Opt → Run (ℤ×Locals)
  | .address => return (0,s)
  | .width optarg => return bounded 1 optarg s
  | .height optarg => return bounded 1 optarg s
  | .rate optarg => return bounded 1 optarg s
  | .ringSize optarg => return bounded 2 optarg s
  | .listenThreads optarg => return bounded 1 optarg {s with listenThreads := atoi optarg}
  | .frontend optarg => do
    if s.frontendNames.length≥maxFrontends then return (-EINVAL,s)
    match ← allocate .frontendName with
    | none => return (-ENOMEM,s)
    | some name => return (0,{s with frontendNames := (name,optarg)::s.frontendNames})
  | .fontfile => do
    match ← textrenderAlloc with
    | .error err => return (err,s)
    | .ok txtrndr =>
      return (0,{s with
        txtrndr := some txtrndr, earlierTxtrndr := s.txtrndr.toList++s.earlierTxtrndr})
  | .description => do
    let earlierDescription := s.description.toList++s.earlierDescription
    match ← allocate .description with
    | none => return (-ENOMEM,{s with description := none, earlierDescription})
    | some description => return (0,{s with description := some description, earlierDescription})
  | .usage => return (-EINVAL,s)

/-- The options of the command line, up to the first error. -/
def parseOptions : List Opt → Locals → Run (ℤ×Locals)
  | [],s => return (0,s)
  | opt::opts,s => do
    let (err,s) ← parseOption s opt
    if err≠0 then return (err,s)
    parseOptions opts s

/-- A renderer is freed, if there is one. -/
def freeTxtrndr : Option Textrender → Run Unit
  | none => return ()
  | some txtrndr => textrenderFree txtrndr

/-- The label `fail`. -/
def fail (err : ℤ) (s : Locals) : Run (ℤ×Locals) := do
  releaseAll (s.frontendNames.map fun name => (.frontendName,name.1))
  freeTxtrndr s.txtrndr
  releaseAll (pointed .description s.description)
  workqueueDeinit s.queues
  return (err,s)

/-- The loop behind the label `fail_fronts`. -/
def freeFronts : List Front → Run Unit
  | [] => return ()
  | front::fronts => do
    frontendFree front
    freeFronts fronts

/-- The label `fail_fronts`. -/
def failFronts (fb : FbBlocks) (err : ℤ) (s : Locals) : Run (ℤ×Locals) := do
  freeFronts s.fronts
  fbFree fb
  fail err s

/-- The label `fail_net`. -/
def failNet (fb : FbBlocks) (n : NetBlocks) (err : ℤ) (s : Locals) : Run (ℤ×Locals) := do
  netFree n
  failFronts fb err s

/-- The label `fail_addrinfo`. -/
def failAddrinfo (fb : FbBlocks) (n : NetBlocks) (addrList : ℕ) (err : ℤ) (s : Locals) :
    Run (ℤ×Locals) := do
  release (.addrList,addrList)
  failNet fb n err s

/-- The name and the options that `frontend_spec_extract_name` finds. -/
def extractName (spec : List UInt8) : List UInt8×Option (List UInt8) :=
  match spec.dropWhile (·≠comma) with
  | [] => (spec,none)
  | _::options => (spec.takeWhile (·≠comma),if options=[] then none else some options)

/-- A frontend is configured, where it has options. -/
def configure (front : Front) : Option (List UInt8) → Run (ℤ×Front)
  | none => return (0,front)
  | some options => frontendConfigure front options

/-- A round of the frontend loop of `main`: the frontend that is put into the list, if
there is one. -/
def startFrontend (frontdef : FrontendDef) (options : Option (List UInt8)) :
    Run (ℤ×Option Front) := do
  match ← frontendAlloc frontdef with
  | .error err => return (err,none)
  | .ok front =>
    let configured ← configure front options
    if configured.1≠0 then return (configured.1,some configured.2)
    let started ← frontendStart configured.2
    return (started.1,some started.2)

/-- A second SDL frontend is not followed: `SDL_Quit` of one takes the window of the
other. -/
def alone (frontdef : FrontendDef) (fronts : List Front) : Run Unit :=
  if frontdef=.sdl ∧ fronts.any (·.frontdef=.sdl) then fault else return ()

/-- The frontend loop of `main`, over the names from the last one to the first.
An error leads to `fail_fronts_free_name`. -/
def startFrontends : List (ℕ×List UInt8) → Locals → Run (Except ℤ Unit×Locals)
  | [],s => return (.ok (),{s with frontendNames := []})
  | name::names,s => do
    touch (.frontendName,name.1)
    let spec := extractName name.2
    match frontendGetDef spec.1 with
    | none => return (.error 0,{s with frontendNames := name::names})
    | some frontdef =>
      alone frontdef s.fronts
      let out ← startFrontend frontdef spec.2
      let fronts := s.fronts++out.2.toList
      if out.1≠0 then return (.error out.1,{s with frontendNames := name::names, fronts})
      release (.frontendName,name.1)
      startFrontends names {s with fronts}

/-- The framebuffers of the list. A connection thread without memory for one ends with
`fb_lock` locked and stays in the list of its listening thread. -/
structure Arrived where
  fbs : List FbBlocks
  stuck : Bool

/-- Connection threads add so many framebuffers, up to one without memory. -/
def addFbs : ℕ → List FbBlocks → Run Arrived
  | 0,fbs => return ⟨fbs,false⟩
  | n+1,fbs => do
    match ← fbAllocFrom .threadMemory with
    | .error _ => return ⟨fbs,true⟩
    | .ok fb => addFbs n (fbs++[fb])

/-- What connection threads have added to the list. Behind a lock that stays locked they
wait. -/
def arrivals (a : Arrived) : Run Arrived := do
  let n ← call .arrivals
  if a.stuck then
    return a
  else
    addFbs n.toNat a.fbs

/-- The framebuffers of the list are merged. -/
def coalesce (fb : FbBlocks) : List FbBlocks → Run Unit
  | [] => return ()
  | other::fbs => do
    fbUse fb
    fbUse other
    coalesce fb fbs

/-- The texts over the picture, drawn by the renderer. -/
def drawOverlays (fb : FbBlocks) (s : Locals) : Run Unit :=
  match s.txtrndr with
  | none => return ()
  | some txtrndr => do
    touchAll [(.txtrndr,txtrndr.txtrndr),(.ftface,txtrndr.ftface)]
    touchAll (pointed .description s.description)
    fbUse fb

/-- Without a renderer the frontends draw the texts. -/
def drawStrings (s : Locals) (front : Front) : Run Unit :=
  match s.txtrndr with
  | none => frontendDrawString s.description front
  | some _ => return ()

/-- The loop over the frontends in a round, up to the first error. -/
def updateFronts (fb : FbBlocks) (s : Locals) : List Front → Run ℤ
  | [] => return 0
  | front::fronts => do
    drawStrings s front
    let err ← frontendUpdate fb front
    if err≠0 then return err
    updateFronts fb s fronts

/-- The screen loop, for so many rounds at most: it ends before when a frontend
cannot be updated. `statistics_update` reads the net. -/
def screenLoop (fb : FbBlocks) (n : NetBlocks) (s : Locals) :
    ℕ → Arrived → Run (ℤ×Arrived)
  | 0,a => return (0,a)
  | rounds+1,a => do
    let a ← arrivals a
    coalesce fb a.fbs
    touchAll ((.net,n.net)::pointed .threads n.threads)
    drawOverlays fb s
    let err ← updateFronts fb s s.fronts
    if err≠0 then return (err,a)
    screenLoop fb n s rounds a

/-- `net_shutdown`, which waits for ever where a connection thread stays in its list. -/
def shutdownNet (stuck : Bool) (n : NetBlocks) : Run NetBlocks :=
  if stuck then fault else netShutdown n

/-- `main` with the network, from `getaddrinfo` on. -/
def serve (rounds : ℕ) (fb : FbBlocks) (n : NetBlocks) (s : Locals) : Run (ℤ×Locals) := do
  match ← attempt .getaddrinfo .addrList with
  | .error err => failNet fb n (-err) s
  | .ok addrList =>
    let listening ← netListen n s.listenThreads.toNatClampNeg
    if listening.1≠0 then
      failAddrinfo fb listening.2 addrList listening.1 s
    else
      let shown ← screenLoop fb listening.2 s rounds ⟨[],false⟩
      let a ← arrivals shown.2
      let n ← shutdownNet a.stuck listening.2
      fbFreeAll a.fbs
      failAddrinfo fb n addrList shown.1 s

/-- `handle_signals` behind the frontend loop: no frontend handles signals. -/
def handleSignals (s : Locals) : Bool := s.fronts.all fun front => !front.frontdef.handlesSignals

/-- `main` with its frontends, from `net_alloc` on. -/
def listenAndServe (rounds : ℕ) (fb : FbBlocks) (s : Locals) : Run (ℤ×Locals) := do
  match ← netAlloc with
  | .error err => failFronts fb err s
  | .ok n =>
    if handleSignals s then
      let bound ← call .signal
      if bound≠0 then
        failNet fb n (-EINVAL) s
      else
        let ignored ← call .signal
        if ignored≠0 then failNet fb n (-EINVAL) s else serve rounds fb n s
    else serve rounds fb n s

/-- `main`, with so many rounds until a signal ends it. -/
def main (options : List Opt) (rounds : ℕ) : Run (ℤ×Locals) := do
  let parsed ← parseOptions options Locals.initial
  if parsed.1≠0 then
    fail parsed.1 parsed.2
  else
    let started ← workqueueInit
    let s := {parsed.2 with queues := started.2}
    if started.1≠0 then
      fail started.1 s
    else
      match ← fbAlloc with
      | .error err => fail err s
      | .ok fb =>
        let fronts ← startFrontends s.frontendNames s
        match fronts.1 with
        | .error err => failFronts fb err fronts.2
        | .ok _ => listenAndServe rounds fb fronts.2

/-- What is held of frontends. -/
def ownFronts (fronts : List Front) : Multiset Resource := (fronts.map Front.own).sum

/-- What frontends leave behind. -/
def lostFronts (fronts : List Front) : Multiset Resource := (fronts.map Front.lost).sum

/-- What is held of renderers. -/
def ownTxtrndrs (ts : List Textrender) : Multiset Resource := (ts.map Textrender.own).sum

/-- The copies of the arguments of `-f` that are held. -/
def Locals.names (s : Locals) : Multiset Resource :=
  addresses .frontendName (s.frontendNames.map Prod.fst)

/-- What the texts over the picture need. -/
def Locals.texts (s : Locals) : Multiset Resource :=
  ownTxtrndrs s.txtrndr.toList+addresses .description s.description.toList

/-- What the locals do not point to any more: all renderers and descriptions but the
last ones. -/
def Locals.forgotten (s : Locals) : Multiset Resource :=
  ownTxtrndrs s.earlierTxtrndr+addresses .description s.earlierDescription

/-- What a run leaves behind: what the locals have forgotten and what the frontends
lose. -/
def Locals.lost (s : Locals) : Multiset Resource := s.forgotten+lostFronts s.fronts

/-- The options of a specification reach a frontend that can take them. -/
def ValuedSpec (spec : List UInt8) : Prop :=
  (extractName spec).1=ascii "fbdev" → ∀ options, (extractName spec).2=some options →
    Valued ((pieces options).map decode)

/-- An argument of `-f` names the SDL frontend. -/
def namesSdl (spec : List UInt8) : Bool := (extractName spec).1=ascii "sdl"

/-- An option asks for an SDL frontend. -/
def Opt.asksSdl : Opt → Bool
  | .frontend spec => namesSdl spec
  | _ => false

/-- What the run does not survive stays away: the work queues and the listening
threads are created, and the latter can be joined; connection threads have memory for
framebuffers; the listening address has a name; devices have supported depths, and
options that crash without a value have one; no window is resized, and there is one
SDL frontend at most. -/
structure Unbroken (env : Surroundings Call) (options : List Opt) : Prop where
  queues : ∀ t, env (.memory .workqueues) t≠0
  workers : ∀ t, env (.createThread .workThread) t=0
  listeners : ∀ t, env (.createThread .listenThread) t=0
  joins : ∀ t, env .joinListening t=0
  nodes : ∀ kind t, env (.threadMemory kind) t≠0
  nameinfo : ∀ t, env .getnameinfo t=0
  depths : DepthsSupported env
  unresized : Unresized env
  valued : ∀ spec, Opt.frontend spec∈options → ValuedSpec spec
  oneSdl : options.countP Opt.asksSdl ≤ 1

section Specs

variable {env : Surroundings Call}

/-- `fail` gives back the names, the renderer, the description and the queues. -/
theorem fail_spec (err : ℤ) {s : Locals} (hqueues : s.queues.Running) :
    Triple env (s.names+s.texts+s.queues.own) (fail err s) fun out left =>
      out=(err,s) ∧ left=0 := by
  have htxtrndr : Triple env (ownTxtrndrs s.txtrndr.toList) (freeTxtrndr s.txtrndr)
      fun _ left => left=0 := by
    cases s.txtrndr with
    | none => exact Triple.pure rfl
    | some txtrndr =>
      have hown : ownTxtrndrs (some txtrndr).toList=txtrndr.own := List.sum_singleton
      rw [hown]
      exact textrenderFree_spec txtrndr
  have hnames : (s.frontendNames.map (fun name => (Kind.frontendName,name.1)) :
      Multiset Resource)=s.names := by
    rw [Locals.names,addresses,List.map_map]
    rfl
  have hown : s.names+s.texts+s.queues.own=
      (s.frontendNames.map (fun name => (Kind.frontendName,name.1)) : Multiset Resource)+
        (ownTxtrndrs s.txtrndr.toList+((pointed .description s.description : Multiset Resource)+
          s.queues.own)) := by
    rw [hnames,coe_pointed,Locals.texts]
    abel
  exact Triple.releaseAll_bind hown (htxtrndr.spend_bind rfl fun _ =>
    Triple.releaseAll_bind rfl ((workqueueDeinit_spec hqueues).spend_bind (add_zero _).symm
      fun _ => Triple.pure ⟨rfl,rfl⟩))

/-- The frontends are freed but for what they lose. -/
theorem freeFronts_spec (fronts : List Front) :
    Triple env (ownFronts fronts) (freeFronts fronts) fun _ left => left=lostFronts fronts := by
  induction fronts with
  | nil => exact Triple.pure rfl
  | cons front fronts ih =>
    refine (frontendFree_spec front).bind (List.sum_cons ..) fun _ left hleft => ?_
    have hrest : left+(fronts.map Front.own).sum=ownFronts fronts+front.lost := by
      rw [hleft]
      exact add_comm _ _
    rw [hrest]
    refine (ih.frame front.lost).mono fun _ left h => ?_
    obtain ⟨own,rfl,rfl⟩ := h
    rw [lostFronts,lostFronts,List.map_cons,List.sum_cons]
    exact add_comm _ _

/-- What is held in front of the label `fail_fronts`. -/
def Locals.held (s : Locals) : Multiset Resource :=
  s.names+s.texts+s.queues.own+ownFronts s.fronts

/-- `fail_fronts` leaves what the frontends lose. -/
theorem failFronts_spec (fb : FbBlocks) (err : ℤ) {s : Locals} (hqueues : s.queues.Running) :
    Triple env (fb.own+s.held) (failFronts fb err s) fun out left =>
      out=(err,s) ∧ left=lostFronts s.fronts := by
  have hown : fb.own+s.held=ownFronts s.fronts+(fb.own+(s.names+s.texts+s.queues.own)) := by
    rw [Locals.held]
    abel
  refine (freeFronts_spec s.fronts).bind hown fun _ left hleft => ?_
  have hfb : left+(fb.own+(s.names+s.texts+s.queues.own))=
      fb.own+((s.names+s.texts+s.queues.own)+lostFronts s.fronts) := by
    rw [hleft]
    abel
  refine (fbFree_spec fb).spend_bind hfb fun _ =>
    ((fail_spec err hqueues).frame _).mono fun out left h => ?_
  obtain ⟨own,rfl,rfl,rfl⟩ := h
  exact ⟨rfl,zero_add _⟩

/-- `fail_net` gives the net back besides. -/
theorem failNet_spec (fb : FbBlocks) {n : NetBlocks} (hstate : n.state=.exit ∨ n.state=.idle)
    (err : ℤ) {s : Locals} (hqueues : s.queues.Running) :
    Triple env (n.idle+(fb.own+s.held)) (failNet fb n err s) fun out left =>
      out=(err,s) ∧ left=lostFronts s.fronts :=
  (netFree_spec hstate).spend_bind rfl fun _ => failFronts_spec fb err hqueues

/-- `fail_addrinfo` gives the addresses back besides. -/
theorem failAddrinfo_spec (fb : FbBlocks) {n : NetBlocks}
    (hstate : n.state=.exit ∨ n.state=.idle) (addrList : ℕ) (err : ℤ) {s : Locals}
    (hqueues : s.queues.Running) :
    Triple env ({(.addrList,addrList)}+(n.idle+(fb.own+s.held)))
      (failAddrinfo fb n addrList err s) fun out left =>
        out=(err,s) ∧ left=lostFronts s.fronts :=
  Triple.release_bind rfl (failNet_spec fb hstate err hqueues)

/-- What parsing options keeps: nothing runs yet, the specifications are as wanted, and
there is one SDL frontend at most, with those that the other options ask for. -/
structure Parsing (wanted : List UInt8 → Prop) (opts : List Opt) (s : Locals) : Prop where
  queues : s.queues=⟨0,none,[]⟩
  fronts : s.fronts=[]
  specs : ∀ name∈s.frontendNames,wanted name.2
  oneSdl : s.frontendNames.countP (namesSdl ·.2)+opts.countP Opt.asksSdl ≤ 1

/-- What is held while options are parsed. -/
def Locals.parsed (s : Locals) : Multiset Resource := s.names+s.texts+s.forgotten

/-- What parsing an option leaves. -/
def Parsed (wanted : List UInt8 → Prop) (opts : List Opt) (out : ℤ×Locals)
    (left : Multiset Resource) : Prop :=
  left=out.2.parsed ∧ Parsing wanted opts out.2 ∧ (out.1=0 → 0 < out.2.listenThreads)

/-- The renderers are those of the pointer and the earlier ones. -/
theorem ownTxtrndrs_append (ts us : List Textrender) :
    ownTxtrndrs (ts++us)=ownTxtrndrs ts+ownTxtrndrs us := by
  rw [ownTxtrndrs,List.map_append,List.sum_append]
  rfl

/-- An option keeps what is held with the locals. -/
theorem parseOption_spec {wanted : List UInt8 → Prop} {opt : Opt} {opts : List Opt} {s : Locals}
    (hwith : Parsing wanted (opt::opts) s) (hthreads : 0 < s.listenThreads)
    (hopt : ∀ spec, opt=.frontend spec → wanted spec) :
    Triple env s.parsed (parseOption s opt) (Parsed wanted opts) := by
  have hcount := hwith.oneSdl
  rw [List.countP_cons] at hcount
  have hone : s.frontendNames.countP (namesSdl ·.2)+opts.countP Opt.asksSdl ≤ 1 :=
    le_trans (Nat.add_le_add_left (Nat.le_add_right _ _) _) hcount
  have hs : Parsing wanted opts s := ⟨hwith.queues,hwith.fronts,hwith.specs,hone⟩
  have hbounded : ∀ bound optarg,Parsed wanted opts (bounded bound optarg s) s.parsed := by
    intro bound optarg
    rw [bounded]
    split
    · exact ⟨rfl,hs,fun _ => hthreads⟩
    · exact ⟨rfl,hs,fun _ => hthreads⟩
  cases opt with
  | address => exact Triple.pure ⟨rfl,hs,fun _ => hthreads⟩
  | width optarg => exact Triple.pure (hbounded 1 optarg)
  | height optarg => exact Triple.pure (hbounded 1 optarg)
  | rate optarg => exact Triple.pure (hbounded 1 optarg)
  | ringSize optarg => exact Triple.pure (hbounded 2 optarg)
  | listenThreads optarg =>
    refine Triple.pure ?_
    rw [bounded]
    split
    · exact ⟨rfl,⟨hs.queues,hs.fronts,hs.specs,hone⟩,fun h : -EINVAL=0 => absurd h (by decide)⟩
    · next hle =>
        have hle : ¬(atoi optarg).toInt < 1 := fun hlt => hle (Int32.lt_iff_toInt_lt.mpr hlt)
        exact ⟨rfl,⟨hs.queues,hs.fronts,hs.specs,hone⟩,fun _ =>
          Int32.lt_iff_toInt_lt.mpr (Int.not_lt.mp hle)⟩
  | frontend optarg =>
    rw [parseOption]
    split
    · exact Triple.pure ⟨rfl,hs,fun _ => hthreads⟩
    · refine (allocate_spec .frontendName).gain_bind fun p left hleft => ?_
      subst hleft
      cases p with
      | none => exact Triple.pure ⟨zero_add _,hs,fun _ => hthreads⟩
      | some name =>
        refine Triple.pure ⟨?_,⟨hs.queues,hs.fronts,?_,?_⟩,fun _ => hthreads⟩
        · rw [addresses_some]
          simp only [Locals.parsed,Locals.names,List.map_cons,addresses_cons,Locals.texts,
            Locals.forgotten]
          abel
        · exact List.forall_mem_cons.mpr ⟨hopt optarg rfl,hs.specs⟩
        · rw [List.countP_cons,add_right_comm,add_assoc]
          exact hcount
  | fontfile =>
    refine textrenderAlloc_spec.gain_bind fun out left hleft => ?_
    cases out with
    | error err =>
      obtain ⟨rfl,-⟩ := hleft
      exact Triple.pure ⟨zero_add _,hs,fun _ => hthreads⟩
    | ok txtrndr =>
      refine Triple.pure ⟨?_,⟨hs.queues,hs.fronts,hs.specs,hone⟩,fun _ => hthreads⟩
      have hown : ownTxtrndrs (some txtrndr).toList=txtrndr.own := List.sum_singleton
      simp only [hleft,Locals.parsed,Locals.names,Locals.texts,Locals.forgotten,
        ownTxtrndrs_append,hown]
      abel
  | description =>
    refine (allocate_spec .description).gain_bind fun p left hleft => ?_
    subst hleft
    cases p with
    | none =>
      refine Triple.pure ⟨?_,⟨hs.queues,hs.fronts,hs.specs,hone⟩,fun _ => hthreads⟩
      simp only [Locals.parsed,Locals.names,Locals.texts,Locals.forgotten,addresses_append,
        addresses_none]
      abel
    | some description =>
      refine Triple.pure ⟨?_,⟨hs.queues,hs.fronts,hs.specs,hone⟩,fun _ => hthreads⟩
      simp only [Locals.parsed,Locals.names,Locals.texts,Locals.forgotten,addresses_append]
      abel
  | usage => exact Triple.pure ⟨rfl,hs,fun _ => hthreads⟩

/-- The command line keeps what is held with the locals. -/
theorem parseOptions_spec {wanted : List UInt8 → Prop} {opts : List Opt}
    (hopts : ∀ spec, Opt.frontend spec∈opts → wanted spec) {s : Locals}
    (hs : Parsing wanted opts s) (hthreads : 0 < s.listenThreads) :
    Triple env s.parsed (parseOptions opts s) (Parsed wanted []) := by
  induction opts generalizing s with
  | nil => exact Triple.pure ⟨rfl,hs,fun _ => hthreads⟩
  | cons opt opts ih =>
    have hopt : ∀ spec, opt=.frontend spec → wanted spec := fun spec h =>
      hopts spec (h▸List.mem_cons_self)
    refine (parseOption_spec hs hthreads hopt).bind (add_zero _).symm fun out left h => ?_
    obtain ⟨err,next⟩ := out
    obtain ⟨rfl,hnext,hpositive⟩ := h
    rw [add_zero]
    change Triple env next.parsed (if err≠0 then pure (err,next) else parseOptions opts next)
      (Parsed wanted [])
    split
    · have hnone : next.frontendNames.countP (namesSdl ·.2)+[].countP Opt.asksSdl ≤ 1 :=
        le_trans (Nat.le_add_right _ _) hnext.oneSdl
      exact Triple.pure ⟨rfl,⟨hnext.queues,hnext.fronts,hnext.specs,hnone⟩,hpositive⟩
    · next hzero =>
        exact ih (fun spec h => hopts spec (List.mem_cons_of_mem _ h)) hnext
          (hpositive (not_not.mp hzero))

/-- The held frontends with more at the end. -/
theorem ownFronts_append (fronts more : List Front) :
    ownFronts (fronts++more)=ownFronts fronts+ownFronts more := by
  rw [ownFronts,List.map_append,List.sum_append]
  rfl

/-- What `frontend_get_def` finds is in the table under its name. -/
theorem frontendGetDef_mem {id : List UInt8} {frontdef : FrontendDef}
    (h : frontendGetDef id=some frontdef) : (id,frontdef)∈frontends := by
  obtain ⟨entry,hfind,rfl⟩ := Option.map_eq_some_iff.mp h
  have hid : entry.1=id := by simpa using List.find?_some hfind
  rw [←hid]
  exact List.mem_of_find?_eq_some hfind

/-- Only an fbdev frontend comes from the definition of that name. -/
theorem frontendGetDef_fbdev {id : List UInt8} (h : frontendGetDef id=some .fbdev) :
    id=ascii "fbdev" := by
  simpa [frontends] using frontendGetDef_mem h

/-- Only an SDL frontend comes from the definition of that name. -/
theorem frontendGetDef_sdl {id : List UInt8} (h : frontendGetDef id=some .sdl) :
    id=ascii "sdl" := by
  simpa [frontends] using frontendGetDef_mem h

/-- What the frontend loop keeps: the names still to free and the frontends are held,
and the other locals are as before. -/
structure Starting (s : Locals) (out : Except ℤ Unit×Locals) (left : Multiset Resource) :
    Prop where
  texts : out.2.texts=s.texts
  forgotten : out.2.forgotten=s.forgotten
  queues : out.2.queues=s.queues
  listenThreads : out.2.listenThreads=s.listenThreads
  held : left=out.2.names+ownFronts out.2.fronts
  started : out.1=.ok () → ∀ front∈out.2.fronts,front.Started

/-- A frontend that was put into the list is held; without an error it is there and can
be updated. -/
theorem startFrontend_spec (hdepths : DepthsSupported env) {frontdef : FrontendDef}
    {options : Option (List UInt8)} (hvalued : frontdef=.fbdev → ∀ text, options=some text →
      Valued ((pieces text).map decode)) :
    Triple env 0 (startFrontend frontdef options) fun out left =>
      left=ownFronts out.2.toList ∧ (∀ front∈out.2,front.frontdef=frontdef) ∧
        (out.1=0 → ∀ front∈out.2,front.Started) := by
  refine (frontendAlloc_spec frontdef).gain_bind fun out left hleft => ?_
  cases out with
  | error err =>
    obtain ⟨rfl,-⟩ := hleft
    exact Triple.pure ⟨rfl,nofun,fun _ => nofun⟩
  | ok front =>
    obtain ⟨rfl,hfresh⟩ := hleft
    have hconfigure : Triple env front.own (configure front options)
        (Keeps Front.own (FreshOf frontdef)) := by
      cases options with
      | none => exact Triple.pure ⟨rfl,hfresh⟩
      | some text =>
        exact frontendConfigure_spec hfresh fun hfbdev => hvalued hfbdev text rfl
    have hone : ∀ front : Front, front.own=ownFronts (some front).toList := fun front =>
      List.sum_singleton.symm
    refine hconfigure.bind rfl fun out left hleft => ?_
    obtain ⟨rfl,hfresh,hdef⟩ := hleft
    rw [add_zero]
    split
    · next herr =>
        refine Triple.pure ⟨hone out.2,fun front hfront => ?_,fun h => absurd h herr⟩
        cases hfront
        exact hdef
    · refine (frontendStart_spec hdepths hfresh).bind (add_zero _).symm fun out left hleft => ?_
      obtain ⟨rfl,hsame,hstarted⟩ := hleft
      rw [add_zero]
      refine Triple.pure ⟨hone out.2,fun front hfront => ?_,fun h front hfront => ?_⟩
      · cases hfront
        exact hsame.trans hdef
      · cases hfront
        exact hstarted h

/-- A frontend that no other one is in the way of. -/
theorem alone_bind {β : Type} {before : Multiset Resource} {frontdef : FrontendDef}
    {fronts : List Front} {f : Unit → Run β} {final : β → Multiset Resource → Prop}
    (h : frontdef=.sdl → ∀ front∈fronts,front.frontdef≠.sdl)
    (hnext : Triple env before (f ()) final) :
    Triple env before (alone frontdef fronts >>= f) final := by
  have hfree : ¬(frontdef=.sdl ∧ fronts.any (·.frontdef=.sdl)) := by
    rintro ⟨hsdl,hany⟩
    obtain ⟨front,hmem,hfront⟩ := List.any_eq_true.mp hany
    exact h hsdl front hmem (of_decide_eq_true hfront)
  rw [alone,if_neg hfree]
  exact hnext

/-- The SDL frontends of a list. -/
def sdlFronts (fronts : List Front) : ℕ := fronts.countP (·.frontdef=.sdl)

/-- A new frontend counts only if its name is that of SDL. -/
theorem sdlFronts_append {frontdef : FrontendDef} {spec : List UInt8} {front : Option Front}
    (hdef : frontendGetDef (extractName spec).1=some frontdef)
    (hfront : ∀ f∈front,f.frontdef=frontdef) (fronts : List Front) :
    sdlFronts (fronts++front.toList) ≤ sdlFronts fronts+if namesSdl spec then 1 else 0 := by
  rw [sdlFronts,List.countP_append]
  refine Nat.add_le_add_left ?_ _
  cases front with
  | none => exact Nat.zero_le _
  | some f =>
    rw [Option.toList_some,List.countP_singleton]
    split
    · next hsdl =>
        have hsdl : frontdef=.sdl := (hfront f rfl).symm.trans (of_decide_eq_true hsdl)
        have hname : namesSdl spec=true := decide_eq_true (frontendGetDef_sdl (hsdl▸hdef))
        rw [if_pos hname]
    · exact Nat.zero_le _

/-- The frontend loop holds every frontend that is in the list, and frees the names of
those that were started. -/
theorem startFrontends_spec (hdepths : DepthsSupported env) {names : List (ℕ×List UInt8)}
    (hnames : ∀ name∈names,ValuedSpec name.2) {s : Locals}
    (hsdl : sdlFronts s.fronts+names.countP (namesSdl ·.2) ≤ 1)
    (hstarted : ∀ front∈s.fronts,front.Started) :
    Triple env (addresses .frontendName (names.map Prod.fst)+ownFronts s.fronts)
      (startFrontends names s) (Starting s) := by
  induction names generalizing s with
  | nil => exact Triple.pure ⟨rfl,rfl,rfl,rfl,rfl,fun _ => hstarted⟩
  | cons name names ih =>
    have huse : (Kind.frontendName,name.1)∈
        addresses .frontendName ((name::names).map Prod.fst)+ownFronts s.fronts := by
      simp [addresses_cons]
    refine Triple.touch_bind huse ?_
    dsimp only
    split
    · exact Triple.pure ⟨rfl,rfl,rfl,rfl,rfl,nofun⟩
    · next frontdef hdef =>
        have hvalued : frontdef=.fbdev → ∀ text, (extractName name.2).2=some text →
            Valued ((pieces text).map decode) := fun hfbdev =>
          hnames name List.mem_cons_self (frontendGetDef_fbdev (hfbdev▸hdef))
        rw [List.countP_cons] at hsdl
        have halone : frontdef=.sdl → ∀ front∈s.fronts,front.frontdef≠.sdl := by
          intro hone front hfront hsame
          have hname : namesSdl name.2=true := decide_eq_true (frontendGetDef_sdl (hone▸hdef))
          have hpositive : 0 < sdlFronts s.fronts :=
            List.countP_pos_iff.mpr ⟨front,hfront,decide_eq_true hsame⟩
          rw [if_pos hname] at hsdl
          omega
        refine alone_bind halone
          ((startFrontend_spec hdepths hvalued).gain_bind fun out left hleft => ?_)
        obtain ⟨rfl,hkind,hupdate⟩ := hleft
        have hown : ownFronts out.2.toList+
            (addresses .frontendName ((name::names).map Prod.fst)+ownFronts s.fronts)=
            addresses .frontendName ((name::names).map Prod.fst)+
              ownFronts (s.fronts++out.2.toList) := by
          rw [ownFronts_append]
          abel
        rw [hown]
        split
        · exact Triple.pure ⟨rfl,rfl,rfl,rfl,rfl,nofun⟩
        · next hzero =>
            have hname : addresses .frontendName ((name::names).map Prod.fst)+
                ownFronts (s.fronts++out.2.toList)={(.frontendName,name.1)}+
                (addresses .frontendName (names.map Prod.fst)+
                  ownFronts (s.fronts++out.2.toList)) := by
              rw [List.map_cons,addresses_cons,add_assoc]
            have hall : ∀ front∈s.fronts++out.2.toList,front.Started := by
              intro front hfront
              rcases List.mem_append.mp hfront with hfront | hfront
              · exact hstarted front hfront
              · exact hupdate (not_not.mp hzero) front (Option.mem_toList.mp hfront)
            have hcount : sdlFronts (s.fronts++out.2.toList)+names.countP (namesSdl ·.2) ≤ 1 := by
              have happend := sdlFronts_append hdef hkind s.fronts
              omega
            exact Triple.release_bind hname
              ((ih (fun name h => hnames name (List.mem_cons_of_mem _ h)) hcount hall).mono
                fun _ _ h => ⟨h.texts,h.forgotten,h.queues,h.listenThreads,h.held,h.started⟩)

/-- What connection threads with enough memory leave. -/
def Unstuck (a : Arrived) (left : Multiset Resource) : Prop := left=ownAll a.fbs ∧ a.stuck=false

/-- New framebuffers are held with those of the list. -/
theorem addFbs_spec (hnodes : ∀ kind t, env (.threadMemory kind) t≠0) (n : ℕ)
    (fbs : List FbBlocks) : Triple env (ownAll fbs) (addFbs n fbs) Unstuck := by
  induction n generalizing fbs with
  | zero => exact Triple.pure ⟨rfl,rfl⟩
  | succ n ih =>
    refine (fbAllocFrom_succeeds hnodes).gain_bind fun out left hleft => ?_
    obtain ⟨fb,rfl,rfl⟩ := hleft
    have hown : fb.own+ownAll fbs=ownAll (fbs++[fb]) := by
      rw [ownAll,ownAll,List.map_append,List.sum_append,List.map_singleton,List.sum_singleton]
      exact add_comm _ _
    rw [hown]
    exact ih (fbs++[fb])

/-- The list of framebuffers is held when connection threads have added to it. -/
theorem arrivals_spec (hnodes : ∀ kind t, env (.threadMemory kind) t≠0) {a : Arrived}
    (ha : a.stuck=false) : Triple env (ownAll a.fbs) (arrivals a) Unstuck := by
  refine Triple.call_bind fun t => ?_
  rw [ha]
  exact addFbs_spec hnodes _ a.fbs

/-- What a framebuffer of a list holds is held. -/
theorem own_le_ownAll {b : FbBlocks} {fbs : List FbBlocks} (h : b∈fbs) : b.own ≤ ownAll fbs := by
  obtain ⟨before,behind,rfl⟩ := List.append_of_mem h
  rw [ownAll,List.map_append,List.sum_append,List.map_cons,List.sum_cons,add_left_comm]
  exact Multiset.le_add_right _ _

/-- Merging uses the framebuffers. -/
theorem coalesce_spec {fb : FbBlocks} {fbs : List FbBlocks} {held : Multiset Resource}
    (hfb : fb.own ≤ held) (hfbs : ∀ b∈fbs,b.own ≤ held) :
    Triple env held (coalesce fb fbs) fun _ left => left=held := by
  induction fbs with
  | nil => exact Triple.pure rfl
  | cons b fbs ih =>
    exact fbUse_bind hfb (fbUse_bind (hfbs b List.mem_cons_self)
      (ih fun b h => hfbs b (List.mem_cons_of_mem _ h)))

/-- The held frontends, one of them apart. -/
theorem ownFronts_split {front : Front} {fronts : List Front} (h : front∈fronts) :
    ∃ rest, ownFronts fronts=front.own+rest := by
  obtain ⟨before,behind,rfl⟩ := List.append_of_mem h
  refine ⟨ownFronts before+ownFronts behind,?_⟩
  rw [ownFronts_append,ownFronts,ownFronts,List.map_cons,List.sum_cons]
  exact add_left_comm _ _ _

/-- What is held while a round of the screen loop runs, besides the framebuffers of the
list. -/
def serving (fb : FbBlocks) (n : NetBlocks) (s : Locals) : Multiset Resource :=
  n.own+(fb.own+s.held)

section Round

variable {fb : FbBlocks} {n : NetBlocks} {s : Locals} {rest : Multiset Resource}

/-- The framebuffer is held. -/
theorem fb_le_serving : fb.own ≤ serving fb n s+rest := by
  rw [serving,add_left_comm n.own,add_assoc]
  exact Multiset.le_add_right _ _

/-- The renderer and the description are held. -/
theorem texts_le_serving : s.texts ≤ serving fb n s+rest := by
  have hown : serving fb n s+rest=
      s.texts+(n.own+fb.own+s.names+s.queues.own+ownFronts s.fronts+rest) := by
    rw [serving,Locals.held]
    abel
  rw [hown]
  exact Multiset.le_add_right _ _

/-- The description is held. -/
theorem description_held : ∀ r∈pointed .description s.description,r∈serving fb n s+rest := by
  intro r hr
  exact Multiset.mem_of_le texts_le_serving (Multiset.mem_add.mpr (Or.inr hr))

/-- The overlays use the renderer, the description and the framebuffer. -/
theorem drawOverlays_spec : Triple env (serving fb n s+rest) (drawOverlays fb s)
    fun _ left => left=serving fb n s+rest := by
  rw [drawOverlays]
  split
  · exact Triple.pure rfl
  · next txtrndr hsome =>
      have hrenderer : ∀ r∈[(Kind.txtrndr,txtrndr.txtrndr),(.ftface,txtrndr.ftface)],
          r∈serving fb n s+rest := by
        intro r hr
        have hmem : r∈s.texts := by
          have hone : ownTxtrndrs (some txtrndr).toList=txtrndr.own := List.sum_singleton
          rw [Locals.texts,hsome,hone]
          simp only [List.mem_cons,List.not_mem_nil,or_false] at hr
          rcases hr with rfl | rfl <;> simp [Textrender.own]
        exact Multiset.mem_of_le texts_le_serving hmem
      have huse : Triple env (serving fb n s+rest) (fbUse fb)
          fun _ left => left=serving fb n s+rest :=
        Triple.touchAll fun r hr => Multiset.mem_of_le fb_le_serving (by
          simpa [FbBlocks.own] using hr)
      exact Triple.touchAll_bind hrenderer (Triple.touchAll_bind description_held huse)

/-- The round over the frontends uses what they hold. -/
theorem updateFronts_spec (hsize : Unresized env) {fronts : List Front}
    (hfronts : ∀ front∈fronts,front∈s.fronts) (hstarted : ∀ front∈s.fronts,front.Started) :
    Triple env (serving fb n s+rest) (updateFronts fb s fronts)
      fun _ left => left=serving fb n s+rest := by
  induction fronts with
  | nil => exact Triple.pure rfl
  | cons front fronts ih =>
    obtain ⟨others,hothers⟩ := ownFronts_split (hfronts front List.mem_cons_self)
    have hdraw : Triple env (serving fb n s+rest) (drawStrings s front)
        fun _ left => left=serving fb n s+rest := by
      rw [drawStrings]
      split
      · have hown : serving fb n s+rest=front.own+addresses .description s.description.toList+
            (n.own+fb.own+s.names+ownTxtrndrs s.txtrndr.toList+s.queues.own+others+rest) := by
          rw [serving,Locals.held,Locals.texts,hothers]
          abel
        rw [hown]
        refine ((frontendDrawString_spec front s.description).frame _).mono fun _ left h => ?_
        obtain ⟨own,rfl,rfl⟩ := h
        rfl
      · exact Triple.pure rfl
    have hown : serving fb n s+rest=front.own+fb.own+
        (n.own+s.names+s.texts+s.queues.own+others+rest) := by
      rw [serving,Locals.held,hothers]
      abel
    refine hdraw.bind (add_zero _).symm fun _ left hleft => ?_
    rw [hleft,add_zero]
    refine (frontendUpdate_spec hsize (hstarted front (hfronts front List.mem_cons_self))).bind hown
      fun err left hleft => ?_
    rw [hleft,←hown]
    split
    · exact Triple.pure rfl
    · exact ih fun front h => hfronts front (List.mem_cons_of_mem _ h)

/-- The screen loop keeps what is held, and the framebuffers of the list with it. -/
theorem screenLoop_spec {options : List Opt} (h : Unbroken env options)
    (hstarted : ∀ front∈s.fronts,front.Started) (rounds : ℕ) {a : Arrived}
    (ha : a.stuck=false) :
    Triple env (ownAll a.fbs+(serving fb n s+rest)) (screenLoop fb n s rounds a)
      fun out left => left=ownAll out.2.fbs+(serving fb n s+rest) ∧ out.2.stuck=false := by
  induction rounds generalizing a with
  | zero => exact Triple.pure ⟨rfl,ha⟩
  | succ rounds ih =>
    refine (arrivals_spec h.nodes ha).bind rfl fun a left hleft => ?_
    obtain ⟨rfl,ha⟩ := hleft
    have hfb : fb.own ≤ ownAll a.fbs+(serving fb n s+rest) :=
      le_trans fb_le_serving (Multiset.le_add_left _ _)
    have hfbs : ∀ b∈a.fbs,b.own ≤ ownAll a.fbs+(serving fb n s+rest) := fun b h =>
      le_trans (own_le_ownAll h) (Multiset.le_add_right _ _)
    have hnet : ∀ r∈(Kind.net,n.net)::pointed .threads n.threads,
        r∈ownAll a.fbs+(serving fb n s+rest) := by
      intro r hr
      have hidle : r∈n.idle := by
        rcases List.mem_cons.mp hr with rfl | hr
        · simp [NetBlocks.idle]
        · exact Multiset.mem_add.mpr (Or.inr hr)
      simp [serving,NetBlocks.own,hidle]
    have hrest : ownAll a.fbs+(serving fb n s+rest)=serving fb n s+(ownAll a.fbs+rest) :=
      add_left_comm _ _ _
    refine (coalesce_spec hfb hfbs).bind (add_zero _).symm fun _ left hleft => ?_
    rw [hleft,add_zero]
    refine Triple.touchAll_bind hnet ?_
    rw [hrest]
    refine drawOverlays_spec.bind (add_zero _).symm fun _ left hleft => ?_
    rw [hleft,add_zero]
    refine (updateFronts_spec h.unresized (fun _ h => h) hstarted).bind (add_zero _).symm
      fun err left hleft => ?_
    rw [hleft,add_zero,←hrest]
    split
    · exact Triple.pure ⟨rfl,ha⟩
    · exact ih ha

end Round

/-- Serving with an idle net ends with what the frontends lose. -/
theorem serve_spec {options : List Opt} (h : Unbroken env options) (rounds : ℕ) (fb : FbBlocks)
    {n : NetBlocks} (hidle : n.state=.idle) (hthreads : n.threads=none) {s : Locals}
    (hqueues : s.queues.Running) (hnum : 0 < s.listenThreads)
    (hstarted : ∀ front∈s.fronts,front.Started) :
    Triple env (n.idle+(fb.own+s.held)) (serve rounds fb n s) fun out left =>
      out.2=s ∧ left=lostFronts s.fronts := by
  refine (attempt_spec .getaddrinfo .addrList).gain_bind fun out left hleft => ?_
  cases out with
  | error err =>
    obtain ⟨rfl,-,-⟩ := hleft
    rw [zero_add]
    refine (failNet_spec fb (Or.inr hidle) (-err) hqueues).mono fun out left h => ?_
    exact ⟨congrArg Prod.snd h.1,h.2⟩
  | ok addrList =>
    subst hleft
    have hnum : s.listenThreads.toNatClampNeg≠0 := by
      have hpositive : 0 < s.listenThreads.toInt := Int32.lt_iff_toInt_lt.mp hnum
      have hnat : s.listenThreads.toNatClampNeg=s.listenThreads.toInt.toNat := rfl
      omega
    refine (netListen_spec h.listeners h.nameinfo hidle hthreads hnum).bind
      (add_left_comm _ _ _) fun out left hleft => ?_
    have hend : ∀ n : NetBlocks, n.state=.exit ∨ n.state=.idle → ∀ err,
        Triple env ({(.addrList,addrList)}+(n.idle+(fb.own+s.held)))
          (failAddrinfo fb n addrList err s) fun out left =>
            out.2=s ∧ left=lostFronts s.fronts := fun n hn err =>
      (failAddrinfo_spec fb hn addrList err hqueues).mono fun out left h =>
        ⟨congrArg Prod.snd h.1,h.2⟩
    rw [Asked] at hleft
    split
    · next herr =>
        rw [if_neg herr] at hleft
        obtain ⟨hidle,-,rfl⟩ := hleft
        rw [add_left_comm]
        exact hend out.2 (Or.inr hidle) out.1
    · next herr =>
        rw [if_pos (not_not.mp herr)] at hleft
        obtain ⟨-,hthreads,rfl⟩ := hleft
        have hloop := @screenLoop_spec env fb out.2 s {(.addrList,addrList)} _ h hstarted rounds
          ⟨[],false⟩ rfl
        have hnone : out.2.own+({(.addrList,addrList)}+(fb.own+s.held))=
            ownAll []+(serving fb out.2 s+{(.addrList,addrList)})+0 := by
          rw [ownAll,List.map_nil,List.sum_nil,serving]
          abel
        refine hloop.bind hnone fun shown left hleft => ?_
        obtain ⟨rfl,hunstuck⟩ := hleft
        rw [add_zero]
        refine (arrivals_spec h.nodes hunstuck).bind rfl fun a left hleft => ?_
        obtain ⟨rfl,hunstuck⟩ := hleft
        have hnet : ownAll a.fbs+(serving fb out.2 s+{(.addrList,addrList)})=
            out.2.own+(ownAll a.fbs+({(.addrList,addrList)}+(fb.own+s.held))) := by
          rw [serving]
          abel
        rw [shutdownNet,hunstuck]
        refine (netShutdown_spec h.joins hthreads).bind hnet fun n left hleft => ?_
        obtain ⟨hexit,rfl⟩ := hleft
        have hfbs : n.idle+(ownAll a.fbs+({(.addrList,addrList)}+(fb.own+s.held)))=
            ownAll a.fbs+({(.addrList,addrList)}+(n.idle+(fb.own+s.held))) := by abel
        exact (fbFreeAll_spec a.fbs).spend_bind hfbs fun _ => hend n (Or.inl hexit) shown.1

/-- From `net_alloc` on, a run ends with what the frontends lose. -/
theorem listenAndServe_spec {options : List Opt} (h : Unbroken env options) (rounds : ℕ)
    (fb : FbBlocks) {s : Locals} (hqueues : s.queues.Running) (hnum : 0 < s.listenThreads)
    (hstarted : ∀ front∈s.fronts,front.Started) :
    Triple env (fb.own+s.held) (listenAndServe rounds fb s) fun out left =>
      out.2=s ∧ left=lostFronts s.fronts := by
  refine netAlloc_spec.gain_bind fun out left hleft => ?_
  cases out with
  | error err =>
    subst hleft
    rw [zero_add]
    exact (failFronts_spec fb err hqueues).mono fun out left h => ⟨congrArg Prod.snd h.1,h.2⟩
  | ok n =>
    obtain ⟨rfl,hidle,hthreads,-⟩ := hleft
    have hserve := serve_spec h rounds fb hidle hthreads hqueues hnum hstarted
    have hfail : Triple env (n.idle+(fb.own+s.held)) (failNet fb n (-EINVAL) s) fun out left =>
        out.2=s ∧ left=lostFronts s.fronts :=
      (failNet_spec fb (Or.inr hidle) (-EINVAL) hqueues).mono fun out left h =>
        ⟨congrArg Prod.snd h.1,h.2⟩
    dsimp only
    split
    · refine Triple.call_bind fun t => ?_
      split
      · exact hfail
      · refine Triple.call_bind fun t => ?_
        split
        · exact hfail
        · exact hserve
    · exact hserve

/-- Beside what the locals have forgotten, `fail` leaves nothing before there are
frontends. -/
theorem fail_lost (err : ℤ) {s : Locals} (hqueues : s.queues.Running) (hfronts : s.fronts=[]) :
    Triple env (s.names+s.texts+s.queues.own+s.forgotten) (fail err s)
      fun out left => left=out.2.lost := by
  refine ((fail_spec err hqueues).frame s.forgotten).mono fun out left h => ?_
  obtain ⟨own,rfl,rfl,rfl⟩ := h
  rw [Locals.lost,hfronts]
  exact add_comm _ _

/-- With its frontends, a run leaves what they lose beside what the locals have
forgotten. -/
theorem lost_of_fronts {m : Run (ℤ×Locals)} {s : Locals} {before : Multiset Resource}
    (h : Triple env before m fun out left => out.2=s ∧ left=lostFronts s.fronts) :
    Triple env (before+s.forgotten) m fun out left => left=out.2.lost := by
  refine (h.frame s.forgotten).mono fun out left h => ?_
  obtain ⟨own,rfl,rfl,rfl⟩ := h
  exact add_comm _ _

/-- A run of `main` from a start where nothing is held. -/
theorem main_spec {options : List Opt} (h : Unbroken env options) (rounds : ℕ) :
    Triple env 0 (main options rounds) fun out left => left=out.2.lost := by
  have hinitial : Parsing ValuedSpec options Locals.initial :=
    ⟨rfl,rfl,nofun,(Nat.zero_add _).le.trans h.oneSdl⟩
  have hparse := @parseOptions_spec env ValuedSpec options h.valued Locals.initial hinitial
    (by decide)
  have hnothing : (0 : Multiset Resource)=Locals.initial.parsed+0 := rfl
  refine hparse.bind hnothing fun out left hleft => ?_
  obtain ⟨err,s⟩ := out
  obtain ⟨rfl,hparsing,hnum⟩ := hleft
  rw [add_zero]
  split
  · have hqueues : s.queues.Running := by
      rw [hparsing.queues]
      exact ⟨rfl,fun _ => rfl⟩
    have hown : s.parsed=s.names+s.texts+s.queues.own+s.forgotten := by
      rw [hparsing.queues]
      exact congrArg (·+s.forgotten) (add_zero _).symm
    change Triple env s.parsed (fail err s) _
    rw [hown]
    exact fail_lost err hqueues hparsing.fronts
  · next herr =>
      refine (workqueueInit_spec h.queues h.workers).gain_bind fun started left hleft => ?_
      obtain ⟨hzero,hqueues,rfl⟩ := hleft
      rw [if_neg (not_not.mpr hzero)]
      refine fbAlloc_spec.gain_bind fun out left hleft => ?_
      have hown : started.2.own+s.parsed=s.names+s.texts+started.2.own+s.forgotten := by
        rw [Locals.parsed]
        abel
      cases out with
      | error err =>
        obtain ⟨rfl,-⟩ := hleft
        rw [zero_add,hown]
        exact @fail_lost env err {s with queues := started.2} hqueues hparsing.fronts
      | ok fb =>
        subst hleft
        have hnone : ∀ front∈s.fronts,front.Started := by
          rw [hparsing.fronts]
          exact nofun
        have hsdl : sdlFronts s.fronts+s.frontendNames.countP (namesSdl ·.2) ≤ 1 := by
          rw [hparsing.fronts]
          exact (Nat.zero_add _).le.trans hparsing.oneSdl
        have hfronts := @startFrontends_spec env h.depths s.frontendNames hparsing.specs
          {s with queues := started.2} hsdl hnone
        have hnames : fb.own+(started.2.own+s.parsed)=
            addresses .frontendName (s.frontendNames.map Prod.fst)+ownFronts s.fronts+
              (fb.own+(s.texts+started.2.own)+s.forgotten) := by
          have hempty : ownFronts s.fronts=0 := by
            rw [hparsing.fronts]
            rfl
          rw [hempty,Locals.parsed,Locals.names]
          abel
        refine hfronts.bind hnames fun out left hleft => ?_
        obtain ⟨result,last⟩ := out
        have hheld : left+(fb.own+(s.texts+started.2.own)+s.forgotten)=
            fb.own+last.held+last.forgotten := by
          rw [hleft.held,Locals.held,hleft.texts,hleft.forgotten,hleft.queues]
          change _=fb.own+(last.names+s.texts+started.2.own+ownFronts last.fronts)+s.forgotten
          abel
        have hrunning : last.queues.Running := by
          rw [hleft.queues]
          exact hqueues
        rw [hheld]
        cases result with
        | error err =>
          exact lost_of_fronts ((failFronts_spec fb err hrunning).mono fun out left h =>
            ⟨congrArg Prod.snd h.1,h.2⟩)
        | ok _ =>
          refine lost_of_fronts (listenAndServe_spec h rounds fb hrunning ?_ (hleft.started rfl))
          rw [hleft.listenThreads]
          exact hnum (not_not.mp herr)

end Specs

/-- A system where everything succeeds. -/
def willing : Surroundings Call := fun c _ =>
  match c with
  | .memory _ | .threadMemory _ | .arrivals | .visible | .rfbIsActive | .sdlEvents => 1
  | .socket => 3
  | .openFbdev => 4
  | .bitsPerPixel => 32
  | _ => 0

/-- A renderer replaced by another one, and one frontend of each kind. -/
def commandLine : List Opt :=
  [.fontfile,.fontfile,.frontend (ascii "vnc,font=a"),.description,
    .frontend (ascii "fbdev,fb=b"),.frontend (ascii "statistics"),.frontend (ascii "sdl")]

-- The two renderers hold three things each, and one of them is forgotten.
example : ((main commandLine 3 willing ⟨0,0⟩).map fun out => out.2.held.card)=some 7 := by
  decide +kernel

-- Where a listening thread cannot be created, their array is freed twice.
example : (main [] 3 (fun c t => if c=.createThread .listenThread then 11 else willing c t)
    ⟨0,0⟩).isNone := by
  decide +kernel

-- Where a connection thread has no memory for a framebuffer, the shutdown waits for ever.
example : (main [] 3 (fun c t => if c=.threadMemory .pixels then 0 else willing c t)
    ⟨0,0⟩).isNone := by
  decide +kernel

end Shoreline.Startup
