import Shoreline.ListenTeardown
import Shoreline.Library.Ownership

/-!
# What the server holds

Every block of memory, thread and descriptor that `main` asks for, directly or
through the functions that it calls, and the functions that take and release
them. Each call of the system may fail on its own. A freed block is not held
any more, so using or freeing it once more ends the run without a result.
-/

namespace Shoreline.Resources

open Ownership ListenTeardown

/-- What there is to hold. -/
inductive Kind where
  /-- A copy of an argument of `-f`. -/
  | frontendName
  /-- A copy of an argument of `-d`. -/
  | description
  /-- `struct textrender`. -/
  | txtrndr
  /-- `FT_Library`. -/
  | ftlib
  /-- `FT_Face`. -/
  | ftface
  /-- The array `workqueues`. -/
  | workqueues
  /-- The thread of a work queue. -/
  | workThread
  /-- `struct fb`. -/
  | fb
  /-- The pixels of a framebuffer. -/
  | pixels
  /-- `struct sdl`. -/
  | sdl
  /-- The video subsystem of SDL. -/
  | sdlVideo
  /-- An SDL window. -/
  | sdlWindow
  /-- An SDL renderer. -/
  | sdlRenderer
  /-- An SDL texture. -/
  | sdlTexture
  /-- `struct vnc`. -/
  | vnc
  /-- The screen of the VNC library. -/
  | rfbScreen
  /-- A console font of the VNC library. -/
  | rfbFont
  /-- `struct statistics_frontend`. -/
  | sfront
  /-- A list of addresses. -/
  | addrList
  /-- The thread of the statistics frontend. -/
  | apiThread
  /-- `struct linuxfb`. -/
  | linuxfb
  /-- A copy of the path of a device. -/
  | fbdev
  /-- The buffer for the color format of a device. -/
  | fbmem
  /-- `struct net`. -/
  | net
  /-- The array of listening threads. -/
  | threads
  /-- A listening thread. -/
  | listenThread
  /-- An open descriptor, with its own number. -/
  | descriptor
  deriving DecidableEq, Repr

/-- What is held, told apart by its address or number. -/
abbrev Resource := Kind×ℕ

/-- The calls of the system and of the libraries. -/
inductive Call where
  /-- Memory for something, not zero if there is some. -/
  | memory (block : Kind)
  /-- Memory that a connection thread asks for. -/
  | threadMemory (block : Kind)
  /-- `pthread_create`. -/
  | createThread (thread : Kind)
  /-- `FT_Init_FreeType`. -/
  | initFreeType
  /-- `FT_New_Face`. -/
  | newFace
  /-- `numa_available`. -/
  | numaAvailable
  /-- `numa_max_node`. -/
  | numaMaxNode
  /-- `getaddrinfo`. -/
  | getaddrinfo
  /-- `socket`: a descriptor, or the negative of `errno`. -/
  | socket
  /-- `bind`: the negative of `errno` where it fails. -/
  | bind
  /-- `listen`: the negative of `errno` where it fails. -/
  | listen
  /-- `getnameinfo`. -/
  | getnameinfo
  /-- `open`: a descriptor, or the negative of `errno`. -/
  | openFbdev
  /-- `ioctl`: the negative of `errno` where it fails. -/
  | ioctl
  /-- `bits_per_pixel` of a device. -/
  | bitsPerPixel
  /-- `grayscale` of a device. -/
  | grayscale
  /-- The part of a framebuffer that a device shows has pixels. -/
  | visible
  /-- `write` of a whole buffer: the negative of `errno` where it fails. -/
  | write
  /-- `rfbIsActive`. -/
  | rfbIsActive
  /-- `signal`, not zero if it does not succeed. -/
  | signal
  /-- `SDL_Init`. -/
  | initSdl
  /-- How many events `SDL_PollEvent` returns before it returns none. -/
  | sdlEvents
  /-- The kind of an event. -/
  | sdlEvent
  /-- The framebuffers that connection threads ask for. -/
  | arrivals
  /-- `pthread_join` of a listening thread, zero where it returns. -/
  | joinListening
  deriving DecidableEq, Repr

/-- A step of the server. -/
abbrev Run := Program Call Resource

/-- A block, if there is memory for it. -/
def allocateFrom (memory : Kind → Call) (block : Kind) : Run (Option ℕ) := do
  let there ← call (memory block)
  if there=0 then return none
  let address ← take (Prod.mk block)
  return some address

/-- A block that the main thread asks for. -/
def allocate (block : Kind) : Run (Option ℕ) := allocateFrom .memory block

/-- Something that is there where a call returns zero. -/
def attempt (c : Call) (kind : Kind) : Run (Except ℤ ℕ) := do
  let err ← call c
  if err≠0 then return .error err
  let address ← take (Prod.mk kind)
  return .ok address

/-- A descriptor, where a call does not return a negative number. -/
def descriptor (c : Call) : Run (Except ℤ ℕ) := do
  let fd ← call c
  if fd<0 then return .error fd
  hold (.descriptor,fd.toNat)
  return .ok fd.toNat

/-- `assert`. -/
def assert (holds : Bool) : Run Unit := if holds then return () else fault

/-- What a pointer refers to, if it is not null. -/
def pointed (kind : Kind) (p : Option ℕ) : List Resource := p.toList.map (Prod.mk kind)

/-- `struct textrender`. -/
structure Textrender where
  txtrndr : ℕ
  ftlib : ℕ
  ftface : ℕ

/-- `textrender_alloc`. -/
def textrenderAlloc : Run (Except ℤ Textrender) := do
  match ← allocate .txtrndr with
  | none => return .error (-ENOMEM)
  | some txtrndr =>
    match ← attempt .initFreeType .ftlib with
    | .error fterr =>
      release (.txtrndr,txtrndr)
      return .error fterr
    | .ok ftlib =>
      match ← attempt .newFace .ftface with
      | .error fterr =>
        release (.ftlib,ftlib)
        release (.txtrndr,txtrndr)
        return .error fterr
      | .ok ftface => return .ok ⟨txtrndr,ftlib,ftface⟩

/-- `textrender_free`. -/
def textrenderFree (t : Textrender) : Run Unit := do
  touch (.txtrndr,t.txtrndr)
  release (.ftface,t.ftface)
  release (.ftlib,t.ftlib)
  release (.txtrndr,t.txtrndr)

/-- `struct fb`. -/
structure FbBlocks where
  fb : ℕ
  pixels : ℕ

/-- `fb_alloc`. -/
def fbAllocFrom (memory : Kind → Call) : Run (Except ℤ FbBlocks) := do
  match ← allocateFrom memory .fb with
  | none => return .error (-ENOMEM)
  | some fb =>
    match ← allocateFrom memory .pixels with
    | none =>
      release (.fb,fb)
      return .error (-ENOMEM)
    | some pixels => return .ok ⟨fb,pixels⟩

/-- `fb_alloc` in the main thread. -/
def fbAlloc : Run (Except ℤ FbBlocks) := fbAllocFrom .memory

/-- `fb_free`. -/
def fbFree (b : FbBlocks) : Run Unit := do
  touch (.fb,b.fb)
  release (.pixels,b.pixels)
  release (.fb,b.fb)

/-- `fb_free_all`. -/
def fbFreeAll : List FbBlocks → Run Unit
  | [] => return ()
  | b::bs => do
    fbFree b
    fbFreeAll bs

/-- What reading or drawing a framebuffer touches. -/
def fbUse (b : FbBlocks) : Run Unit := touchAll [(.fb,b.fb),(.pixels,b.pixels)]

/-- `num_workqueues` and `workqueues`, with the threads in the array. -/
structure Workqueues where
  num : ℕ
  array : Option ℕ
  threads : List ℕ

/-- `stop_workqueue` for a queue without entries. -/
def stopWorkqueue (array thread : ℕ) : Run Unit := do
  touch (.workqueues,array)
  release (.workThread,thread)

/-- The queues of a list of threads are stopped. -/
def stopWorkqueues (array : ℕ) : List ℕ → Run Unit
  | [] => return ()
  | thread::threads => do
    stopWorkqueue array thread
    stopWorkqueues array threads

/-- The thread loop of `workqueue_init`, with so many threads to go and those
created so far. -/
def createWorkers (array : ℕ) : ℕ → List ℕ → Run (ℤ×List ℕ)
  | 0,threads => return (0,threads)
  | left+1,threads => do
    touch (.workqueues,array)
    match ← attempt (.createThread .workThread) .workThread with
    | .error err =>
      stopWorkqueues array threads.reverse
      release (.workqueues,array)
      return (-err,threads)
    | .ok thread => createWorkers array left (threads++[thread])

/-- The number of queues that `workqueue_init` asks for. -/
def queueCount : Run ℕ := do
  let available ← call .numaAvailable
  if available=0 then return 1
  let maxNode ← call .numaMaxNode
  return maxNode.toNat

/-- `workqueue_init`. -/
def workqueueInit : Run (ℤ×Workqueues) := do
  let num ← queueCount
  match ← allocate .workqueues with
  | none => return (-ENOMEM,⟨num,none,[]⟩)
  | some array =>
    let (err,threads) ← createWorkers array num []
    return (err,⟨num,some array,threads⟩)

/-- The loop of `workqueue_deinit`, with so many queues to go. A missing handle
is no thread that could be joined. -/
def deinitLoop (array : Option ℕ) : ℕ → List ℕ → Run Unit
  | 0,_ => return ()
  | left+1,threads =>
    match array,threads with
    | some array,thread::threads => do
      stopWorkqueue array thread
      deinitLoop (some array) left threads
    | some array,[] => do
      touch (.workqueues,array)
      fault
    | none,_ => fault

/-- `workqueue_deinit`. -/
def workqueueDeinit (queues : Workqueues) : Run Unit := do
  deinitLoop queues.array queues.num queues.threads
  releaseAll (pointed .workqueues queues.array)

/-- What is used of `struct net`, with the listening threads, the last one
first. -/
structure NetBlocks where
  net : ℕ
  state : NetState
  socket : ℕ
  threads : Option ℕ
  listening : List ℕ

/-- `net_alloc`. -/
def netAlloc : Run (Except ℤ NetBlocks) := do
  match ← allocate .net with
  | none => return .error (-ENOMEM)
  | some net => return .ok ⟨net,.idle,0,none,[]⟩

/-- The loop of `net_kill_threads`, over the threads from the last one on. A
listening thread that does not come to its end is joined for ever. -/
def killLoop (threads : ℕ) : List ℕ → Run Unit
  | [] => return ()
  | thread::listening => do
    touch (.threads,threads)
    let joined ← call .joinListening
    if joined≠0 then fault
    release (.listenThread,thread)
    killLoop threads listening

/-- The thread loop of `net_listen`, with so many threads to go and the label
`fail_pthread_create`. -/
def listenLoop (n : NetBlocks) (threads : ℕ) : ℕ → List ℕ → Run (ℤ×NetBlocks)
  | 0,listening => return (0,{n with state := .listen, threads := some threads, listening})
  | left+1,listening => do
    touchAll [(.net,n.net),(.threads,threads)]
    match ← attempt (.createThread .listenThread) .listenThread with
    | .error err =>
      killLoop threads listening
      release (.threads,threads)
      release (.descriptor,n.socket)
      return (-err,{n with state := .idle, threads := some threads, listening})
    | .ok thread => listenLoop n threads left (thread::listening)

/-- `net_listen`. -/
def netListen (n : NetBlocks) (numThreads : ℕ) : Run (ℤ×NetBlocks) := do
  touch (.net,n.net)
  assert (numThreads≠0)
  assert (n.state=.idle)
  match ← descriptor .socket with
  | .error err => return (err,n)
  | .ok socket =>
    let n := {n with socket := socket}
    let nameinfo ← call .getnameinfo
    assert (nameinfo=0)
    let bound ← call .bind
    if bound<0 then
      release (.descriptor,socket)
      return (bound,n)
    let listens ← call .listen
    if listens≠0 then
      release (.descriptor,socket)
      return (listens,n)
    match ← allocate .threads with
    | none =>
      release (.descriptor,socket)
      return (-ENOMEM,n)
    | some threads => listenLoop n threads numThreads []

/-- `net_kill_threads`. -/
def netKillThreads (n : NetBlocks) : Run Unit :=
  match n.threads with
  | some threads => killLoop threads n.listening
  | none => assert n.listening.isEmpty

/-- `net_shutdown`. -/
def netShutdown (n : NetBlocks) : Run NetBlocks := do
  touch (.net,n.net)
  netKillThreads n
  release (.descriptor,n.socket)
  return {n with state := .exit}

/-- `net_free`. -/
def netFree (n : NetBlocks) : Run Unit := do
  touch (.net,n.net)
  assert (n.state=.exit ∨ n.state=.idle)
  releaseAll (pointed .threads n.threads)
  release (.net,n.net)

/-- What is held of a renderer. -/
def Textrender.own (t : Textrender) : Multiset Resource :=
  {(.txtrndr,t.txtrndr)}+{(.ftlib,t.ftlib)}+{(.ftface,t.ftface)}

/-- What is held of a framebuffer. -/
def FbBlocks.own (b : FbBlocks) : Multiset Resource := {(.fb,b.fb)}+{(.pixels,b.pixels)}

/-- What is held for the addresses of a list. -/
def addresses (kind : Kind) (ps : List ℕ) : Multiset Resource := (ps.map (Prod.mk kind) : List _)

/-- What is held of the work queues. -/
def Workqueues.own (q : Workqueues) : Multiset Resource :=
  addresses .workqueues q.array.toList+addresses .workThread q.threads

/-- The work queues run, or there are none. -/
def Workqueues.Running (q : Workqueues) : Prop :=
  q.threads.length=q.num ∧ (q.array=none → q.num=0)

/-- What is held of a net that is idle or has ended. -/
def NetBlocks.idle (n : NetBlocks) : Multiset Resource :=
  {(.net,n.net)}+addresses .threads n.threads.toList

/-- What is held of a net that listens. -/
def NetBlocks.own (n : NetBlocks) : Multiset Resource :=
  n.idle+addresses .listenThread n.listening+{(.descriptor,n.socket)}

section Specs

variable {env : Surroundings Call}

theorem addresses_nil (kind : Kind) : addresses kind []=0 := rfl

theorem addresses_cons (kind : Kind) (p : ℕ) (ps : List ℕ) :
    addresses kind (p::ps)={(kind,p)}+addresses kind ps := by
  rw [addresses,List.map_cons,← Multiset.cons_coe,Multiset.singleton_add]
  rfl

theorem addresses_append (kind : Kind) (ps qs : List ℕ) :
    addresses kind (ps++qs)=addresses kind ps+addresses kind qs := by
  rw [addresses,List.map_append,← Multiset.coe_add]
  rfl

/-- A pointer that refers to something. -/
theorem addresses_some (kind : Kind) (p : ℕ) :
    addresses kind (some p).toList={(kind,p)} := rfl

/-- A null pointer. -/
theorem addresses_none (kind : Kind) : addresses kind (none : Option ℕ).toList=0 := rfl

/-- A pointer that may be null. -/
theorem coe_pointed (kind : Kind) (p : Option ℕ) :
    (pointed kind p : Multiset Resource)=addresses kind p.toList := rfl

/-- An allocation holds the block if there is one. -/
theorem allocateFrom_spec (memory : Kind → Call) (kind : Kind) :
    Triple env 0 (allocateFrom memory kind) fun p left => left=addresses kind p.toList := by
  refine Triple.call_bind fun t => ?_
  split
  · exact Triple.pure rfl
  · exact Triple.take_bind fun n => Triple.pure (add_zero _)

/-- So it does in the main thread. -/
theorem allocate_spec (kind : Kind) :
    Triple env 0 (allocate kind) fun p left => left=addresses kind p.toList :=
  allocateFrom_spec _ kind

/-- An allocation where there is always memory. -/
theorem allocateFrom_succeeds {memory : Kind → Call} {kind : Kind}
    (h : ∀ t, env (memory kind) t≠0) :
    Triple env 0 (allocateFrom memory kind) fun p left => ∃ a, p=some a ∧ left={(kind,a)} := by
  refine Triple.call_bind fun t => ?_
  rw [if_neg (h t)]
  exact Triple.take_bind fun n => Triple.pure ⟨n,rfl,add_zero _⟩

/-- A call that succeeds with zero holds what it makes. -/
theorem attempt_spec (c : Call) (kind : Kind) : Triple env 0 (attempt c kind) fun out left =>
    match out with
    | .error err => left=0 ∧ err≠0 ∧ ∃ t, err=env c t
    | .ok address => left={(kind,address)} := by
  refine Triple.call_bind fun t => ?_
  split
  · next herr => exact Triple.pure ⟨rfl,herr,t,rfl⟩
  · exact Triple.take_bind fun n => Triple.pure (add_zero _)

/-- A descriptor is held where the call does not fail. -/
theorem descriptor_spec (c : Call) : Triple env 0 (descriptor c) fun out left =>
    match out with
    | .error err => left=0 ∧ err≠0
    | .ok fd => left={(.descriptor,fd)} := by
  refine Triple.call_bind fun t => ?_
  split
  · next hneg => exact Triple.pure ⟨rfl,hneg.ne⟩
  · exact Triple.hold_bind (Triple.pure (add_zero _))

/-- An assertion that holds. -/
theorem assert_bind {β : Type} {before : Multiset Resource} {holds : Bool} {f : Unit → Run β}
    {final : β → Multiset Resource → Prop} (h : holds=true) (hnext : Triple env before (f ()) final) :
    Triple env before (assert holds >>= f) final := by
  rw [assert,if_pos h]
  exact hnext

/-- `textrender_alloc` holds a whole renderer or nothing. -/
theorem textrenderAlloc_spec : Triple env 0 textrenderAlloc fun out left =>
    match out with
    | .error err => left=0 ∧ err≠0
    | .ok t => left=t.own := by
  refine (allocate_spec .txtrndr).gain_bind fun p left hleft => ?_
  subst hleft
  cases p with
  | none => exact Triple.pure ⟨rfl,by decide⟩
  | some txtrndr =>
    refine (attempt_spec .initFreeType .ftlib).gain_bind fun out own hown => ?_
    cases out with
    | error fterr =>
      obtain ⟨rfl,herr,-⟩ := hown
      exact Triple.release_bind (zero_add _) (Triple.pure ⟨rfl,herr⟩)
    | ok ftlib =>
      subst hown
      refine (attempt_spec .newFace .ftface).gain_bind fun out own hown => ?_
      cases out with
      | error fterr =>
        obtain ⟨rfl,herr,-⟩ := hown
        exact Triple.release_bind (zero_add _)
          (Triple.release_bind (by rfl) (Triple.pure ⟨rfl,herr⟩))
      | ok ftface =>
        subst hown
        refine Triple.pure ?_
        change _=Textrender.own ⟨txtrndr,ftlib,ftface⟩
        rw [Textrender.own,addresses_some]
        abel

/-- `textrender_free` gives a renderer back. -/
theorem textrenderFree_spec (t : Textrender) :
    Triple env t.own (textrenderFree t) fun _ left => left=0 := by
  have hface : t.own={(.ftface,t.ftface)}+({(.ftlib,t.ftlib)}+{(.txtrndr,t.txtrndr)}) := by
    rw [Textrender.own]
    abel
  have huse : (.txtrndr,t.txtrndr)∈t.own := by simp [Textrender.own]
  exact Triple.touch_bind huse (Triple.release_bind hface
    (Triple.release_bind rfl (Triple.release (add_zero _).symm)))

/-- `fb_alloc` holds a whole framebuffer where there is memory. -/
theorem fbAllocFrom_succeeds {memory : Kind → Call} (h : ∀ kind t, env (memory kind) t≠0) :
    Triple env 0 (fbAllocFrom memory) fun out left => ∃ b, out=.ok b ∧ left=b.own := by
  refine (allocateFrom_succeeds (h .fb)).gain_bind fun p left hleft => ?_
  obtain ⟨fb,rfl,rfl⟩ := hleft
  refine (allocateFrom_succeeds (h .pixels)).gain_bind fun q left hleft => ?_
  obtain ⟨pixels,rfl,rfl⟩ := hleft
  exact Triple.pure ⟨⟨fb,pixels⟩,rfl,add_comm _ _⟩

/-- `fb_alloc` holds a whole framebuffer or nothing. -/
theorem fbAlloc_spec : Triple env 0 fbAlloc fun out left =>
    match out with
    | .error err => left=0 ∧ err≠0
    | .ok b => left=b.own := by
  refine (allocate_spec .fb).gain_bind fun p left hleft => ?_
  subst hleft
  cases p with
  | none => exact Triple.pure ⟨rfl,by decide⟩
  | some fb =>
    refine (allocate_spec .pixels).gain_bind fun q left hleft => ?_
    subst hleft
    cases q with
    | none => exact Triple.release_bind (zero_add _) (Triple.pure ⟨rfl,by decide⟩)
    | some pixels =>
      exact Triple.pure (add_comm _ _)

/-- `fb_free` gives a framebuffer back. -/
theorem fbFree_spec (b : FbBlocks) : Triple env b.own (fbFree b) fun _ left => left=0 := by
  have hpixels : b.own={(.pixels,b.pixels)}+{(.fb,b.fb)} := add_comm _ _
  have huse : (.fb,b.fb)∈b.own := by simp [FbBlocks.own]
  exact Triple.touch_bind huse (Triple.release_bind hpixels (Triple.release (add_zero _).symm))

/-- What is held of framebuffers. -/
def ownAll (bs : List FbBlocks) : Multiset Resource := (bs.map FbBlocks.own).sum

/-- `fb_free_all` gives all framebuffers back. -/
theorem fbFreeAll_spec (bs : List FbBlocks) :
    Triple env (ownAll bs) (fbFreeAll bs) fun _ left => left=0 := by
  induction bs with
  | nil => exact Triple.pure rfl
  | cons b bs ih => exact (fbFree_spec b).spend_bind (List.sum_cons ..) fun _ => ih

/-- A framebuffer that is held may be read and drawn. -/
theorem fbUse_bind {β : Type} {b : FbBlocks} {before : Multiset Resource} {f : Unit → Run β}
    {final : β → Multiset Resource → Prop} (hb : b.own ≤ before)
    (h : Triple env before (f ()) final) : Triple env before (fbUse b >>= f) final := by
  refine Triple.touchAll_bind ?_ h
  intro r hr
  have hown : r∈b.own := by simpa [FbBlocks.own] using hr
  exact Multiset.mem_of_le hb hown

/-- The threads of the work queues are created, if each of them is. -/
theorem createWorkers_spec (hworkers : ∀ t, env (.createThread .workThread) t=0)
    (array left : ℕ) (threads : List ℕ) :
    Triple env ({(.workqueues,array)}+addresses .workThread threads)
      (createWorkers array left threads) fun out own => out.1=0 ∧
        out.2.length=threads.length+left ∧
        own={(.workqueues,array)}+addresses .workThread out.2 := by
  induction left generalizing threads with
  | zero => exact Triple.pure ⟨rfl,rfl,rfl⟩
  | succ left ih =>
    have huse : (Kind.workqueues,array)∈
        {(.workqueues,array)}+addresses .workThread threads := by simp
    refine Triple.touch_bind huse
      ((attempt_spec (.createThread .workThread) .workThread).gain_bind fun out own hown => ?_)
    cases out with
    | error err =>
      obtain ⟨-,herr,t,ht⟩ := hown
      exact absurd (ht.trans (hworkers t)) herr
    | ok thread =>
      subst hown
      have hown : {(.workThread,thread)}+({(.workqueues,array)}+addresses .workThread threads)=
          {(.workqueues,array)}+addresses .workThread (threads++[thread]) := by
        rw [addresses_append,addresses_cons,addresses_nil]
        abel
      have hlength : (threads++[thread]).length+left=threads.length+(left+1) := by
        rw [List.length_append,List.length_singleton]
        omega
      rw [hown]
      refine (ih (threads++[thread])).mono fun out own h => ?_
      rw [hlength] at h
      exact h

/-- `workqueue_init` holds its queues, if there is memory and each thread is created. -/
theorem workqueueInit_spec (hqueues : ∀ t, env (.memory .workqueues) t≠0)
    (hworkers : ∀ t, env (.createThread .workThread) t=0) :
    Triple env 0 workqueueInit fun out left => out.1=0 ∧ out.2.Running ∧ left=out.2.own := by
  have hcount : Triple env 0 queueCount fun _ left => left=0 := by
    refine Triple.call_bind fun t => ?_
    split
    · exact Triple.pure rfl
    · exact Triple.call_bind fun t => Triple.pure rfl
  refine hcount.spend_bind (add_zero 0).symm fun num => ?_
  refine (allocateFrom_succeeds hqueues).gain_bind fun p left hleft => ?_
  obtain ⟨array,rfl,rfl⟩ := hleft
  refine (createWorkers_spec hworkers array num []).bind (add_zero _).symm fun out own hown => ?_
  obtain ⟨herr,hlength,rfl⟩ := hown
  refine Triple.pure ⟨herr,⟨hlength.trans (Nat.zero_add num),nofun⟩,?_⟩
  exact add_zero _

/-- The loop of `workqueue_deinit` joins the threads of running queues. -/
theorem deinitLoop_spec (array : ℕ) (threads : List ℕ) :
    Triple env ({(.workqueues,array)}+addresses .workThread threads)
      (deinitLoop (some array) threads.length threads)
      fun _ left => left={(.workqueues,array)} := by
  induction threads with
  | nil => exact Triple.pure (add_zero _)
  | cons thread threads ih =>
    have hthread : {(.workqueues,array)}+addresses .workThread (thread::threads)=
        {(.workThread,thread)}+({(.workqueues,array)}+addresses .workThread threads) := by
      rw [addresses_cons]
      abel
    have huse : (Kind.workqueues,array)∈
        {(.workqueues,array)}+addresses .workThread (thread::threads) := by simp
    rw [List.length_cons,deinitLoop,stopWorkqueue,bind_bind]
    exact Triple.touch_bind huse (Triple.release_bind hthread ih)

/-- `workqueue_deinit` gives running queues back, or does nothing without queues. -/
theorem workqueueDeinit_spec {q : Workqueues} (hq : q.Running) :
    Triple env q.own (workqueueDeinit q) fun _ left => left=0 := by
  obtain ⟨num,array,threads⟩ := q
  obtain ⟨hlength,hnull⟩ := hq
  cases array with
  | none =>
    have hnil : threads=[] := List.eq_nil_of_length_eq_zero (hlength.trans (hnull rfl))
    have hnum : num=0 := hnull rfl
    subst hnil hnum
    exact Triple.pure rfl
  | some array =>
    have hnum : num=threads.length := hlength.symm
    subst hnum
    refine (deinitLoop_spec array threads).bind (add_zero _).symm fun _ left hleft => ?_
    rw [hleft,add_zero]
    exact Triple.releaseAll _

/-- `net_alloc` holds an idle net or nothing. -/
theorem netAlloc_spec : Triple env 0 netAlloc fun out left =>
    match out with
    | .error _ => left=0
    | .ok n => left=n.idle ∧ n.state=.idle ∧ n.threads=none ∧ n.listening=[] := by
  refine (allocate_spec .net).gain_bind fun p left hleft => ?_
  subst hleft
  cases p with
  | none => exact Triple.pure rfl
  | some net => exact Triple.pure ⟨rfl,rfl,rfl,rfl⟩

/-- The listening threads are joined. -/
theorem killLoop_spec (hjoins : ∀ t, env .joinListening t=0) (threads : ℕ) (listening : List ℕ) :
    Triple env ({(.threads,threads)}+addresses .listenThread listening)
      (killLoop threads listening) fun _ left => left={(.threads,threads)} := by
  induction listening with
  | nil => exact Triple.pure (add_zero _)
  | cons thread listening ih =>
    have hthread : {(.threads,threads)}+addresses .listenThread (thread::listening)=
        {(.listenThread,thread)}+({(.threads,threads)}+addresses .listenThread listening) := by
      rw [addresses_cons]
      abel
    have huse : (Kind.threads,threads)∈
        {(.threads,threads)}+addresses .listenThread (thread::listening) := by simp
    refine Triple.touch_bind huse (Triple.call_bind fun t => ?_)
    rw [if_neg (not_not.mpr (hjoins t))]
    exact Triple.release_bind hthread ih

/-- A net that was asked to listen: it does, or it is idle with nothing but itself. -/
def Asked (err : ℤ) (n : NetBlocks) (left : Multiset Resource) : Prop :=
  if err=0 then n.state=.listen ∧ n.threads.isSome ∧ left=n.own
  else n.state=.idle ∧ n.threads=none ∧ left=n.idle

/-- The thread loop of `net_listen`, if each thread is created. -/
theorem listenLoop_spec (hlisteners : ∀ t, env (.createThread .listenThread) t=0)
    (n : NetBlocks) (threads left : ℕ) (listening : List ℕ) :
    Triple env ({(.net,n.net)}+{(.threads,threads)}+addresses .listenThread listening+
      {(.descriptor,n.socket)}) (listenLoop n threads left listening)
      fun out own => Asked out.1 out.2 own := by
  induction left generalizing listening with
  | zero => exact Triple.pure ⟨rfl,rfl,rfl⟩
  | succ left ih =>
    refine Triple.touchAll_bind (by simp)
      ((attempt_spec (.createThread .listenThread) .listenThread).gain_bind fun out own hown => ?_)
    cases out with
    | error err =>
      obtain ⟨-,herr,t,ht⟩ := hown
      exact absurd (ht.trans (hlisteners t)) herr
    | ok thread =>
      subst hown
      have hown : {(.listenThread,thread)}+({(.net,n.net)}+{(.threads,threads)}+
          addresses .listenThread listening+{(.descriptor,n.socket)})=
          {(.net,n.net)}+{(.threads,threads)}+addresses .listenThread (thread::listening)+
          {(.descriptor,n.socket)} := by
        rw [addresses_cons]
        abel
      rw [hown]
      exact ih (thread::listening)

/-- `net_listen`, if each thread is created and the address has a name. -/
theorem netListen_spec (hlisteners : ∀ t, env (.createThread .listenThread) t=0)
    (hnameinfo : ∀ t, env .getnameinfo t=0) {n : NetBlocks} (hstate : n.state=.idle)
    (hthreads : n.threads=none) {numThreads : ℕ} (hnum : numThreads≠0) :
    Triple env n.idle (netListen n numThreads) fun out left => Asked out.1 out.2 left := by
  have hidle : n.idle={(.net,n.net)} := by
    rw [NetBlocks.idle,hthreads]
    exact add_zero _
  rw [hidle]
  refine Triple.touch_bind (Multiset.mem_singleton_self _)
    (assert_bind (decide_eq_true hnum) (assert_bind (decide_eq_true hstate)
    ((descriptor_spec .socket).gain_bind fun out left hleft => ?_)))
  cases out with
  | error err =>
    obtain ⟨rfl,herr⟩ := hleft
    rw [zero_add]
    refine Triple.pure ?_
    rw [Asked,if_neg herr]
    exact ⟨hstate,hthreads,hidle.symm⟩
  | ok socket =>
    subst hleft
    have hfail : ∀ err : ℤ, err≠0 → Triple env ({(.descriptor,socket)}+{(.net,n.net)})
        (do release (.descriptor,socket)
            return (err,{n with socket := socket}))
        fun out left => Asked out.1 out.2 left := fun err herr => by
      refine Triple.release_bind rfl (Triple.pure ?_)
      rw [Asked,if_neg herr]
      exact ⟨hstate,hthreads,hidle.symm⟩
    refine Triple.call_bind fun t => assert_bind (decide_eq_true (hnameinfo t))
      (Triple.call_bind fun t => ?_)
    split
    · next hbound => exact hfail _ hbound.ne
    · refine Triple.call_bind fun t => ?_
      split
      · next hlistens => exact hfail _ hlistens
      · refine (allocate_spec .threads).gain_bind fun p left hleft => ?_
        subst hleft
        cases p with
        | none =>
          rw [addresses_none,zero_add]
          exact hfail _ (by decide)
        | some threads =>
          have hown : addresses .threads (some threads).toList+
              ({(.descriptor,socket)}+{(.net,n.net)})=
              {(.net,n.net)}+{(.threads,threads)}+addresses .listenThread []+
              {(.descriptor,socket)} := by
            rw [addresses_some,addresses_nil]
            abel
          rw [hown]
          exact listenLoop_spec hlisteners {n with socket := socket} threads numThreads []

/-- `net_shutdown` ends a net that listens. -/
theorem netShutdown_spec (hjoins : ∀ t, env .joinListening t=0) {n : NetBlocks}
    (hthreads : n.threads.isSome) :
    Triple env n.own (netShutdown n) fun out left => out.state=.exit ∧ left=out.idle := by
  obtain ⟨threads,hsome⟩ := Option.isSome_iff_exists.mp hthreads
  have huse : (Kind.net,n.net)∈n.own := by simp [NetBlocks.own,NetBlocks.idle]
  have hkill : Triple env ({(.threads,threads)}+addresses .listenThread n.listening)
      (netKillThreads n) fun _ left => left={(.threads,threads)} := by
    rw [netKillThreads,hsome]
    exact killLoop_spec hjoins threads n.listening
  have hown : n.own={(.threads,threads)}+addresses .listenThread n.listening+
      ({(.descriptor,n.socket)}+{(.net,n.net)}) := by
    rw [NetBlocks.own,NetBlocks.idle,hsome,addresses_some]
    abel
  refine Triple.touch_bind huse (hkill.bind hown fun _ left hleft => ?_)
  have hrest : left+({(.descriptor,n.socket)}+{(.net,n.net)})={(.descriptor,n.socket)}+n.idle := by
    rw [hleft,NetBlocks.idle,hsome,addresses_some]
    abel
  exact Triple.release_bind hrest (Triple.pure ⟨rfl,rfl⟩)

/-- `net_free` gives a net back that is idle or has ended. -/
theorem netFree_spec {n : NetBlocks} (hstate : n.state=.exit ∨ n.state=.idle) :
    Triple env n.idle (netFree n) fun _ left => left=0 := by
  have huse : (Kind.net,n.net)∈n.idle := by simp [NetBlocks.idle]
  have hown : n.idle=(pointed .threads n.threads : Multiset Resource)+{(.net,n.net)} :=
    add_comm _ _
  exact Triple.touch_bind huse (assert_bind (decide_eq_true hstate)
    (Triple.releaseAll_bind hown (Triple.release (add_zero _).symm)))

end Specs

end Shoreline.Resources
