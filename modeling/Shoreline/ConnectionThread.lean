import Shoreline.LinkedList
import Shoreline.NetConnection

/-!
# What a connection thread holds

A connection thread takes `fb_lock`, its socket, its entry in a thread list,
its structure and its ring at different points, and the labels at its end give
back what was acquired before them. The label behind a failed allocation of a
framebuffer comes behind all of them.
-/

namespace Shoreline.ConnectionThread

open CircularMemory RingBuffer Framebuffer NetConnection StateMachine LinkedSequence LinkedList

/-- What does not change while connections come and go. -/
structure NetSetup where
  /-- Features and host. -/
  build : Build
  /-- `net->ring_size`. -/
  ringSize : ℕ
  /-- The socket of every connection. -/
  socket : ℕ → Socket

/-- How far `net_connection_thread` is, in the order of the source. -/
inductive ConnPc where
  | starting
  | lookup
  | unlocking
  | alloc
  | recv
  | failRing
  | failSocket
  | removeSelf
  | freeSelf
  | fail
  | ended
  deriving DecidableEq

/-- The order of the source. -/
@[simp] def ConnPc.rank : ConnPc → ℕ
  | .starting => 0
  | .lookup => 1
  | .unlocking => 2
  | .alloc => 3
  | .recv => 4
  | .failRing => 5
  | .failSocket => 6
  | .removeSelf => 7
  | .freeSelf => 8
  | .fail => 9
  | .ended => 10

/-- `struct net_connection_thread` with its thread. -/
structure ConnThread where
  /-- The listening thread, `net_thread`, whose list it is in. -/
  listener : ℕ
  /-- How far it is. -/
  pc : ConnPc
  /-- Position of its framebuffer. -/
  fb : ℕ
  /-- The connection, once its ring is allocated. -/
  conn : Option Conn
  /-- History: `fb_alloc` has failed. -/
  failed : Bool
  /-- History: how often the socket was closed. -/
  closed : ℕ
  /-- History: how often the entry was removed. -/
  removed : ℕ
  /-- History: how often the structure was freed. -/
  freed : ℕ
  /-- History: how often the ring was freed. -/
  ringFreed : ℕ

/-- All connection threads, and what they share. -/
structure NetServer where
  /-- `net->fb`, which also tells the size of new framebuffers. -/
  fb : Fb
  /-- The holder of `fb_lock`. -/
  fbLock : Option ℕ
  /-- `fb_list`. -/
  fbs : List Fb
  /-- The thread lists and the structures, by the number of the connection. -/
  heap : Heap
  /-- The connections, in the order in which they were accepted. -/
  conns : List ConnThread

/-- One step of a thread, with the outcomes of the calls in it, or a change of
the framebuffers from outside. -/
inductive ConnEvent where
  | accept (listener : ℕ)
  | lockFb (k : ℕ)
  | lookup (k look : ℕ) (node : Option UInt32) (block : Option (ℕ → FbPixel)) (numaNode : ℕ)
  | unlockFb (k : ℕ)
  | alloc (k : ℕ) (node : Bool) (block : Option (Memory UInt8))
  | receive (k : ℕ) (pass : Recv)
  | popRing (k : ℕ)
  | popSocket (k : ℕ)
  | removeSelf (k : ℕ)
  | freeSelf (k : ℕ)
  | detach (k : ℕ)
  | fbsChange (fb : Fb) (fbs : List Fb)

/-- How far a connection is. -/
def connPc (s : NetServer) (k : ℕ) : Option ConnPc := s.conns[k]?.map ConnThread.pc

/-- A thread goes on. -/
def setThread (s : NetServer) (k : ℕ) (thread : ConnThread) : NetServer :=
  {s with conns := s.conns.set k thread}

/-- A thread that `net_listen_thread` creates. -/
def newThread (listener : ℕ) : ConnThread := ⟨listener,.starting,0,none,false,0,0,0,0⟩

/-- With `fb_lock` held, look up the framebuffer of the node or allocate one;
`goto fail` when that fails. -/
def connLookup (setup : NetSetup) (s : NetServer) (k : ℕ) (thread : ConnThread) (look : ℕ)
    (node : Option UInt32) (block : Option (ℕ → FbPixel)) (numaNode : ℕ) : NetServer :=
  match fbGetFbOnNode s.fbs look with
  | some i => setThread s k {thread with pc := .unlocking, fb := i}
  | none =>
    match fbAlloc setup.build.host node block numaNode s.fb.size with
    | .error _ => setThread s k {thread with pc := .fail, failed := true}
    | .ok fb => setThread {s with fbs := s.fbs++[fb]} k
      {thread with pc := .unlocking, fb := s.fbs.length}

/-- `ring_alloc`, and the start of the receive loop. -/
def connAlloc (setup : NetSetup) (s : NetServer) (k : ℕ) (thread : ConnThread) (node : Bool)
    (block : Option (Memory UInt8)) : NetServer :=
  match ringAlloc node block setup.ringSize with
  | .error _ => setThread s k {thread with pc := .failSocket}
  | .ok ring => setThread s k {thread with
      pc := .recv
      conn := some (freshConn ring (freshSession (s.fbs[thread.fb]?.getD s.fb)))}

/-- One pass of the receive loop of a thread, on the framebuffer as it is then. -/
def connReceive (setup : NetSetup) (s : NetServer) (k : ℕ) (thread : ConnThread) (pass : Recv) :
    Option (LoopEnd×Conn) :=
  thread.conn.bind fun conn => s.fbs[thread.fb]?.map fun fb =>
    netReceiveLoop ⟨setup.build,s.fb,setup.socket k⟩
      {conn with session := {conn.session with fb := fb}} [pass]

/-- A failed assertion, which ends the whole process. -/
def isAborted : LoopEnd → Bool
  | .aborted _ => true
  | _ => false

/-- One step; `none` is a fault. -/
def connStep (setup : NetSetup) : Step ConnEvent Unit NetServer
  | s,.accept listener =>
    let heap : Heap := {s.heap with
      entries := Function.update s.heap.entries s.conns.length (some llistEntryInit)}
    (llistAppend heap listener s.conns.length).map fun heap =>
      ((),{s with heap := heap, conns := s.conns++[newThread listener]})
  | s,.lockFb k => s.conns[k]?.map fun thread =>
    ((),setThread {s with fbLock := some k} k {thread with pc := .lookup})
  | s,.lookup k look node block numaNode => s.conns[k]?.map fun thread =>
    ((),connLookup setup s k thread look node block numaNode)
  | s,.unlockFb k => s.conns[k]?.map fun thread =>
    ((),setThread {s with fbLock := none} k {thread with pc := .alloc})
  | s,.alloc k node block => s.conns[k]?.map fun thread =>
    ((),connAlloc setup s k thread node block)
  | s,.receive k pass => s.conns[k]?.bind fun thread =>
    (connReceive setup s k thread pass).bind fun out =>
      if isAborted out.1 then none
      else some ((),setThread {s with fbs := s.fbs.set thread.fb out.2.session.fb} k {thread with
        pc := if out.1=.reading then .recv else .failRing
        conn := some out.2})
  | s,.popRing k => s.conns[k]?.map fun thread =>
    ((),setThread s k {thread with pc := .failSocket, ringFreed := thread.ringFreed+1})
  | s,.popSocket k => s.conns[k]?.map fun thread =>
    ((),setThread s k {thread with pc := .removeSelf, closed := thread.closed+1})
  | s,.removeSelf k => s.conns[k]?.bind fun thread => (llistRemove s.heap k).map fun heap =>
    ((),setThread {s with heap := heap} k
      {thread with pc := .freeSelf, removed := thread.removed+1})
  | s,.freeSelf k => s.conns[k]?.bind fun thread => (s.heap.free k).map fun heap =>
    ((),setThread {s with heap := heap} k {thread with pc := .fail, freed := thread.freed+1})
  | s,.detach k => s.conns[k]?.map fun thread => ((),setThread s k {thread with pc := .ended})
  | s,.fbsChange fb fbs => some ((),{s with fb := fb, fbs := fbs})

/-- The steps that threads can take, with no assertion failing: a thread does
one thing after the other, and takes `fb_lock` when it is free. Resizing and
coalescing leave the framebuffers on their nodes. -/
def Possible (setup : NetSetup) (s : NetServer) : ConnEvent → Prop
  | .accept _ => True
  | .lockFb k => connPc s k=some .starting ∧ s.fbLock=none
  | .lookup k _ _ _ _ => connPc s k=some .lookup
  | .unlockFb k => connPc s k=some .unlocking
  | .alloc k _ _ => connPc s k=some .alloc
  | .receive k pass => connPc s k=some .recv ∧
    ∀ thread∈s.conns[k]?, ∀ out∈connReceive setup s k thread pass, isAborted out.1=false
  | .popRing k => connPc s k=some .failRing
  | .popSocket k => connPc s k=some .failSocket
  | .removeSelf k => connPc s k=some .removeSelf
  | .freeSelf k => connPc s k=some .freeSelf
  | .detach k => connPc s k=some .fail
  | .fbsChange _ fbs => fbs.map Fb.numaNode=s.fbs.map Fb.numaNode

instance (setup : NetSetup) (s : NetServer) : ∀ e, Decidable (Possible setup s e)
  | .accept _ => isTrue trivial
  | .lockFb _ => inferInstanceAs (Decidable (_ ∧ _))
  | .receive k pass => inferInstanceAs (Decidable (connPc s k=some .recv ∧
    ∀ thread∈s.conns[k]?, ∀ out∈connReceive setup s k thread pass, isAborted out.1=false))
  | .lookup _ _ _ _ _ | .unlockFb _ | .alloc _ _ _ | .popRing _ | .popSocket _ | .removeSelf _
  | .freeSelf _ | .detach _ | .fbsChange _ _ => inferInstanceAs (Decidable (_=_))

/-- A server that listens, before the first connection. -/
def listening (fb : Fb) : NetServer := ⟨fb,none,[],⟨fun _ => none,fun _ => llistInit⟩,[]⟩

/-- A thread that has not failed is past a point: `1`, otherwise `0`. -/
def ConnThread.past (thread : ConnThread) (pc : ConnPc) : ℕ :=
  (!thread.failed && decide (pc.rank<thread.pc.rank)).toNat

/-- It has `fb_lock`. -/
def ConnThread.locks (thread : ConnThread) : Bool :=
  thread.failed || thread.pc=.lookup || thread.pc=.unlocking

/-- Its entry is in a list. -/
def ConnThread.listed (thread : ConnThread) : Bool :=
  thread.failed || decide (thread.pc.rank≤ConnPc.removeSelf.rank)

/-- Its structure is there. -/
def ConnThread.there (thread : ConnThread) : Bool :=
  thread.failed || decide (thread.pc.rank≤ConnPc.freeSelf.rank)

/-- What a thread has acquired and given back, among `num` framebuffers. -/
structure Sound (num : ℕ) (thread : ConnThread) : Prop where
  /-- One whose framebuffer was not allocated goes to the last label. -/
  failed : thread.failed=true → thread.pc=.fail ∨ thread.pc=.ended
  /-- Before its allocation there is no ring. -/
  noRing : thread.past .alloc=0 → thread.conn=none
  /-- The others have a framebuffer behind the set-up. -/
  fb : thread.past .lookup=1 → thread.fb<num
  /-- In the receive loop and behind it there is a ring. -/
  ring : thread.pc=.recv ∨ thread.pc=.failRing → thread.conn.isSome=true
  /-- Behind a label, what it gives back was given back. -/
  closed : thread.closed=thread.past .failSocket
  removed : thread.removed=thread.past .removeSelf
  freed : thread.freed=thread.past .freeSelf
  ringFreed : thread.ringFreed=if thread.conn.isSome then thread.past .failRing else 0

/-- Where all threads are, given what the lists hold. -/
structure ConnInv (s : NetServer) (seqs : ℕ → List ℕ) : Prop where
  /-- The lists are these. -/
  represents : Represents s.heap seqs
  /-- Every thread has given back what is behind it. -/
  sound : ∀ thread∈s.conns,Sound s.fbs.length thread
  /-- The holder of `fb_lock`. -/
  lock : ∀ k, s.fbLock=some k ↔ ∃ thread∈s.conns[k]?, thread.locks=true
  /-- The entries of a list. -/
  listed : ∀ l k, k∈seqs l ↔ ∃ thread∈s.conns[k]?, thread.listener=l ∧ thread.listed=true
  /-- The structures. -/
  there : ∀ k, s.heap.entries k≠none ↔ ∃ thread∈s.conns[k]?, thread.there=true

variable {setup : NetSetup} {s s' : NetServer} {seqs seqs' : ℕ → List ℕ} {k : ℕ}
  {thread thread' : ConnThread}

/-- What holds of the thread of a number once one thread has gone on. -/
theorem exists_set {conns : List ConnThread} (hget : conns[k]?=some thread) (thread' : ConnThread)
    (p : ConnThread → Prop) (j : ℕ) :
    (∃ thread∈(conns.set k thread')[j]?, p thread) ↔
      if j=k then p thread' else ∃ thread∈conns[j]?, p thread := by
  have hlt : k<conns.length := (List.getElem?_eq_some_iff.mp hget).1
  by_cases hj : j=k
  · rw [hj,List.getElem?_set_self hlt,if_pos rfl]
    simp
  · rw [List.getElem?_set_ne (Ne.symm hj),if_neg hj]

/-- What holds of it once there is one more. -/
theorem exists_concat (conns : List ConnThread) (thread' : ConnThread) (p : ConnThread → Prop)
    (j : ℕ) :
    (∃ thread∈(conns++[thread'])[j]?, p thread) ↔
      if j=conns.length then p thread' else ∃ thread∈conns[j]?, p thread := by
  by_cases hj : j=conns.length
  · rw [hj,List.getElem?_concat_length,if_pos rfl]
    simp
  · rw [if_neg hj,List.getElem?_append]
    split
    · rfl
    · rw [List.getElem?_eq_none (by simp; omega),List.getElem?_eq_none (by omega)]

/-- More framebuffers are as good. -/
theorem Sound.mono {num num' : ℕ} (h : Sound num thread) (hnum : num≤num') : Sound num' thread :=
  ⟨h.failed,h.noRing,fun hp => Nat.lt_of_lt_of_le (h.fb hp) hnum,h.ring,h.closed,h.removed,h.freed,
    h.ringFreed⟩

/-- A thread that is not at one of the last two labels has not failed. -/
theorem Sound.not_failed {num : ℕ} (h : Sound num thread)
    (hpc : thread.pc≠.fail ∧ thread.pc≠.ended) : thread.failed=false :=
  eq_false_of_ne_true fun hc => (not_or.mpr hpc) (h.failed hc)

/-- The invariant when one thread goes on. -/
theorem ConnInv.set (h : ConnInv s seqs) (hget : s.conns[k]?=some thread)
    (hconns : s'.conns=s.conns.set k thread') (hlistener : thread'.listener=thread.listener)
    (hsound : Sound s'.fbs.length thread') (hfbs : s.fbs.length ≤ s'.fbs.length)
    (hrep : Represents s'.heap seqs')
    (hlock : ∀ j, s'.fbLock=some j ↔ if j=k then thread'.locks=true else s.fbLock=some j)
    (hlisted : ∀ l j, j∈seqs' l ↔
      if j=k then thread.listener=l ∧ thread'.listed=true else j∈seqs l)
    (hthere : ∀ j, s'.heap.entries j≠none ↔
      if j=k then thread'.there=true else s.heap.entries j≠none) : ConnInv s' seqs' where
  represents := hrep
  sound other hother := by
    rw [hconns] at hother
    rcases List.mem_or_eq_of_mem_set hother with hother | rfl
    · exact (h.sound other hother).mono hfbs
    · exact hsound
  lock j := by
    rw [hconns,exists_set hget,hlock,h.lock]
  listed l j := by
    rw [hconns,exists_set hget,hlisted,h.listed,hlistener]
  there j := by
    rw [hconns,exists_set hget,hthere,h.there]

/-- When it keeps its entry. -/
theorem ConnInv.set_entry (h : ConnInv s seqs) (hget : s.conns[k]?=some thread)
    (hconns : s'.conns=s.conns.set k thread') (hlistener : thread'.listener=thread.listener)
    (hsound : Sound s'.fbs.length thread') (hfbs : s.fbs.length ≤ s'.fbs.length)
    (hheap : s'.heap=s.heap)
    (hlock : ∀ j, s'.fbLock=some j ↔ if j=k then thread'.locks=true else s.fbLock=some j)
    (hlisted : thread'.listed=thread.listed) (hthere : thread'.there=thread.there) :
    ConnInv s' seqs := by
  refine h.set hget hconns hlistener hsound hfbs (by rw [hheap]; exact h.represents) hlock
    (fun l j => ?_) fun j => ?_
  · by_cases hj : j=k
    · rw [if_pos hj,hj,h.listed,hlisted]
      simp [hget]
    · rw [if_neg hj]
  · by_cases hj : j=k
    · rw [if_pos hj,hheap,hj,h.there,hthere]
      simp [hget]
    · rw [if_neg hj,hheap]

/-- The lock when a thread keeps it, or does not take it. -/
theorem ConnInv.lock_kept (h : ConnInv s seqs) (hget : s.conns[k]?=some thread)
    (hlocks : thread'.locks=thread.locks) (j : ℕ) :
    s.fbLock=some j ↔ if j=k then thread'.locks=true else s.fbLock=some j := by
  by_cases hj : j=k
  · rw [if_pos hj,hj,h.lock,hlocks]
    simp [hget]
  · rw [if_neg hj]

/-- A thread that goes on without a failed allocation has given back what is
between the two points. -/
theorem Sound.goes {num num' : ℕ} (h : Sound num thread) (hfailed : thread'.failed=false)
    (hnoRing : thread'.past .alloc=0 → thread.past .alloc=0 ∧ thread'.conn=thread.conn)
    (hfb : thread'.past .lookup=1 → thread'.fb<num')
    (hring : thread'.pc=.recv ∨ thread'.pc=.failRing → thread'.conn.isSome=true)
    (hgiven : thread'.closed+thread.past .failSocket=thread.closed+thread'.past .failSocket ∧
      thread'.removed+thread.past .removeSelf=thread.removed+thread'.past .removeSelf ∧
      thread'.freed+thread.past .freeSelf=thread.freed+thread'.past .freeSelf)
    (hringFreed : thread'.ringFreed=if thread'.conn.isSome then thread'.past .failRing else 0) :
    Sound num' thread' where
  failed hc := by simp [hfailed] at hc
  noRing hp := by
    obtain ⟨hbefore,hconn⟩ := hnoRing hp
    rw [hconn,h.noRing hbefore]
  fb := hfb
  ring := hring
  closed := by
    have hclosed := hgiven.1
    rw [h.closed] at hclosed
    omega
  removed := by
    have hremoved := hgiven.2.1
    rw [h.removed] at hremoved
    omega
  freed := by
    have hfreed := hgiven.2.2
    rw [h.freed] at hfreed
    omega
  ringFreed := hringFreed

/-- So is one that keeps its framebuffer and its ring. -/
theorem Sound.goes_kept {num : ℕ} (h : Sound num thread) (hfailed : thread'.failed=false)
    (hsame : thread'.fb=thread.fb ∧ thread'.conn=thread.conn ∧
      thread'.ringFreed=thread.ringFreed)
    (hpc : thread'.pc≠.recv ∧ thread'.pc≠.failRing)
    (hpast : thread'.past .alloc=thread.past .alloc ∧ thread'.past .lookup=thread.past .lookup ∧
      thread'.past .failRing=thread.past .failRing)
    (hgiven : thread'.closed+thread.past .failSocket=thread.closed+thread'.past .failSocket ∧
      thread'.removed+thread.past .removeSelf=thread.removed+thread'.past .removeSelf ∧
      thread'.freed+thread.past .freeSelf=thread.freed+thread'.past .freeSelf) :
    Sound num thread' := by
  obtain ⟨hfb,hconn,hringFreed⟩ := hsame
  obtain ⟨halloc,hlookup,hfailRing⟩ := hpast
  refine h.goes hfailed (fun hp => ?_) (fun hp => ?_) (fun hrun => ?_) hgiven ?_
  · rw [halloc] at hp
    exact ⟨hp,hconn⟩
  · rw [hlookup] at hp
    rw [hfb]
    exact h.fb hp
  · exact absurd hrun (not_or.mpr hpc)
  · rw [hringFreed,hconn,hfailRing]
    exact h.ringFreed

/-- The allocation of the framebuffer has failed in a thread. -/
def HasFailed (k : ℕ) (s : NetServer) : Prop := ∃ thread∈s.conns[k]?, thread.failed=true

/-- The allocation fails in this step. -/
def FailsAlloc (k : ℕ) (s : NetServer) : ConnEvent → Prop
  | .lookup j look node block _ =>
    j=k ∧ fbGetFbOnNode s.fbs look=none ∧ (node=none ∨ block=none)
  | _ => False

instance (k : ℕ) (s : NetServer) : ∀ e, Decidable (FailsAlloc k s e)
  | .lookup j look node block _ => inferInstanceAs (Decidable
    (j=k ∧ fbGetFbOnNode s.fbs look=none ∧ (node=none ∨ block=none)))
  | .accept _ | .lockFb _ | .unlockFb _ | .alloc _ _ _ | .receive _ _ | .popRing _ | .popSocket _
  | .removeSelf _ | .freeSelf _ | .detach _ | .fbsChange _ _ => isFalse not_false

/-- No thread has failed by a step of a thread that allocates no framebuffer. -/
theorem hasFailed_set {e : ConnEvent} {j : ℕ} (hget : s.conns[k]?=some thread)
    (hconns : s'.conns=s.conns.set k thread') (hfailed : thread'.failed=thread.failed)
    (hnot : ¬FailsAlloc j s e) : HasFailed j s' ↔ HasFailed j s ∨ FailsAlloc j s e := by
  rw [or_iff_left hnot,HasFailed,hconns,exists_set hget]
  by_cases hj : j=k
  · rw [if_pos hj,hj,hfailed,HasFailed,hget]
    simp
  · rw [if_neg hj,HasFailed]

/-- The thread of a possible step. -/
theorem of_connPc {pc : ConnPc} (hpc : connPc s k=some pc) :
    ∃ thread, s.conns[k]?=some thread ∧ thread.pc=pc := Option.map_eq_some_iff.mp hpc

/-- Before the last two labels it has not failed. -/
theorem ConnInv.at_pc (h : ConnInv s seqs) {pc : ConnPc} (hpc : connPc s k=some pc)
    (hnot : pc≠.fail ∧ pc≠.ended) :
    ∃ thread, s.conns[k]?=some thread ∧ thread.pc=pc ∧ Sound s.fbs.length thread ∧
      thread.failed=false := by
  obtain ⟨thread,hget,rfl⟩ := of_connPc hpc
  have hsound := h.sound thread (List.mem_of_getElem? hget)
  exact ⟨thread,hget,rfl,hsound,hsound.not_failed hnot⟩

/-- A step succeeds, keeps the invariant, and fails to allocate a framebuffer
exactly for such an event. -/
def Goes (setup : NetSetup) (s : NetServer) (e : ConnEvent) : Prop :=
  ∃ s' seqs, connStep setup s e=some ((),s') ∧ ConnInv s' seqs ∧
    ∀ k, HasFailed k s' ↔ HasFailed k s ∨ FailsAlloc k s e

/-- A step of a thread that keeps what it has. -/
theorem ConnInv.goes_same {e : ConnEvent} (h : ConnInv s seqs) (hget : s.conns[k]?=some thread)
    (hstep : connStep setup s e=some ((),s')) (hconns : s'.conns=s.conns.set k thread')
    (hlistener : thread'.listener=thread.listener) (hsound : Sound s'.fbs.length thread')
    (hfbs : s.fbs.length ≤ s'.fbs.length) (hheap : s'.heap=s.heap) (hfbLock : s'.fbLock=s.fbLock)
    (hsame : thread'.locks=thread.locks ∧ thread'.listed=thread.listed ∧
      thread'.there=thread.there) (hfailed : thread'.failed=thread.failed)
    (hnot : ∀ j, ¬FailsAlloc j s e) : Goes setup s e :=
  ⟨s',seqs,hstep,h.set_entry hget hconns hlistener hsound hfbs hheap
    (fun j => by rw [hfbLock]; exact h.lock_kept hget hsame.1 j) hsame.2.1 hsame.2.2,
    fun j => hasFailed_set hget hconns hfailed (hnot j)⟩

/-- A new connection is appended to the list of its listening thread. -/
theorem ConnInv.goes_accept (h : ConnInv s seqs) (listener : ℕ) :
    Goes setup s (.accept listener) := by
  have hnone : s.conns[s.conns.length]?=none := List.getElem?_eq_none (Nat.le_refl _)
  have hfresh : ∀ l, s.conns.length∉seqs l := by
    intro l hc
    obtain ⟨thread,hthread,_⟩ := (h.listed l _).mp hc
    rw [hnone] at hthread
    cases hthread
  have hrep := @Represents.update _ _ _ h.represents hfresh (some llistEntryInit) fun entry he =>
    (Option.some.inj he).symm
  obtain ⟨heap,happend,happ⟩ := hrep.appended (Function.update_self _ _ _) hfresh listener
  refine ⟨{s with heap := heap, conns := s.conns++[newThread listener]},
    Function.update seqs listener (seqs listener++[s.conns.length]),?_,⟨?_,?_,?_,?_,?_⟩,?_⟩
  · simp only [connStep,happend,Option.map_some]
  · exact hrep.append hfresh happ
  · intro thread hthread
    rcases List.mem_append.mp hthread with hthread | hthread
    · exact h.sound thread hthread
    · rw [List.mem_singleton.mp hthread]
      refine ⟨?_,?_,?_,?_,?_,?_,?_,?_⟩ <;> simp [newThread,ConnThread.past]
  · intro j
    rw [exists_concat,h.lock]
    split
    · rename_i hj
      rw [hj,hnone]
      simp [newThread,ConnThread.locks]
    · rfl
  · intro l j
    rw [exists_concat]
    by_cases hl : l=listener
    · rw [hl,Function.update_self,List.mem_append,List.mem_singleton,h.listed]
      split
      · rename_i hj
        simp [hj,newThread,ConnThread.listed]
      · rename_i hj
        simp [hj]
    · rw [Function.update_of_ne hl,h.listed]
      split
      · rename_i hj
        rw [hj,hnone]
        simp [newThread,Ne.symm hl]
      · rfl
  · intro j
    dsimp only
    rw [exists_concat,ne_eq,happ.there (by simp) j]
    split
    · rename_i hj
      simp [hj,newThread,ConnThread.there]
    · rename_i hj
      dsimp only
      rw [Function.update_of_ne hj]
      exact h.there j
  · intro j
    rw [HasFailed,exists_concat]
    split
    · rename_i hj
      rw [HasFailed,hj,hnone]
      simp [newThread,FailsAlloc]
    · rename_i hj
      simp [HasFailed,FailsAlloc]

/-- A thread removes its entry from the list. -/
theorem ConnInv.goes_removeSelf (h : ConnInv s seqs) (hpc : connPc s k=some .removeSelf) :
    Goes setup s (.removeSelf k) := by
  obtain ⟨thread,hget,hpc,hsound,hfailed⟩ := h.at_pc hpc (by simp)
  have hmem : k∈seqs thread.listener :=
    (h.listed _ k).mpr ⟨thread,hget,rfl,by simp [ConnThread.listed,hpc]⟩
  obtain ⟨entry,heap,hentry,hremove,hrem⟩ := h.represents.removed hmem
  have hstep : connStep setup s (.removeSelf k)=some ((),setThread {s with heap := heap} k
      {thread with pc := .freeSelf, removed := thread.removed+1}) := by
    simp only [connStep,hget,hremove,Option.bind_some,Option.map_some]
  refine ⟨_,Function.update seqs thread.listener ((seqs thread.listener).erase k),hstep,
    h.set hget rfl rfl ?_ (Nat.le_refl _) (h.represents.remove hmem hentry hrem) (fun j => ?_)
      (fun l j => ?_) fun j => ?_,fun j => ?_⟩
  · refine hsound.goes_kept hfailed ⟨rfl,rfl,rfl⟩ (by simp) ?_ ?_
    · simp [ConnThread.past,hpc,hfailed]
    · simp [ConnThread.past,hpc,hfailed]
  · exact h.lock_kept hget (by simp [ConnThread.locks,hpc]) j
  · by_cases hl : l=thread.listener
    · rw [hl,Function.update_self,(h.represents.linked _).nodup.mem_erase_iff]
      split
      · rename_i hj
        simp [hj,ConnThread.listed,hfailed]
      · rename_i hj
        simp [hj]
    · rw [Function.update_of_ne hl]
      split
      · rename_i hj
        rw [hj,h.listed,hget]
        simp [Ne.symm hl]
      · rfl
  · dsimp only [setThread]
    rw [ne_eq,hrem.there (h.represents.there hmem) j]
    split
    · rename_i hj
      rw [hj]
      simp [ConnThread.there,hentry]
    · rfl
  · exact hasFailed_set hget rfl rfl not_false

/-- A thread frees its structure. -/
theorem ConnInv.goes_freeSelf (h : ConnInv s seqs) (hpc : connPc s k=some .freeSelf) :
    Goes setup s (.freeSelf k) := by
  obtain ⟨thread,hget,hpc,hsound,hfailed⟩ := h.at_pc hpc (by simp)
  have hout : ∀ l, k∉seqs l := by
    intro l
    rw [h.listed,hget]
    simp [ConnThread.listed,hpc,hfailed]
  obtain ⟨entry,hentry⟩ := Option.ne_none_iff_exists'.mp ((h.there k).mpr
    ⟨thread,hget,by simp [ConnThread.there,hpc]⟩)
  have hstep : connStep setup s (.freeSelf k)=some ((),setThread
      {s with heap := {s.heap with entries := Function.update s.heap.entries k none}} k
      {thread with pc := .fail, freed := thread.freed+1}) := by
    simp only [connStep,Heap.free,hget,hentry,Option.bind_some,Option.map_some]
  refine ⟨_,seqs,hstep,h.set hget rfl rfl ?_ (Nat.le_refl _)
    (h.represents.update hout fun _ hc => by cases hc) (fun j => ?_) (fun l j => ?_)
      fun j => ?_,fun j => ?_⟩
  · refine hsound.goes_kept hfailed ⟨rfl,rfl,rfl⟩ (by simp) ?_ ?_
    · simp [ConnThread.past,hpc,hfailed]
    · simp [ConnThread.past,hpc,hfailed]
  · exact h.lock_kept hget (by simp [ConnThread.locks,hpc]) j
  · split
    · rename_i hj
      rw [hj]
      simp [hout l,ConnThread.listed,hfailed]
    · rfl
  · dsimp only [setThread]
    split
    · rename_i hj
      rw [hj,Function.update_self]
      simp [ConnThread.there,hfailed]
    · rename_i hj
      rw [Function.update_of_ne hj]
  · exact hasFailed_set hget rfl rfl not_false

/-- A thread takes `fb_lock`. -/
theorem ConnInv.goes_lockFb (h : ConnInv s seqs) (hpc : connPc s k=some .starting)
    (hfree : s.fbLock=none) : Goes setup s (.lockFb k) := by
  obtain ⟨thread,hget,hpc,hsound,hfailed⟩ := h.at_pc hpc (by simp)
  have hstep : connStep setup s (.lockFb k)=some ((),setThread {s with fbLock := some k} k
      {thread with pc := .lookup}) := by
    simp only [connStep,hget,Option.map_some]
  refine ⟨_,seqs,hstep,h.set_entry hget rfl rfl ?_ (Nat.le_refl _) rfl (fun j => ?_) ?_ ?_,
    fun j => ?_⟩
  · refine hsound.goes hfailed ?_ (by simp [ConnThread.past]) (by simp) ?_ ?_
    · simp [ConnThread.past,hpc,hfailed]
    · simp [ConnThread.past,hpc,hfailed]
    · simpa [ConnThread.past,hpc] using hsound.ringFreed
  · rw [hfree]
    simp [setThread,ConnThread.locks,eq_comm]
  · simp [ConnThread.listed,hpc]
  · simp [ConnThread.there,hpc]
  · exact hasFailed_set hget rfl rfl not_false

/-- It gives it back. -/
theorem ConnInv.goes_unlockFb (h : ConnInv s seqs) (hpc : connPc s k=some .unlocking) :
    Goes setup s (.unlockFb k) := by
  obtain ⟨thread,hget,hpc,hsound,hfailed⟩ := h.at_pc hpc (by simp)
  have hlock : s.fbLock=some k := (h.lock k).mpr ⟨thread,hget,by simp [ConnThread.locks,hpc]⟩
  have hstep : connStep setup s (.unlockFb k)=some ((),setThread {s with fbLock := none} k
      {thread with pc := .alloc}) := by
    simp only [connStep,hget,Option.map_some]
  refine ⟨_,seqs,hstep,h.set_entry hget rfl rfl ?_ (Nat.le_refl _) rfl (fun j => ?_) ?_ ?_,
    fun j => ?_⟩
  · refine hsound.goes_kept hfailed ⟨rfl,rfl,rfl⟩ (by simp) ?_ ?_
    · simp [ConnThread.past,hpc,hfailed]
    · simp [ConnThread.past,hpc,hfailed]
  · rw [hlock]
    simp [setThread,ConnThread.locks,hfailed,eq_comm]
  · simp [ConnThread.listed,hpc]
  · simp [ConnThread.there,hpc]
  · exact hasFailed_set hget rfl rfl not_false

/-- It looks for a framebuffer, and keeps the lock when there is none. -/
theorem ConnInv.goes_lookup (h : ConnInv s seqs) (hpc : connPc s k=some .lookup) (look : ℕ)
    (node : Option UInt32) (block : Option (ℕ → FbPixel)) (numaNode : ℕ) :
    Goes setup s (.lookup k look node block numaNode) := by
  obtain ⟨thread,hget,hpc,hsound,hfailed⟩ := h.at_pc hpc (by simp)
  have hsame : ∀ {fb}, let thread' : ConnThread := {thread with pc := .unlocking, fb := fb}
      thread'.locks=thread.locks ∧ thread'.listed=thread.listed ∧ thread'.there=thread.there := by
    simp [ConnThread.locks,ConnThread.listed,ConnThread.there,hpc]
  have hgoes : ∀ {num fb}, fb<num → Sound num {thread with pc := .unlocking, fb := fb} := by
    intro num fb hfb
    refine hsound.goes hfailed ?_ (fun _ => hfb) (by simp) ?_ ?_
    · simp [ConnThread.past,hpc,hfailed]
    · simp [ConnThread.past,hpc,hfailed]
    · simpa [ConnThread.past,hpc] using hsound.ringFreed
  have hstep : connStep setup s (.lookup k look node block numaNode)=
      some ((),connLookup setup s k thread look node block numaNode) := by
    simp only [connStep,hget,Option.map_some]
  unfold connLookup at hstep
  cases hfb : fbGetFbOnNode s.fbs look with
  | some i =>
    rw [hfb] at hstep
    have hi : i<s.fbs.length := (List.findIdx?_eq_some_iff_getElem.mp hfb).1
    exact h.goes_same hget hstep rfl rfl (hgoes hi) (Nat.le_refl _) rfl rfl hsame rfl
      fun j hj => by simp [FailsAlloc,hfb] at hj
  | none =>
    rw [hfb] at hstep
    dsimp only at hstep
    cases halloc : fbAlloc setup.build.host node block numaNode s.fb.size with
    | ok fb =>
      rw [halloc] at hstep
      refine h.goes_same hget hstep rfl rfl (hgoes (by simp [setThread])) (by simp [setThread]) rfl rfl
        hsame rfl fun j hj => ?_
      cases node <;> cases block <;> simp [fbAlloc,FailsAlloc] at halloc hj
    | error err =>
      rw [halloc] at hstep
      have hfails : node=none ∨ block=none := by
        cases node <;> cases block <;> simp [fbAlloc] at halloc ⊢
      refine ⟨_,seqs,hstep,h.set_entry hget rfl rfl ?_ (Nat.le_refl _) rfl
        (h.lock_kept hget ?_) ?_ ?_,fun j => ?_⟩
      · have hclosed := hsound.closed
        have hremoved := hsound.removed
        have hfreed := hsound.freed
        have hringFreed := hsound.ringFreed
        have hnoRing := hsound.noRing (by simp [ConnThread.past,hpc])
        refine ⟨fun _ => Or.inl rfl,fun _ => hnoRing,by simp [ConnThread.past],by simp,?_,?_,?_,?_⟩
        · simpa [ConnThread.past,hpc] using hclosed
        · simpa [ConnThread.past,hpc] using hremoved
        · simpa [ConnThread.past,hpc] using hfreed
        · simpa [ConnThread.past,hpc] using hringFreed
      · simp [ConnThread.locks,hpc]
      · simp [ConnThread.listed,hpc]
      · simp [ConnThread.there,hpc]
      · dsimp only [HasFailed,setThread]
        rw [exists_set hget]
        by_cases hj : j=k
        · simp [hj,FailsAlloc,hfb,hfails]
        · simp [hj,Ne.symm hj,FailsAlloc]

/-- It allocates its ring. -/
theorem ConnInv.goes_alloc (h : ConnInv s seqs) (hpc : connPc s k=some .alloc) (node : Bool)
    (block : Option (Memory UInt8)) : Goes setup s (.alloc k node block) := by
  obtain ⟨thread,hget,hpc,hsound,hfailed⟩ := h.at_pc hpc (by simp)
  have hfb := hsound.fb (by simp [ConnThread.past,hpc,hfailed])
  have hnoRing := hsound.noRing (by simp [ConnThread.past,hpc])
  have hringFreed : thread.ringFreed=0 := by
    simpa [ConnThread.past,hpc] using hsound.ringFreed
  have hstep : connStep setup s (.alloc k node block)=
      some ((),connAlloc setup s k thread node block) := by
    simp only [connStep,hget,Option.map_some]
  unfold connAlloc at hstep
  cases halloc : ringAlloc node block setup.ringSize with
  | error err =>
    rw [halloc] at hstep
    refine h.goes_same hget hstep rfl rfl ?_ (Nat.le_refl _) rfl rfl ?_ rfl fun _ => not_false
    · refine hsound.goes hfailed ?_ (fun _ => hfb) (by simp) ?_ ?_
      · simp [ConnThread.past,hpc,hfailed]
      · simp [ConnThread.past,hpc,hfailed]
      · simpa [hnoRing] using hringFreed
    · simp [ConnThread.locks,ConnThread.listed,ConnThread.there,hpc]
  | ok ring =>
    rw [halloc] at hstep
    refine h.goes_same hget hstep rfl rfl ?_ (Nat.le_refl _) rfl rfl ?_ rfl fun _ => not_false
    · refine hsound.goes hfailed ?_ (fun _ => hfb) (by simp) ?_ ?_
      · simp [ConnThread.past,hpc,hfailed]
      · simp [ConnThread.past,hpc,hfailed]
      · simp [ConnThread.past,hringFreed]
    · simp [ConnThread.locks,ConnThread.listed,ConnThread.there,hpc]

/-- It goes through a pass of its receive loop. -/
theorem ConnInv.goes_receive (h : ConnInv s seqs) {pass : Recv}
    (hpossible : Possible setup s (.receive k pass)) : Goes setup s (.receive k pass) := by
  obtain ⟨hpc,haborted⟩ := hpossible
  obtain ⟨thread,hget,hpc,hsound,hfailed⟩ := h.at_pc hpc (by simp)
  have hfb := hsound.fb (by simp [ConnThread.past,hpc,hfailed])
  obtain ⟨conn,hconn⟩ := Option.isSome_iff_exists.mp (hsound.ring (Or.inl hpc))
  have hringFreed : thread.ringFreed=0 := by
    simpa [ConnThread.past,hpc] using hsound.ringFreed
  obtain ⟨out,hout⟩ : ∃ out, connReceive setup s k thread pass=some out := by
    rw [connReceive,hconn,List.getElem?_eq_getElem hfb]
    exact ⟨_,rfl⟩
  have hnot : isAborted out.1=false := haborted thread hget out hout
  have hstep : connStep setup s (.receive k pass)=some ((),setThread
      {s with fbs := s.fbs.set thread.fb out.2.session.fb} k {thread with
        pc := if out.1=.reading then .recv else .failRing
        conn := some out.2}) := by
    simp only [connStep,hget,hout,hnot,Option.bind_some,Bool.false_eq_true,if_false]
  refine h.goes_same hget hstep rfl rfl ?_ (by simp [setThread]) rfl rfl ?_ rfl fun _ => not_false
  · refine hsound.goes hfailed ?_ (fun _ => by simpa [setThread] using hfb) (by simp) ?_ ?_
    · split <;> simp [ConnThread.past,hfailed]
    · split <;> simp [ConnThread.past,hpc,hfailed]
    · split <;> simp [ConnThread.past,hringFreed]
  · split <;> simp [ConnThread.locks,ConnThread.listed,ConnThread.there,hpc]

/-- It frees its ring. -/
theorem ConnInv.goes_popRing (h : ConnInv s seqs) (hpc : connPc s k=some .failRing) :
    Goes setup s (.popRing k) := by
  obtain ⟨thread,hget,hpc,hsound,hfailed⟩ := h.at_pc hpc (by simp)
  have hring := hsound.ring (Or.inr hpc)
  have hringFreed : thread.ringFreed=0 := by
    simpa [ConnThread.past,hpc] using hsound.ringFreed
  have hstep : connStep setup s (.popRing k)=some ((),setThread s k
      {thread with pc := .failSocket, ringFreed := thread.ringFreed+1}) := by
    simp only [connStep,hget,Option.map_some]
  refine h.goes_same hget hstep rfl rfl ?_ (Nat.le_refl _) rfl rfl ?_ rfl fun _ => not_false
  · refine hsound.goes hfailed ?_ ?_ (by simp) ?_ ?_
    · simp [ConnThread.past,hfailed]
    · intro _
      exact hsound.fb (by simp [ConnThread.past,hpc,hfailed])
    · simp [ConnThread.past,hpc]
    · simp [ConnThread.past,hfailed,hring,hringFreed]
  · simp [ConnThread.locks,ConnThread.listed,ConnThread.there,hpc]

/-- It closes its socket. -/
theorem ConnInv.goes_popSocket (h : ConnInv s seqs) (hpc : connPc s k=some .failSocket) :
    Goes setup s (.popSocket k) := by
  obtain ⟨thread,hget,hpc,hsound,hfailed⟩ := h.at_pc hpc (by simp)
  have hstep : connStep setup s (.popSocket k)=some ((),setThread s k
      {thread with pc := .removeSelf, closed := thread.closed+1}) := by
    simp only [connStep,hget,Option.map_some]
  refine h.goes_same hget hstep rfl rfl ?_ (Nat.le_refl _) rfl rfl ?_ rfl fun _ => not_false
  · refine hsound.goes_kept hfailed ⟨rfl,rfl,rfl⟩ (by simp) ?_ ?_
    · simp [ConnThread.past,hpc,hfailed]
    · simp [ConnThread.past,hpc,hfailed]
  · simp [ConnThread.locks,ConnThread.listed,ConnThread.there,hpc]

/-- It ends, and keeps what it has not given back before. -/
theorem ConnInv.goes_detach (h : ConnInv s seqs) (hpc : connPc s k=some .fail) :
    Goes setup s (.detach k) := by
  obtain ⟨thread,hget,hpc⟩ := of_connPc hpc
  have hsound := h.sound thread (List.mem_of_getElem? hget)
  have hpast : ∀ pc, pc≠.fail → pc≠.ended →
      ConnThread.past {thread with pc := .ended} pc=thread.past pc := by
    intro pc _ _
    cases pc <;> simp [ConnThread.past,hpc] at *
  have hstep : connStep setup s (.detach k)=
      some ((),setThread s k {thread with pc := .ended}) := by
    simp only [connStep,hget,Option.map_some]
  refine h.goes_same hget hstep rfl rfl ?_ (Nat.le_refl _) rfl rfl ?_ rfl fun _ => not_false
  · refine ⟨fun _ => Or.inr rfl,fun hp => ?_,fun hp => ?_,by simp,?_,?_,?_,?_⟩
    · rw [hpast .alloc (by simp) (by simp)] at hp
      exact hsound.noRing hp
    · rw [hpast .lookup (by simp) (by simp)] at hp
      exact hsound.fb hp
    · rw [hpast .failSocket (by simp) (by simp)]
      exact hsound.closed
    · rw [hpast .removeSelf (by simp) (by simp)]
      exact hsound.removed
    · rw [hpast .freeSelf (by simp) (by simp)]
      exact hsound.freed
    · rw [hpast .failRing (by simp) (by simp)]
      exact hsound.ringFreed
  · simp [ConnThread.locks,ConnThread.listed,ConnThread.there,hpc]

/-- A change of the framebuffers leaves the threads alone. -/
theorem ConnInv.goes_fbsChange (h : ConnInv s seqs) (fb : Fb) {fbs : List Fb}
    (hnodes : fbs.map Fb.numaNode=s.fbs.map Fb.numaNode) : Goes setup s (.fbsChange fb fbs) := by
  have hlength : fbs.length=s.fbs.length := by simpa using congrArg List.length hnodes
  refine ⟨{s with fb := fb, fbs := fbs},seqs,rfl,
    ⟨h.represents,fun thread hthread => ?_,h.lock,h.listed,h.there⟩,
    fun _ => (or_iff_left not_false).symm⟩
  exact (h.sound thread hthread).mono (Nat.le_of_eq hlength.symm)

/-- Every possible step succeeds and keeps the invariant. -/
theorem ConnInv.goes {e : ConnEvent} (h : ConnInv s seqs) (hpossible : Possible setup s e) :
    Goes setup s e := by
  cases e with
  | accept listener => exact h.goes_accept listener
  | lockFb k => exact h.goes_lockFb hpossible.1 hpossible.2
  | lookup k look node block numaNode => exact h.goes_lookup hpossible look node block numaNode
  | unlockFb k => exact h.goes_unlockFb hpossible
  | alloc k node block => exact h.goes_alloc hpossible node block
  | receive k pass => exact h.goes_receive hpossible
  | popRing k => exact h.goes_popRing hpossible
  | popSocket k => exact h.goes_popSocket hpossible
  | removeSelf k => exact h.goes_removeSelf hpossible
  | freeSelf k => exact h.goes_freeSelf hpossible
  | detach k => exact h.goes_detach hpossible
  | fbsChange fb fbs => exact h.goes_fbsChange fb hpossible

/-- Before the first connection nothing is held. -/
theorem connInv_listening (fb : Fb) : ConnInv (listening fb) fun _ => [] where
  represents := ⟨fun _ => rfl,fun _ => rfl,fun _ => linked_nil _ _,
    fun _ _ h => absurd h List.not_mem_nil,fun _ _ h => by cases h⟩
  sound _ h := absurd h List.not_mem_nil
  lock k := by simp [listening]
  listed l k := by simp [listening]
  there k := by simp [listening]

/-- What a thread that has ended has given back: `fb_lock`, its socket, its
entry, its structure, and its ring if it had one. -/
structure GivenBack (s : NetServer) (k : ℕ) (thread : ConnThread) : Prop where
  unlocked : s.fbLock≠some k
  closed : thread.closed=1
  removed : thread.removed=1
  freed : thread.freed=1
  gone : s.heap.entries k=none
  ringFreed : thread.ringFreed=if thread.conn.isSome then 1 else 0

/-- What the others find. -/
structure LeftUsable (s : NetServer) : Prop where
  /-- The holder of `fb_lock` is about to give it back. -/
  unlocks : ∀ k∈s.fbLock,connPc s k=some .lookup ∨ connPc s k=some .unlocking
  /-- `net_listen_thread_cleanup_threadlist` waits for the thread of the first
  entry only when that has not ended. -/
  waits : ∀ l, ∀ k∈(s.heap.lists l).head, ∃ pc∈connPc s k, pc≠.ended

/-- No allocation of a framebuffer fails in a thread. -/
def AllocWorks (setup : NetSetup) (fb : Fb) (events : List ConnEvent) (k : ℕ) : Prop :=
  ∀ before e after replies s, events=before++e::after →
    run (connStep setup) (listening fb) before=some (replies,s) → ¬FailsAlloc k s e

/-- An ended thread has given everything back unless it has failed. -/
theorem ConnInv.givenBack (h : ConnInv s seqs) (hget : s.conns[k]?=some thread)
    (hended : thread.pc=.ended) : GivenBack s k thread ↔ ¬HasFailed k s := by
  have hsound := h.sound thread (List.mem_of_getElem? hget)
  have hhas : HasFailed k s ↔ thread.failed=true := by simp [HasFailed,hget]
  constructor
  · intro hback hfailed
    have hclosed := hsound.closed.symm.trans hback.closed
    simp [ConnThread.past,hhas.mp hfailed] at hclosed
  · intro hnot
    have hfailed : thread.failed=false := eq_false_of_ne_true fun hc => hnot (hhas.mpr hc)
    have hpast : ∀ pc, pc≠.ended → thread.past pc=1 := by
      intro pc hpc
      cases pc <;> simp [ConnThread.past,hfailed,hended] at *
    refine ⟨fun hlock => ?_,?_,?_,?_,?_,?_⟩
    · rw [h.lock,hget] at hlock
      simp [ConnThread.locks,hfailed,hended] at hlock
    · rw [hsound.closed,hpast _ (by simp)]
    · rw [hsound.removed,hpast _ (by simp)]
    · rw [hsound.freed,hpast _ (by simp)]
    · by_contra hc
      rw [←ne_eq,h.there,hget] at hc
      simp [ConnThread.there,hfailed,hended] at hc
    · rw [hsound.ringFreed,hpast _ (by simp)]

/-- The others find everything usable unless a thread has failed. -/
theorem ConnInv.leftUsable (h : ConnInv s seqs) : LeftUsable s ↔ ∀ k, ¬HasFailed k s := by
  constructor
  · rintro husable k ⟨thread,hget,hfailed⟩
    have hlock : s.fbLock=some k := (h.lock k).mpr ⟨thread,hget,by simp [ConnThread.locks,hfailed]⟩
    have hunlocks := husable.unlocks k hlock
    have hpc := (h.sound thread (List.mem_of_getElem? hget)).failed hfailed
    rw [connPc,show s.conns[k]?=some thread from hget] at hunlocks
    rcases hpc with hpc | hpc <;> simp [hpc] at hunlocks
  · intro hnot
    refine ⟨fun k hlock => ?_,fun l k hhead => ?_⟩
    · obtain ⟨thread,hget,hlocks⟩ := (h.lock k).mp hlock
      have hfailed : thread.failed=false :=
        eq_false_of_ne_true fun hc => hnot k ⟨thread,hget,hc⟩
      rw [connPc,show s.conns[k]?=some thread from hget]
      simpa [ConnThread.locks,hfailed] using hlocks
    · rw [h.represents.head] at hhead
      obtain ⟨thread,hget,_,hlisted⟩ := (h.listed l k).mp (List.mem_of_head? hhead)
      have hfailed : thread.failed=false :=
        eq_false_of_ne_true fun hc => hnot k ⟨thread,hget,hc⟩
      refine ⟨thread.pc,by rw [connPc,show s.conns[k]?=some thread from hget]; rfl,fun hended => ?_⟩
      simp [ConnThread.listed,hfailed,hended] at hlisted

/-- Every run of the connection threads succeeds. A thread that has ended has
given back everything if and only if no allocation of a framebuffer failed in
it, and the others are not kept from going on if and only if that is so for
all threads. -/
theorem given_back_iff {fb : Fb} {events : List ConnEvent}
    (hadm : Admitted (Possible setup) (connStep setup) (listening fb) events) :
    ∃ replies s, run (connStep setup) (listening fb) events=some (replies,s) ∧
      (∀ k, ∀ thread∈s.conns[k]?, thread.pc=.ended →
        (GivenBack s k thread ↔ AllocWorks setup fb events k)) ∧
      (LeftUsable s ↔ ∀ k, AllocWorks setup fb events k) := by
  have hgoes : ∀ s e, (∃ seqs, ConnInv s seqs) → Possible setup s e →
      ∃ r s', connStep setup s e=some (r,s') ∧ ∃ seqs, ConnInv s' seqs := by
    rintro s e ⟨seqs,h⟩ hpossible
    obtain ⟨s',seqs',hstep,hinv,_⟩ := h.goes hpossible
    exact ⟨(),s',hstep,seqs',hinv⟩
  have hfails : ∀ k s e r s', (∃ seqs, ConnInv s seqs) → Possible setup s e →
      connStep setup s e=some (r,s') →
      (∃ seqs, ConnInv s' seqs) ∧ (HasFailed k s' ↔ HasFailed k s ∨ FailsAlloc k s e) := by
    rintro k s e r s' ⟨seqs,h⟩ hpossible hstep
    obtain ⟨t,seqs',hstep',hinv,hfailed⟩ := h.goes hpossible
    rw [hstep'] at hstep
    cases hstep
    exact ⟨⟨seqs',hinv⟩,hfailed k⟩
  have hstart : ∃ seqs, ConnInv (listening fb) seqs := ⟨_,connInv_listening fb⟩
  obtain ⟨replies,s,hrun,seqs,hinv⟩ := run_total hgoes hstart hadm
  have hworks : ∀ k, ¬HasFailed k s ↔ AllocWorks setup fb events k := by
    intro k
    have hoccurred := run_occurred (hfails k) hstart hadm hrun
    rw [or_iff_right (by simp [HasFailed,listening])] at hoccurred
    rw [hoccurred,AllocWorks]
    push Not
    rfl
  refine ⟨replies,s,hrun,fun k thread hget hended => ?_,?_⟩
  · rw [hinv.givenBack hget hended,hworks]
  · rw [hinv.leftUsable]
    exact forall_congr' hworks

/-- Sockets that take everything. -/
def plainNet : NetSetup := ⟨(plainEnv 4 4).build,64,fun _ => takingSocket⟩

/-- Set-up of the only connection, up to its framebuffer. -/
def setUpEvents (block : Option (ℕ → FbPixel)) : List ConnEvent :=
  [.accept 0,.lockFb 0,.lookup 0 0 (some 0) block 0]

/-- The client closes the connection. -/
def closeEvents : List ConnEvent :=
  [.unlockFb 0,.alloc 0 true (some fun _ => 0),.receive 0 .closed,.popRing 0,.popSocket 0,
    .removeSelf 0,.freeSelf 0,.detach 0]

/-- Everything is given back. -/
theorem given_back_closed :
    ∃ replies s, run (connStep plainNet) (listening (blankFb 4 4))
        (setUpEvents (some fun _ => ⟨0,0,0,0⟩)++closeEvents)=some (replies,s) ∧
      (∃ thread∈s.conns[0]?, thread.pc=.ended ∧ GivenBack s 0 thread) := by
  have hadm : Admitted (Possible plainNet) (connStep plainNet) (listening (blankFb 4 4))
      (setUpEvents (some fun _ => ⟨0,0,0,0⟩)++closeEvents) := by decide +kernel
  have hworks : Admitted (fun s e => ¬FailsAlloc 0 s e) (connStep plainNet)
      (listening (blankFb 4 4)) (setUpEvents (some fun _ => ⟨0,0,0,0⟩)++closeEvents) := by
    decide +kernel
  have hend : (run (connStep plainNet) (listening (blankFb 4 4))
      (setUpEvents (some fun _ => ⟨0,0,0,0⟩)++closeEvents)).map (fun out => connPc out.2 0)=
      some (some .ended) := by decide +kernel
  obtain ⟨replies,s,hrun,hback,_⟩ := given_back_iff hadm
  rw [hrun,Option.map_some,Option.some.injEq] at hend
  obtain ⟨thread,hget,hended⟩ := of_connPc hend
  exact ⟨replies,s,hrun,thread,hget,hended,
    (hback 0 thread hget hended).mpr (admitted_iff.mp hworks)⟩

/-- The framebuffer is not allocated, and the thread ends. Its connection is
not closed, it still has `fb_lock`, and its entry stays in the list. -/
theorem failed_alloc_keeps :
    Admitted (Possible plainNet) (connStep plainNet) (listening (blankFb 4 4))
        (setUpEvents none++[.detach 0]) ∧
      ∃ replies s thread, run (connStep plainNet) (listening (blankFb 4 4))
          (setUpEvents none++[.detach 0])=some (replies,s) ∧
        s.conns[0]?=some thread ∧ thread.pc=.ended ∧ s.fbLock=some 0 ∧ thread.closed=0 ∧
        thread.removed=0 ∧ thread.freed=0 ∧ (s.heap.lists 0).head=some 0 :=
  ⟨by decide +kernel,_,_,_,rfl,rfl,rfl,rfl,rfl,rfl,rfl,rfl⟩

end Shoreline.ConnectionThread
