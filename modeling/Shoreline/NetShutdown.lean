import Shoreline.ConnectionThread

/-!
# Shutting the network down

`net_kill_threads` cancels and joins one listening thread after the other. A
listening thread that leaves its loop cancels and joins the threads of its
list, the first entry first, until the list is empty. The threads act on a
cancellation where POSIX lets them: a listening thread in `accept`, in `close`, in
its messages, with `list_lock` held in one of them, and in `pthread_join`; a
connection thread in its set-up, in the receive loop, in a message behind it, and
in the `close` of its socket.
-/

namespace Shoreline.NetShutdown

open CircularMemory RingBuffer Framebuffer NetConnection StateMachine LinkedSequence LinkedList
  ConnectionThread

/-- How far `net_listen_thread` is. -/
inductive ListenPc where
  /-- In front of `llist_alloc`. -/
  | starting
  /-- At `accept`. -/
  | accepting
  /-- In the message that a thread could not be created. -/
  | complaining
  /-- In another message about a connection that gets no thread, or in its
  `close`. -/
  | refusing
  /-- In `net_listen_thread_cleanup_threadlist`, in front of the first entry. -/
  | tearing
  /-- It has cancelled this thread and unlocked the list. -/
  | reading (k : ℕ)
  /-- It has the handle of this thread for `pthread_join`. -/
  | entering (k : ℕ)
  /-- It waits in `pthread_join` for this thread. -/
  | joining (k : ℕ)
  | ended
  deriving DecidableEq

/-- `struct net_thread` with its thread. -/
structure Listener where
  pc : ListenPc
  /-- It holds `list_lock`. All others only hold it within a step. -/
  locked : Bool
  /-- `pthread_cancel` was called for it. -/
  cancelled : Bool
  /-- It acts on that, so that nothing else cancels it. -/
  acting : Bool
  /-- History: it was cancelled in the middle of its cleanup. -/
  cut : Bool
  deriving DecidableEq

/-- What became of a connection thread by cancellation. -/
structure Fate where
  /-- `pthread_cancel` was called for it. -/
  cancelled : Bool
  /-- It acts on that: its cleanup handlers run. -/
  acting : Bool
  /-- It has ended in its set-up, where no handler is pushed. -/
  lost : Bool
  /-- It was cancelled in the `close` of its socket. -/
  unclosed : Bool
  /-- No thread has its handle any more: it was joined, or detached while
  nobody waited for it. -/
  gone : Bool
  deriving DecidableEq

/-- How far `net_kill_threads` is. -/
inductive KillPc where
  /-- Not called. -/
  | serving
  /-- So many threads are left. -/
  | next (left : ℕ)
  /-- It waits in `pthread_join` for this thread. -/
  | waiting (l : ℕ)
  deriving DecidableEq

/-- The threads of a net. -/
structure NetThreads where
  /-- The connection threads, and what they share. -/
  net : NetServer
  /-- `net->threads`. -/
  listeners : List Listener
  killer : KillPc
  /-- By the number of the connection. -/
  fates : ℕ → Fate

/-- A step of a thread, with the outcomes of the calls in it. -/
inductive ThreadEvent where
  /-- An ordinary step of a connection thread, or a new connection. -/
  | conn (e : ConnEvent)
  /-- `llist_alloc` of a listening thread. -/
  | listAlloc (l : ℕ) (list : Bool)
  /-- A connection for which there is no memory, or a message about one that is
  not behind it when the thread is cancelled. -/
  | refuse (l : ℕ)
  | refused (l : ℕ)
  /-- A connection for which there is no thread, and behind the message. -/
  | complain (l : ℕ)
  | complained (l : ℕ)
  /-- `accept` has failed, or the net is being shut down. -/
  | leave (l : ℕ)
  /-- A listening thread acts on its cancellation. -/
  | actListen (l : ℕ)
  | cancelHead (l : ℕ)
  | readHandle (l k : ℕ)
  | enterJoin (l k : ℕ)
  | join (l k : ℕ)
  /-- A listening thread is cancelled where it waits for a connection thread. -/
  | cutJoin (l k : ℕ)
  /-- A connection thread acts on its cancellation. -/
  | act (k : ℕ)
  | actSetUp (k : ℕ)
  | cutClose (k : ℕ)
  /-- Start of `net_kill_threads`. -/
  | kill
  | cancelListener (l : ℕ)
  | joinListener (l : ℕ)

/-- How far a listening thread is. -/
def listenPc (s : NetThreads) (l : ℕ) : Option ListenPc := s.listeners[l]?.map Listener.pc

/-- A listening thread goes on. -/
def setListener (s : NetThreads) (l : ℕ) (f : Listener → Listener) : NetThreads :=
  {s with listeners := s.listeners.modify l f}

/-- It goes to this point. -/
def goListener (s : NetThreads) (l : ℕ) (pc : ListenPc) : NetThreads :=
  setListener s l fun listener => {listener with pc := pc}

/-- Something becomes of a connection thread. -/
def setFate (s : NetThreads) (k : ℕ) (f : Fate → Fate) : NetThreads :=
  {s with fates := Function.update s.fates k (f (s.fates k))}

/-- A listening thread waits in `pthread_join` for this thread. -/
def isJoined (s : NetThreads) (k : ℕ) : Bool :=
  s.listeners.any fun listener => listener.pc=.joining k

/-- A connection thread has ended. -/
def terminated (s : NetThreads) (k : ℕ) : Bool :=
  (s.fates k).lost || connPc s.net k=some .ended || (s.fates k).acting && connPc s.net k=some .fail

/-- An ordinary step of a connection thread. One that detaches itself can no
longer be joined, unless somebody waits for it already. -/
def connGoes (setup : NetSetup) (s : NetThreads) (e : ConnEvent) : Option NetThreads :=
  (connStep setup s.net e).map fun out =>
    let s := {s with net := out.2}
    match e with
    | .detach k => if isJoined s k then s else setFate s k fun fate => {fate with gone := true}
    | _ => s

/-- `net_listen_thread_cleanup_threadlist` with the list locked: cancel the
thread of the first entry, or free the list. A thread without a handle cannot
be cancelled. -/
def cancelHead (s : NetThreads) (l : ℕ) : Option NetThreads :=
  match (s.net.heap.lists l).head with
  | none => some (goListener s l .ended)
  | some k => (s.net.heap.entries k).bind fun _ =>
    if (s.fates k).gone then none
    else some (goListener (setFate s k fun fate => {fate with cancelled := true}) l (.reading k))

/-- The read of `conn_thread->thread` with the list unlocked. -/
def readHandle (s : NetThreads) (l k : ℕ) : Option NetThreads :=
  (s.net.heap.entries k).map fun _ => goListener s l (.entering k)

/-- The start of `pthread_join`. A thread without a handle cannot be joined. -/
def enterJoin (s : NetThreads) (l k : ℕ) : Option NetThreads :=
  if (s.fates k).gone then none else some (goListener s l (.joining k))

/-- `pthread_join` of a thread that has ended. -/
def joinThread (s : NetThreads) (l k : ℕ) : Option NetThreads :=
  if (s.fates k).gone then none
  else some (goListener (setFate s k fun fate => {fate with gone := true}) l .tearing)

/-- The thread of the receive loop leaves it for the cleanup handlers, as it
does at the end of the stream. -/
def actOnCancel (setup : NetSetup) (s : NetThreads) (k : ℕ) : Option NetThreads :=
  let s := setFate s k fun fate => {fate with acting := true}
  if connPc s.net k=some .recv then connGoes setup s (.receive k .closed) else some s

/-- One step; `none` is a fault. -/
def threadStep (setup : NetSetup) : Step ThreadEvent Unit NetThreads
  | s,.conn e => (connGoes setup s e).map fun s => ((),s)
  | s,.listAlloc l list => some ((),goListener s l (if list then .accepting else .ended))
  | s,.refuse l => some ((),goListener s l .refusing)
  | s,.refused l => some ((),goListener s l .accepting)
  | s,.complain l => some ((),setListener s l fun listener =>
    {listener with pc := .complaining, locked := true})
  | s,.complained l => some ((),setListener s l fun listener =>
    {listener with pc := .refusing, locked := false})
  | s,.leave l => some ((),goListener s l .tearing)
  -- the handler does not unlock `list_lock`
  | s,.actListen l => some ((),setListener s l fun listener =>
    {listener with pc := .tearing, acting := true})
  | s,.cancelHead l => (cancelHead s l).map fun s => ((),s)
  | s,.readHandle l k => (readHandle s l k).map fun s => ((),s)
  | s,.enterJoin l k => (enterJoin s l k).map fun s => ((),s)
  | s,.join l k => (joinThread s l k).map fun s => ((),s)
  | s,.cutJoin l _ => some ((),setListener s l fun listener =>
    {listener with pc := .ended, cut := true})
  | s,.act k => (actOnCancel setup s k).map fun s => ((),s)
  | s,.actSetUp k => some ((),setFate s k fun fate => {fate with acting := true, lost := true})
  -- the handler has run, and left the socket open
  | s,.cutClose k => (connGoes setup s (.popSocket k)).map fun s =>
    ((),setFate s k fun fate => {fate with acting := true, unclosed := true})
  | s,.kill => some ((),{s with killer := .next s.listeners.length})
  | s,.cancelListener l => some ((),
    {setListener s l fun listener => {listener with cancelled := true} with killer := .waiting l})
  | s,.joinListener l => some ((),{s with killer := .next l})

/-- The connection thread that takes a step. -/
def threadOf : ConnEvent → Option ℕ
  | .accept _ | .fbsChange _ _ => none
  | .lockFb k | .lookup k _ _ _ _ | .unlockFb k | .alloc k _ _ | .receive k _ | .popRing k
  | .popSocket k | .removeSelf k | .freeSelf k | .detach k => some k

/-- `list_lock` of the listening thread of a connection is free. -/
def ListFree (s : NetThreads) (k : ℕ) : Prop :=
  ∀ thread∈s.net.conns[k]?, ∀ listener∈s.listeners[thread.listener]?, listener.locked=false

instance (s : NetThreads) (k : ℕ) : Decidable (ListFree s k) :=
  inferInstanceAs (Decidable (∀ thread∈s.net.conns[k]?,_))

/-- What else an ordinary step of a connection thread needs: a listening thread
for a new one, its list for the removal, and that it does not end behind its
cleanup handlers. -/
def Unhindered (s : NetThreads) : ConnEvent → Prop
  | .accept l => listenPc s l=some .accepting
  | .removeSelf k => ListFree s k
  | .detach k => (s.fates k).acting=false
  | _ => True

instance (s : NetThreads) : ∀ e, Decidable (Unhindered s e)
  | .accept _ | .detach _ => inferInstanceAs (Decidable (_=_))
  | .removeSelf k => inferInstanceAs (Decidable (ListFree s k))
  | .lockFb _ | .lookup _ _ _ _ _ | .unlockFb _ | .alloc _ _ _ | .receive _ _ | .popRing _
  | .popSocket _ | .freeSelf _ | .fbsChange _ _ => isTrue trivial

/-- A connection thread can take an ordinary step. -/
def ConnPossible (setup : NetSetup) (s : NetThreads) (e : ConnEvent) : Prop :=
  ConnectionThread.Possible setup s.net e ∧ (∀ k∈threadOf e, (s.fates k).lost=false) ∧
    Unhindered s e

instance (setup : NetSetup) (s : NetThreads) (e : ConnEvent) : Decidable (ConnPossible setup s e) :=
  inferInstanceAs (Decidable (_ ∧ _))

/-- A connection thread can act on a cancellation. -/
def Cancellable (s : NetThreads) (k : ℕ) : Prop :=
  (s.fates k).cancelled=true ∧ (s.fates k).acting=false

/-- The steps that threads can take. -/
def ThreadPossible (setup : NetSetup) (s : NetThreads) : ThreadEvent → Prop
  | .conn e => ConnPossible setup s e
  | .listAlloc l _ => listenPc s l=some .starting
  | .refuse l => listenPc s l=some .accepting
  | .refused l => listenPc s l=some .refusing
  | .complain l => listenPc s l=some .accepting
  | .complained l => listenPc s l=some .complaining
  | .leave l => listenPc s l=some .accepting
  | .actListen l => (listenPc s l=some .accepting ∨ listenPc s l=some .refusing ∨
    listenPc s l=some .complaining) ∧ ∃ listener∈s.listeners[l]?, listener.cancelled=true
  | .cancelHead l => listenPc s l=some .tearing
  | .readHandle l k => listenPc s l=some (.reading k)
  | .enterJoin l k => listenPc s l=some (.entering k)
  | .join l k => listenPc s l=some (.joining k) ∧ terminated s k=true
  | .cutJoin l k => listenPc s l=some (.joining k) ∧
    ∃ listener∈s.listeners[l]?, listener.cancelled=true ∧ listener.acting=false
  | .act k => Cancellable s k ∧ (connPc s.net k=some .recv ∨ connPc s.net k=some .failRing ∨
    connPc s.net k=some .failSocket)
  | .actSetUp k => Cancellable s k ∧ (connPc s.net k=some .starting ∨
    connPc s.net k=some .lookup ∨ connPc s.net k=some .unlocking)
  | .cutClose k => Cancellable s k ∧ connPc s.net k=some .failSocket
  | .kill => s.killer=.serving
  | .cancelListener l => s.killer=.next (l+1)
  | .joinListener l => s.killer=.waiting l ∧ listenPc s l=some .ended

instance (s : NetThreads) (k : ℕ) : Decidable (Cancellable s k) :=
  inferInstanceAs (Decidable (_ ∧ _))

instance (setup : NetSetup) (s : NetThreads) : ∀ e, Decidable (ThreadPossible setup s e)
  | .conn _ => inferInstanceAs (Decidable (ConnPossible _ _ _))
  | .listAlloc _ _ | .refuse _ | .refused _ | .complain _ | .complained _ | .leave _
  | .cancelHead _ | .readHandle _ _ | .enterJoin _ _ | .kill | .cancelListener _ =>
    inferInstanceAs (Decidable (_=_))
  | .actListen _ | .join _ _ | .cutJoin _ _ | .act _ | .actSetUp _ | .cutClose _
  | .joinListener _ => inferInstanceAs (Decidable (_ ∧ _))

/-- A net whose listening threads have just been created. -/
def created (fb : Fb) (num : ℕ) : NetThreads where
  net := listening fb
  listeners := List.replicate num ⟨.starting,false,false,false,false⟩
  killer := .serving
  fates _ := ⟨false,false,false,false,false⟩

variable {setup : NetSetup} {s s' : NetThreads} {seqs : ℕ → List ℕ} {k l : ℕ}
  {net net' : NetServer} {thread thread' : ConnThread} {e : ConnEvent}

/-- A connection thread has gone on, or stayed where it was. -/
structure Later (thread thread' : ConnThread) : Prop where
  listener : thread'.listener=thread.listener
  rank : thread.pc.rank ≤ thread'.pc.rank
  listed : thread'.listed=true → thread.listed=true

/-- So it is where it does not fail. -/
theorem Later.of_rank (hlistener : thread'.listener=thread.listener)
    (hfailed : thread'.failed=thread.failed) (hrank : thread.pc.rank ≤ thread'.pc.rank) :
    Later thread thread' := by
  refine ⟨hlistener,hrank,fun h => ?_⟩
  rw [ConnThread.listed,hfailed,Bool.or_eq_true,decide_eq_true_eq] at h
  rw [ConnThread.listed,Bool.or_eq_true,decide_eq_true_eq]
  exact h.imp_right hrank.trans

/-- What a step of a connection thread does to the threads. -/
theorem connStep_conns (hpossible : ConnectionThread.Possible setup net e)
    (hstep : connStep setup net e=some ((),net')) :
    (∃ k thread thread', threadOf e=some k ∧ net.conns[k]?=some thread ∧
      net'.conns=net.conns.set k thread' ∧ Later thread thread' ∧
      (e=.freeSelf k ∨ thread'.there=thread.there) ∧
      (thread.pc.rank<thread'.pc.rank ∨ ∃ pass, e=.receive k pass)) ∨
    (∃ l, e=.accept l ∧ net'.conns=net.conns++[newThread l]) ∨
    ∃ fb fbs, e=.fbsChange fb fbs ∧ net'.conns=net.conns := by
  cases e with
  | accept l =>
    refine Or.inr (Or.inl ⟨l,rfl,?_⟩)
    simp only [connStep,Option.map_eq_some_iff] at hstep
    obtain ⟨heap,_,hs⟩ := hstep
    cases hs
    rfl
  | fbsChange fb fbs =>
    cases hstep
    exact Or.inr (Or.inr ⟨fb,fbs,rfl,rfl⟩)
  | lockFb k =>
    obtain ⟨thread,hget,hpc⟩ := of_connPc hpossible.1
    simp only [connStep,hget,Option.map_some] at hstep
    cases hstep
    refine Or.inl ⟨k,thread,_,rfl,hget,rfl,Later.of_rank rfl rfl ?_,Or.inr ?_,Or.inl ?_⟩
    · simp [hpc]
    · simp [ConnThread.there,hpc]
    · simp [hpc]
  | lookup k look node block numaNode =>
    obtain ⟨thread,hget,hpc⟩ := of_connPc hpossible
    simp only [connStep,hget,Option.map_some,connLookup] at hstep
    split at hstep
    · cases hstep
      refine Or.inl ⟨k,thread,_,rfl,hget,rfl,Later.of_rank rfl rfl ?_,Or.inr ?_,Or.inl ?_⟩
      · simp [hpc]
      · simp [ConnThread.there,hpc]
      · simp [hpc]
    · split at hstep
      · cases hstep
        refine Or.inl ⟨k,thread,_,rfl,hget,rfl,⟨rfl,?_,fun _ => ?_⟩,Or.inr ?_,Or.inl ?_⟩
        · simp [hpc]
        · simp [ConnThread.listed,hpc]
        · simp [ConnThread.there,hpc]
        · simp [hpc]
      · cases hstep
        refine Or.inl ⟨k,thread,_,rfl,hget,rfl,Later.of_rank rfl rfl ?_,Or.inr ?_,Or.inl ?_⟩
        · simp [hpc]
        · simp [ConnThread.there,hpc]
        · simp [hpc]
  | unlockFb k =>
    obtain ⟨thread,hget,hpc⟩ := of_connPc hpossible
    simp only [connStep,hget,Option.map_some] at hstep
    cases hstep
    refine Or.inl ⟨k,thread,_,rfl,hget,rfl,Later.of_rank rfl rfl ?_,Or.inr ?_,Or.inl ?_⟩
    · simp [hpc]
    · simp [ConnThread.there,hpc]
    · simp [hpc]
  | alloc k node block =>
    obtain ⟨thread,hget,hpc⟩ := of_connPc hpossible
    simp only [connStep,hget,Option.map_some,connAlloc] at hstep
    split at hstep
    all_goals
      cases hstep
      refine Or.inl ⟨k,thread,_,rfl,hget,rfl,Later.of_rank rfl rfl ?_,Or.inr ?_,Or.inl ?_⟩
      · simp [hpc]
      · simp [ConnThread.there,hpc]
      · simp [hpc]
  | receive k pass =>
    obtain ⟨thread,hget,hpc⟩ := of_connPc hpossible.1
    simp only [connStep,hget,Option.bind_some,Option.bind_eq_some_iff] at hstep
    obtain ⟨out,_,hstep⟩ := hstep
    split at hstep
    · cases hstep
    · cases hstep
      refine Or.inl ⟨k,thread,_,rfl,hget,rfl,Later.of_rank rfl rfl ?_,Or.inr ?_,Or.inr ⟨pass,rfl⟩⟩
      · rw [hpc]
        dsimp only
        split <;> simp
      · rw [ConnThread.there,ConnThread.there,hpc]
        dsimp only
        split <;> simp
  | popRing k =>
    obtain ⟨thread,hget,hpc⟩ := of_connPc hpossible
    simp only [connStep,hget,Option.map_some] at hstep
    cases hstep
    refine Or.inl ⟨k,thread,_,rfl,hget,rfl,Later.of_rank rfl rfl ?_,Or.inr ?_,Or.inl ?_⟩
    · simp [hpc]
    · simp [ConnThread.there,hpc]
    · simp [hpc]
  | popSocket k =>
    obtain ⟨thread,hget,hpc⟩ := of_connPc hpossible
    simp only [connStep,hget,Option.map_some] at hstep
    cases hstep
    refine Or.inl ⟨k,thread,_,rfl,hget,rfl,Later.of_rank rfl rfl ?_,Or.inr ?_,Or.inl ?_⟩
    · simp [hpc]
    · simp [ConnThread.there,hpc]
    · simp [hpc]
  | removeSelf k =>
    obtain ⟨thread,hget,hpc⟩ := of_connPc hpossible
    simp only [connStep,hget,Option.bind_some,Option.map_eq_some_iff] at hstep
    obtain ⟨heap,_,hstep⟩ := hstep
    cases hstep
    refine Or.inl ⟨k,thread,_,rfl,hget,rfl,Later.of_rank rfl rfl ?_,Or.inr ?_,Or.inl ?_⟩
    · simp [hpc]
    · simp [ConnThread.there,hpc]
    · simp [hpc]
  | freeSelf k =>
    obtain ⟨thread,hget,hpc⟩ := of_connPc hpossible
    simp only [connStep,hget,Option.bind_some,Option.map_eq_some_iff] at hstep
    obtain ⟨heap,_,hstep⟩ := hstep
    cases hstep
    refine Or.inl ⟨k,thread,_,rfl,hget,rfl,Later.of_rank rfl rfl ?_,Or.inl rfl,Or.inl ?_⟩
    · simp [hpc]
    · simp [hpc]
  | detach k =>
    obtain ⟨thread,hget,hpc⟩ := of_connPc hpossible
    simp only [connStep,hget,Option.map_some] at hstep
    cases hstep
    refine Or.inl ⟨k,thread,_,rfl,hget,rfl,Later.of_rank rfl rfl ?_,Or.inr ?_,Or.inl ?_⟩
    · simp [hpc]
    · simp [ConnThread.there,hpc]
    · simp [hpc]

/-- Every thread was there before the step, or is the new one. -/
theorem thread_before (hpossible : ConnectionThread.Possible setup net e)
    (hstep : connStep setup net e=some ((),net')) (hget : net'.conns[k]?=some thread') :
    (∃ thread, net.conns[k]?=some thread ∧ Later thread thread' ∧
      (e=.freeSelf k ∨ thread'.there=thread.there)) ∨
    ∃ l, e=.accept l ∧ k=net.conns.length ∧ thread'=newThread l := by
  have hsame : ∀ {thread : ConnThread}, Later thread thread :=
    Later.of_rank rfl rfl (Nat.le_refl _)
  rcases connStep_conns hpossible hstep with
    ⟨j,thread,moved,hj,hthread,hconns,hlater,hthere,_⟩ | ⟨l,rfl,hconns⟩ | ⟨fb,fbs,rfl,hconns⟩
  · rw [hconns] at hget
    have hlt := (List.getElem?_eq_some_iff.mp hthread).1
    by_cases hk : j=k
    · rw [hk] at hthread hthere
      rw [hk,List.getElem?_set_self (hk▸hlt)] at hget
      cases hget
      exact Or.inl ⟨thread,hthread,hlater,hthere⟩
    · rw [List.getElem?_set_ne hk] at hget
      exact Or.inl ⟨thread',hget,hsame,Or.inr rfl⟩
  · rw [hconns,List.getElem?_append] at hget
    split at hget
    · exact Or.inl ⟨thread',hget,hsame,Or.inr rfl⟩
    · have hk : k=net.conns.length := by
        have hlt := (List.getElem?_eq_some_iff.mp hget).1
        simp only [List.length_singleton] at hlt
        omega
      rw [hk,Nat.sub_self] at hget
      cases hget
      exact Or.inr ⟨l,rfl,hk,rfl⟩
  · rw [hconns] at hget
    exact Or.inl ⟨thread',hget,hsame,Or.inr rfl⟩

/-- Every thread that was there is there behind the step. -/
theorem thread_after (hpossible : ConnectionThread.Possible setup net e)
    (hstep : connStep setup net e=some ((),net')) (hget : net.conns[k]?=some thread) :
    ∃ thread', net'.conns[k]?=some thread' ∧ Later thread thread' ∧
      (e=.freeSelf k ∨ thread'.there=thread.there) := by
  have hlt := (List.getElem?_eq_some_iff.mp hget).1
  have hlen : net.conns.length ≤ net'.conns.length := by
    rcases connStep_conns hpossible hstep with
      ⟨j,_,_,_,_,hconns,_⟩ | ⟨l,_,hconns⟩ | ⟨_,_,_,hconns⟩ <;> simp [hconns]
  obtain ⟨thread',hget'⟩ : ∃ thread', net'.conns[k]?=some thread' :=
    ⟨_,List.getElem?_eq_getElem (Nat.lt_of_lt_of_le hlt hlen)⟩
  refine ⟨thread',hget',?_⟩
  rcases thread_before hpossible hstep hget' with ⟨before,hbefore,hrest⟩ | ⟨l,_,hk,_⟩
  · rw [hget] at hbefore
    cases hbefore
    exact hrest
  · omega

/-- What becomes of a thread. -/
theorem setFate_self (s : NetThreads) (k : ℕ) (f : Fate → Fate) :
    (setFate s k f).fates k=f (s.fates k) := Function.update_self _ _ _

/-- Nothing becomes of the others. -/
theorem setFate_of_ne (s : NetThreads) (f : Fate → Fate) {j k : ℕ} (hj : j≠k) :
    (setFate s k f).fates j=s.fates j := Function.update_of_ne hj _ _

/-- A listening thread leaves them alone. -/
@[simp] theorem goListener_fates (s : NetThreads) (l : ℕ) (pc : ListenPc) :
    (goListener s l pc).fates=s.fates := rfl

/-- The listening threads behind a change of one. -/
theorem listener_set (s : NetThreads) (l : ℕ) (f : Listener → Listener) (j : ℕ) :
    (setListener s l f).listeners[j]?=if l=j then s.listeners[j]?.map f else s.listeners[j]? := by
  rw [setListener,List.getElem?_modify]
  split <;> simp

/-- How far they are behind it. -/
theorem listenPc_set (s : NetThreads) (l : ℕ) (f : Listener → Listener) (j : ℕ) :
    listenPc (setListener s l f) j=
      if l=j then s.listeners[j]?.map fun listener => (f listener).pc else listenPc s j := by
  rw [listenPc,listener_set]
  split
  · rw [Option.map_map]
    rfl
  · rfl

/-- The thread lists have been torn down as far as the listening threads are. -/
structure ThreadsInv (s : NetThreads) : Prop where
  conn : ∃ seqs, ConnInv s.net seqs
  /-- A thread in a list has a listening thread that has not come to the end
  of its cleanup. -/
  owned : ∀ k : ℕ, ∀ thread∈s.net.conns[k]?, thread.listed=true →
    ∃ listener∈s.listeners[thread.listener]?, listener.pc≠.starting ∧
      (listener.pc=.ended → listener.cut=true)
  /-- The listening threads that `net_kill_threads` has joined have ended. -/
  killed : match s.killer with
    | .serving => True
    | .next left => left ≤ s.listeners.length ∧ ∀ l≥left, ∀ listener∈s.listeners[l]?,
      listener.pc=.ended
    | .waiting i => i<s.listeners.length ∧
      (∀ l>i, ∀ listener∈s.listeners[l]?, listener.pc=.ended) ∧
      ∀ listener∈s.listeners[i]?, listener.cancelled=true

/-- It is about the connections, the listening threads and the killer. -/
theorem ThreadsInv.of_same (h : ThreadsInv s) (hnet : s'.net=s.net)
    (hlisteners : s'.listeners=s.listeners) (hkiller : s'.killer=s.killer) : ThreadsInv s' := by
  obtain ⟨hconn,howned,hkilled⟩ := h
  refine ⟨by rwa [hnet],by rwa [hnet,hlisteners],?_⟩
  rwa [hkiller,hlisteners]

/-- An ordinary step of a connection thread succeeds. -/
theorem connGoes_some (hstep : connStep setup s.net e=some ((),net')) :
    ∃ s', connGoes setup s e=some s' ∧ s'.net=net' ∧ s'.listeners=s.listeners ∧
      s'.killer=s.killer ∧ ∀ k, s'.fates k=s.fates k ∨
        e=.detach k ∧ isJoined s k=false ∧ s'.fates k={s.fates k with gone := true} := by
  rw [connGoes,hstep,Option.map_some]
  cases e with
  | detach k =>
    dsimp only
    by_cases hjoined : isJoined {s with net := net'} k=true
    · rw [if_pos hjoined]
      exact ⟨_,rfl,rfl,rfl,rfl,fun _ => Or.inl rfl⟩
    · rw [if_neg hjoined]
      refine ⟨_,rfl,rfl,rfl,rfl,fun j => ?_⟩
      by_cases hj : j=k
      · rw [hj]
        exact Or.inr ⟨rfl,eq_false_of_ne_true hjoined,Function.update_self _ _ _⟩
      · exact Or.inl (Function.update_of_ne hj _ _)
  | _ => exact ⟨_,rfl,rfl,rfl,rfl,fun _ => Or.inl rfl⟩

/-- The invariant when a connection thread goes on. -/
theorem ThreadsInv.goes (h : ThreadsInv s) (hpossible : ConnectionThread.Possible setup s.net e)
    (hown : Unhindered s e ∨ ∃ k, threadOf e=some k) :
    ∃ s', connGoes setup s e=some s' ∧ ThreadsInv s' ∧ s'.listeners=s.listeners ∧
      s'.killer=s.killer ∧ connStep setup s.net e=some ((),s'.net) ∧
      (∀ k, HasFailed k s'.net ↔ HasFailed k s.net ∨ FailsAlloc k s.net e) ∧
      ∀ k, s'.fates k=s.fates k ∨
        e=.detach k ∧ isJoined s k=false ∧ s'.fates k={s.fates k with gone := true} := by
  obtain ⟨seqs,hconn⟩ := h.conn
  obtain ⟨net',seqs',hstep,hconn',hfailed⟩ := hconn.goes hpossible
  obtain ⟨s',hgoes,rfl,hlisteners,hkiller,hfates⟩ := connGoes_some hstep
  refine ⟨s',hgoes,⟨⟨seqs',hconn'⟩,fun k thread' hget hlisted => ?_,?_⟩,hlisteners,hkiller,hstep,
    hfailed,hfates⟩
  · rw [hlisteners]
    rcases thread_before hpossible hstep hget with
      ⟨thread,hthread,hlater,_⟩ | ⟨l,rfl,_,rfl⟩
    · rw [hlater.listener]
      exact h.owned k thread hthread (hlater.listed hlisted)
    · have haccepting : listenPc s l=some .accepting := by
        rcases hown with hown | ⟨_,hnone⟩
        · exact hown
        · cases hnone
      obtain ⟨listener,hlistener,hpc⟩ := Option.map_eq_some_iff.mp haccepting
      exact ⟨listener,hlistener,by simp [hpc],by simp [hpc]⟩
  · rw [hkiller,hlisteners]
    exact h.killed

/-- The invariant when a listening thread goes on. -/
theorem ThreadsInv.listen (h : ThreadsInv s) {f : Listener → Listener}
    (hended : ∀ listener∈s.listeners[l]?, listener.pc=.ended → (f listener).pc=.ended)
    (hcancelled : ∀ listener∈s.listeners[l]?, listener.cancelled=true → (f listener).cancelled=true)
    (howned : ∀ listener∈s.listeners[l]?, listener.pc≠.starting →
      (listener.pc=.ended → listener.cut=true) →
      (∃ k : ℕ, ∃ thread∈s.net.conns[k]?, thread.listed=true ∧ thread.listener=l) →
      (f listener).pc≠.starting ∧ ((f listener).pc=.ended → (f listener).cut=true)) :
    ThreadsInv (setListener s l f) := by
  have hstays : ∀ (p : Listener → Prop) (j : ℕ),
      (∀ listener∈s.listeners[l]?, p listener → p (f listener)) →
      (∀ listener∈s.listeners[j]?, p listener) →
      ∀ listener∈(setListener s l f).listeners[j]?, p listener := by
    intro p j hp hall listener hlistener
    rw [listener_set] at hlistener
    split at hlistener
    · rename_i hj
      obtain ⟨before,hbefore,rfl⟩ := Option.mem_map.mp hlistener
      exact hp before (hj▸hbefore) (hall before hbefore)
    · exact hall listener hlistener
  refine ⟨h.conn,fun k thread hget hlisted => ?_,?_⟩
  · obtain ⟨listener,hlistener,hpc,hcut⟩ := h.owned k thread hget hlisted
    rw [listener_set]
    split
    · rename_i hl
      exact ⟨f listener,Option.mem_map.mpr ⟨listener,hlistener,rfl⟩,
        howned listener (hl▸hlistener) hpc hcut ⟨k,thread,hget,hlisted,hl.symm⟩⟩
    · exact ⟨listener,hlistener,hpc,hcut⟩
  · have hkilled := h.killed
    have hlen : (setListener s l f).listeners.length=s.listeners.length := List.length_modify _ _ _
    have hkiller : (setListener s l f).killer=s.killer := rfl
    rw [hkiller,hlen]
    cases hcase : s.killer with
    | serving => trivial
    | next left =>
      rw [hcase] at hkilled
      exact ⟨hkilled.1,fun j hj => hstays _ j hended (hkilled.2 j hj)⟩
    | waiting i =>
      rw [hcase] at hkilled
      exact ⟨hkilled.1,fun j hj => hstays _ j hended (hkilled.2.1 j hj),hstays _ i hcancelled hkilled.2.2⟩

/-- A listening thread at this point. -/
theorem of_listenPc {pc : ListenPc} (hpc : listenPc s l=some pc) :
    ∀ listener∈s.listeners[l]?, listener.pc=pc := fun listener hget => by
  rw [listenPc,show s.listeners[l]?=some listener from hget] at hpc
  exact Option.some.inj hpc

/-- The invariant when a listening thread goes on, but not to its end. -/
theorem ThreadsInv.goOn (h : ThreadsInv s) {pc : ListenPc} (hpc : listenPc s l=some pc)
    (hbefore : pc≠.ended) {f : Listener → Listener}
    (hafter : ∀ listener, (f listener).pc≠.starting ∧ (f listener).pc≠.ended ∧
      (listener.cancelled=true → (f listener).cancelled=true)) :
    ThreadsInv (setListener s l f) :=
  h.listen (fun listener hget hended => absurd ((of_listenPc hpc listener hget).symm.trans hended)
    hbefore) (fun listener _ => (hafter listener).2.2)
    fun listener _ _ _ _ => ⟨(hafter listener).1,fun hc => absurd hc (hafter listener).2.1⟩

/-- So it is when only its point changes. -/
theorem ThreadsInv.go (h : ThreadsInv s) {pc pc' : ListenPc} (hpc : listenPc s l=some pc)
    (hbefore : pc≠.ended) (hafter : pc'≠.starting ∧ pc'≠.ended) :
    ThreadsInv (goListener s l pc') :=
  h.goOn hpc hbefore fun _ => ⟨hafter.1,hafter.2,id⟩

/-- A thread can always leave its receive loop. -/
theorem possible_closed (hpc : connPc net k=some .recv) :
    ConnectionThread.Possible setup net (.receive k .closed) := by
  refine ⟨hpc,fun thread _ out hout => ?_⟩
  rw [connReceive] at hout
  obtain ⟨conn,_,hout⟩ := Option.bind_eq_some_iff.mp hout
  obtain ⟨fb,_,rfl⟩ := Option.map_eq_some_iff.mp hout
  rfl

/-- The fate of a connection thread is no part of the invariant. -/
theorem ThreadsInv.fate (h : ThreadsInv s) (k : ℕ) (f : Fate → Fate) : ThreadsInv (setFate s k f) :=
  h.of_same rfl rfl rfl

/-- Every step keeps the invariant. -/
theorem threadsInv_step {event : ThreadEvent} {r : Unit} (h : ThreadsInv s)
    (hpossible : ThreadPossible setup s event) (hstep : threadStep setup s event=some (r,s')) :
    ThreadsInv s' := by
  cases event with
  | conn e =>
    obtain ⟨t,hgoes,hinv,_⟩ := h.goes hpossible.1 (Or.inl hpossible.2.2)
    simp only [threadStep,hgoes,Option.map_some] at hstep
    cases hstep
    exact hinv
  | listAlloc l list =>
    cases hstep
    refine h.listen (fun listener hget hended => ?_) (fun _ _ hcancelled => hcancelled)
      fun listener hget hpc => absurd (of_listenPc hpossible listener hget) hpc
    rw [of_listenPc hpossible listener hget] at hended
    cases hended
  | refuse l =>
    cases hstep
    exact h.go hpossible ListenPc.noConfusion ⟨ListenPc.noConfusion,ListenPc.noConfusion⟩
  | refused l =>
    cases hstep
    exact h.go hpossible ListenPc.noConfusion ⟨ListenPc.noConfusion,ListenPc.noConfusion⟩
  | complain l =>
    cases hstep
    exact h.goOn hpossible ListenPc.noConfusion fun _ =>
      ⟨ListenPc.noConfusion,ListenPc.noConfusion,id⟩
  | complained l =>
    cases hstep
    exact h.goOn hpossible ListenPc.noConfusion fun _ =>
      ⟨ListenPc.noConfusion,ListenPc.noConfusion,id⟩
  | leave l =>
    cases hstep
    exact h.go hpossible ListenPc.noConfusion ⟨ListenPc.noConfusion,ListenPc.noConfusion⟩
  | actListen l =>
    cases hstep
    obtain ⟨pc,hpc,hbefore⟩ : ∃ pc, listenPc s l=some pc ∧ pc≠.ended := by
      rcases hpossible.1 with hpc | hpc | hpc
      all_goals exact ⟨_,hpc,ListenPc.noConfusion⟩
    exact h.goOn hpc hbefore fun _ => ⟨ListenPc.noConfusion,ListenPc.noConfusion,id⟩
  | cancelHead l =>
    simp only [threadStep,cancelHead] at hstep
    split at hstep
    · rename_i hhead
      cases hstep
      refine h.listen (fun _ _ _ => rfl) (fun _ _ hcancelled => hcancelled) ?_
      rintro _ _ _ _ ⟨k,thread,hget,hlisted,hl⟩
      -- a list without a head is empty
      obtain ⟨seqs,hconn⟩ := h.conn
      rw [hconn.represents.head,List.head?_eq_none_iff] at hhead
      have hmem := (hconn.listed l k).mpr ⟨thread,hget,hl,hlisted⟩
      rw [hhead] at hmem
      cases hmem
    · rename_i k _
      obtain ⟨t,ht,hs⟩ := Option.map_eq_some_iff.mp hstep
      obtain ⟨entry,_,ht⟩ := Option.bind_eq_some_iff.mp ht
      split at ht
      · cases ht
      · cases ht
        cases hs
        exact (h.fate k _).go hpossible ListenPc.noConfusion
          ⟨ListenPc.noConfusion,ListenPc.noConfusion⟩
  | readHandle l k =>
    simp only [threadStep,readHandle,Option.map_map,Option.map_eq_some_iff] at hstep
    obtain ⟨entry,_,hs⟩ := hstep
    cases hs
    exact h.go hpossible ListenPc.noConfusion ⟨ListenPc.noConfusion,ListenPc.noConfusion⟩
  | enterJoin l k =>
    simp only [threadStep,enterJoin] at hstep
    split at hstep
    · cases hstep
    · cases hstep
      exact h.go hpossible ListenPc.noConfusion ⟨ListenPc.noConfusion,ListenPc.noConfusion⟩
  | join l k =>
    simp only [threadStep,joinThread] at hstep
    split at hstep
    · cases hstep
    · cases hstep
      exact (h.fate k _).go hpossible.1 ListenPc.noConfusion
        ⟨ListenPc.noConfusion,ListenPc.noConfusion⟩
  | cutJoin l k =>
    cases hstep
    exact h.listen (fun _ _ _ => rfl) (fun _ _ hcancelled => hcancelled)
      fun _ _ _ _ _ => ⟨ListenPc.noConfusion,fun _ => rfl⟩
  | act k =>
    simp only [threadStep,actOnCancel] at hstep
    split at hstep
    · rename_i hrecv
      obtain ⟨t,hgoes,hinv,_⟩ := (h.fate k _).goes (possible_closed hrecv) (Or.inr ⟨k,rfl⟩)
      rw [hgoes] at hstep
      cases hstep
      exact hinv
    · cases hstep
      exact h.fate k _
  | actSetUp k =>
    cases hstep
    exact h.of_same rfl rfl rfl
  | cutClose k =>
    obtain ⟨t,hgoes,hinv,_⟩ :=
      @ThreadsInv.goes setup s (.popSocket k) h hpossible.2 (Or.inr ⟨k,rfl⟩)
    simp only [threadStep,hgoes,Option.map_some] at hstep
    cases hstep
    exact hinv.fate k _
  | kill =>
    cases hstep
    refine ⟨h.conn,h.owned,Nat.le_refl _,fun l hl listener hget => ?_⟩
    rw [List.getElem?_eq_none hl] at hget
    cases hget
  | cancelListener l =>
    cases hstep
    have hset := @ThreadsInv.listen _ l h (fun listener => {listener with cancelled := true})
      (fun _ _ hended => hended) (fun _ _ _ => rfl) fun _ _ hpc hcut _ => ⟨hpc,hcut⟩
    have hkilled := hset.killed
    rw [setListener,show s.killer=.next (l+1) from hpossible] at hkilled
    refine ⟨hset.conn,hset.owned,hkilled.1,hkilled.2,fun listener hget => ?_⟩
    dsimp only at hget
    rw [listener_set,if_pos rfl] at hget
    obtain ⟨_,_,rfl⟩ := Option.mem_map.mp hget
    rfl
  | joinListener l =>
    cases hstep
    have hkilled := h.killed
    rw [hpossible.1] at hkilled
    refine ⟨h.conn,h.owned,Nat.le_of_lt hkilled.1,fun j hj => ?_⟩
    rcases Nat.lt_or_eq_of_le hj with hlt | rfl
    · exact hkilled.2.1 j hlt
    · exact of_listenPc hpossible.2

/-- Nothing is to be torn down at the beginning. -/
theorem threadsInv_created (fb : Fb) (num : ℕ) : ThreadsInv (created fb num) where
  conn := ⟨_,connInv_listening fb⟩
  owned k thread hget _ := by
    rw [created,listening,List.getElem?_nil] at hget
    cases hget
  killed := trivial

/-- A connection thread will touch nothing any more that it shares: its cleanup
handlers have run, each of them once, up to the free of its structure. -/
structure Collected (net : NetServer) (k : ℕ) (thread : ConnThread) : Prop where
  behind : thread.pc=.freeSelf ∨ thread.pc=.fail ∨ thread.pc=.ended
  unlocked : net.fbLock≠some k
  closed : thread.closed=1
  removed : thread.removed=1
  ringFreed : thread.ringFreed=if thread.conn.isSome then 1 else 0

/-- A thread that is in no list is collected. -/
theorem collected_of_unlisted (h : ConnInv net seqs) (hget : net.conns[k]?=some thread)
    (hlisted : thread.listed=false) : Collected net k thread := by
  have hsound := h.sound thread (List.mem_of_getElem? hget)
  obtain ⟨hfailed,hrank⟩ := Bool.or_eq_false_iff.mp hlisted
  rw [decide_eq_false_iff_not] at hrank
  have hbehind : thread.pc=.freeSelf ∨ thread.pc=.fail ∨ thread.pc=.ended := by
    cases hpc : thread.pc <;> simp [hpc] at hrank ⊢
  have hpast : ∀ pc : ConnPc, pc.rank<ConnPc.freeSelf.rank → thread.past pc=1 := by
    intro pc hpc
    have hlt : pc.rank<thread.pc.rank := by
      simp only [ConnPc.rank] at hpc hrank ⊢
      omega
    rw [ConnThread.past,hfailed,decide_eq_true hlt]
    rfl
  refine ⟨hbehind,fun hlock => ?_,?_,?_,?_⟩
  · obtain ⟨thread',hget',hlocks⟩ := (h.lock k).mp hlock
    rw [Option.mem_def,hget] at hget'
    cases hget'
    rcases hbehind with hpc | hpc | hpc <;> simp [ConnThread.locks,hfailed,hpc] at hlocks
  · rw [hsound.closed,hpast _ (by simp)]
  · rw [hsound.removed,hpast _ (by simp)]
  · rw [hsound.ringFreed,hpast _ (by simp)]

/-- When `net_kill_threads` has returned, in whatever order the threads have
taken their steps, every connection thread is collected whose listening thread
was not cancelled in the middle of its cleanup. -/
theorem killed_collected {fb : Fb} {num : ℕ} {events : List ThreadEvent} {replies : List Unit}
    (hadm : Admitted (ThreadPossible setup) (threadStep setup) (created fb num) events)
    (hrun : run (threadStep setup) (created fb num) events=some (replies,s))
    (hkilled : s.killer=.next 0) (k : ℕ) (thread : ConnThread) (hget : s.net.conns[k]?=some thread) :
    Collected s.net k thread ∨ ∃ listener∈s.listeners[thread.listener]?, listener.cut=true := by
  have hinv := run_invariant (fun _ _ _ _ h hp hs => threadsInv_step h hp hs)
    (threadsInv_created fb num) hadm hrun
  cases hlisted : thread.listed with
  | false =>
    obtain ⟨seqs,hconn⟩ := hinv.conn
    exact Or.inl (collected_of_unlisted hconn hget hlisted)
  | true =>
    obtain ⟨listener,hlistener,_,hcut⟩ := hinv.owned k thread hget hlisted
    have hended := hinv.killed
    rw [hkilled] at hended
    exact Or.inr ⟨listener,hlistener,hcut (hended.2 _ (Nat.zero_le _) listener hlistener)⟩

/-- A connection is accepted and comes to its receive loop. -/
def oneClient : List ThreadEvent :=
  [.listAlloc 0 true,.conn (.accept 0),.conn (.lockFb 0),
    .conn (.lookup 0 0 (some 0) (some fun _ => ⟨0,0,0,0⟩) 0),.conn (.unlockFb 0),
    .conn (.alloc 0 true (some fun _ => 0))]

/-- The only listening thread is cancelled at `accept`. -/
def killOne : List ThreadEvent :=
  [.kill,.cancelListener 0,.actListen 0,.cancelHead 0,.readHandle 0 0,.enterJoin 0 0,.act 0,.conn (.popRing 0),
    .conn (.popSocket 0),.conn (.removeSelf 0),.conn (.freeSelf 0),.join 0 0,.cancelHead 0,
    .joinListener 0]

/-- The connection is collected. -/
theorem killed_collected_one :
    ∃ replies s thread, run (threadStep plainNet) (created (blankFb 4 4) 1) (oneClient++killOne)=
        some (replies,s) ∧ s.net.conns[0]?=some thread ∧ Collected s.net 0 thread := by
  have hadm : Admitted (ThreadPossible plainNet) (threadStep plainNet) (created (blankFb 4 4) 1)
      (oneClient++killOne) := by decide +kernel
  have hend : (run (threadStep plainNet) (created (blankFb 4 4) 1) (oneClient++killOne)).map
      (fun out => (decide (out.2.killer=.next 0),(connPc out.2.net 0).isSome,
        out.2.listeners.map Listener.cut))=some (true,true,[false]) := by decide +kernel
  obtain ⟨⟨replies,s⟩,hrun,hout⟩ := Option.map_eq_some_iff.mp hend
  obtain ⟨hkilled,hconn,hcut⟩ := Prod.mk.inj hout |>.imp_right Prod.mk.inj
  obtain ⟨pc,hpc⟩ := Option.isSome_iff_exists.mp hconn
  obtain ⟨thread,hget,_⟩ := of_connPc hpc
  refine ⟨replies,s,thread,hrun,hget,
    (killed_collected hadm hrun (of_decide_eq_true hkilled) 0 thread hget).resolve_right ?_⟩
  rintro ⟨listener,hlistener,hc⟩
  have hmem : listener.cut∈s.listeners.map Listener.cut :=
    List.mem_map.mpr ⟨listener,List.mem_of_getElem? hlistener,rfl⟩
  rw [hcut,List.mem_singleton,hc] at hmem
  cases hmem

/-- The only listening thread has left its loop by itself. -/
def cutOne : List ThreadEvent :=
  [.leave 0,.cancelHead 0,.readHandle 0 0,.enterJoin 0 0,.kill,.cancelListener 0,.cutJoin 0 0,
    .joinListener 0]

/-- It is cancelled where it waits for the connection thread, and that is still
in its receive loop when `net_kill_threads` has returned. -/
theorem cut_not_collected :
    Admitted (ThreadPossible plainNet) (threadStep plainNet) (created (blankFb 4 4) 1)
        (oneClient++cutOne) ∧
      (run (threadStep plainNet) (created (blankFb 4 4) 1) (oneClient++cutOne)).map
        (fun out => (out.2.killer,connPc out.2.net 0))=some (.next 0,some .recv) := by
  constructor <;> decide +kernel

end Shoreline.NetShutdown
