import Mathlib.Algebra.Group.Action.Defs
import Mathlib.Algebra.Order.BigOperators.Group.Finset
import Shoreline.NetShutdown

/-!
# A shutdown comes to its end

While the net is shut down, threads wait for threads: the main thread for a
listening thread, that for a connection thread, and that for the holder of
`fb_lock`. As long as every connection thread comes to its cleanup handlers,
frees its structure only when its handle was read and detaches itself only when
it is not about to be joined, and no listening thread is cancelled with
`list_lock` held, no step is a fault and no thread waits for ever.
-/

namespace Shoreline.ShutdownProgress

open CircularMemory RingBuffer Framebuffer NetConnection StateMachine LinkedSequence LinkedList
  ConnectionThread NetShutdown

/-- A step that keeps a connection thread from its cleanup handlers, frees its
structure before the handle in it was read, or detaches it before the join with
this handle; and the cancellation of a listening thread that holds `list_lock`. -/
def Disorderly (s : NetThreads) : ThreadEvent → Prop
  | .conn (.freeSelf k) => ∃ listener∈s.listeners, listener.pc=.reading k
  | .conn (.detach k) => ∃ listener∈s.listeners, listener.pc=.entering k
  | .conn e => ∃ k∈threadOf e, FailsAlloc k s.net e
  | .actSetUp _ => True
  | .actListen l => listenPc s l=some .complaining
  | _ => False

instance (s : NetThreads) : ∀ event, Decidable (Disorderly s event)
  | .conn (.freeSelf _) | .conn (.detach _) =>
    inferInstanceAs (Decidable (∃ listener∈s.listeners,_))
  | .conn (.accept _) | .conn (.lockFb _) | .conn (.lookup _ _ _ _ _) | .conn (.unlockFb _)
  | .conn (.alloc _ _ _) | .conn (.receive _ _) | .conn (.popRing _) | .conn (.popSocket _)
  | .conn (.removeSelf _) | .conn (.fbsChange _ _) =>
    inferInstanceAs (Decidable (∃ k∈threadOf _,FailsAlloc k s.net _))
  | .actSetUp _ => isTrue trivial
  | .actListen _ => inferInstanceAs (Decidable (_=_))
  | .listAlloc _ _ | .refuse _ | .refused _ | .complain _ | .complained _ | .leave _
  | .cancelHead _ | .readHandle _ _ | .enterJoin _ _ | .join _ _ | .cutJoin _ _ | .act _
  | .cutClose _ | .kill | .cancelListener _ | .joinListener _ => isFalse not_false

/-- The steps that keep the shutdown going. -/
def OrderlyPossible (setup : NetSetup) (s : NetThreads) (event : ThreadEvent) : Prop :=
  ThreadPossible setup s event ∧ ¬Disorderly s event

instance (setup : NetSetup) (s : NetThreads) (event : ThreadEvent) :
    Decidable (OrderlyPossible setup s event) := inferInstanceAs (Decidable (_ ∧ _))

/-- The thread that a listening thread has cancelled and not yet joined. -/
def targetOf : ListenPc → Option ℕ
  | .reading k | .entering k | .joining k => some k
  | _ => none

/-- The same, by the number of the listening thread. -/
def target (s : NetThreads) (l : ℕ) : Option ℕ := (listenPc s l).bind targetOf

/-- A listening thread can wait for this thread, which is one of its own. -/
structure Held (s : NetThreads) (l k : ℕ) : Prop where
  own : ∃ thread∈s.net.conns[k]?, thread.listener=l
  cancelled : (s.fates k).cancelled=true
  handle : (s.fates k).gone=false

/-- Nothing has gone wrong. -/
structure Orderly (s : NetThreads) : Prop where
  threads : ThreadsInv s
  failed : ∀ k, ¬HasFailed k s.net
  lost : ∀ k, (s.fates k).lost=false
  /-- Whom the listening threads wait for, or are about to. -/
  held : ∀ l k, target s l=some k → Held s l k
  there : ∀ l k, listenPc s l=some (.reading k) → ∃ thread∈s.net.conns[k]?, thread.there=true
  /-- A thread without a handle is in no list. -/
  gone : ∀ k : ℕ, ∀ thread∈s.net.conns[k]?, (s.fates k).gone=true → thread.listed=false
  acting : ∀ k : ℕ, ∀ thread∈s.net.conns[k]?, (s.fates k).acting=true →
    ConnPc.failRing.rank ≤ thread.pc.rank
  /-- `list_lock` is only held in the message. -/
  locked : ∀ listener∈s.listeners, listener.locked=true → listener.pc=.complaining
  /-- Nothing has become of a thread that is not there yet. -/
  fresh : ∀ k≥s.net.conns.length, s.fates k=⟨false,false,false,false,false⟩

variable {setup : NetSetup} {s s' : NetThreads} {seqs : ℕ → List ℕ} {k l : ℕ}
  {net net' : NetServer} {thread thread' : ConnThread} {e : ConnEvent}

/-- No thread has failed. -/
theorem Orderly.not_failed (h : Orderly s) (hget : s.net.conns[k]?=some thread) :
    thread.failed=false :=
  eq_false_of_ne_true fun hc => h.failed k ⟨thread,hget,hc⟩

/-- One that detaches itself is in no list and has no structure. -/
theorem Orderly.detaching (h : Orderly s) (hget : s.net.conns[k]?=some thread)
    (hpc : thread.pc=.fail) : thread.listed=false ∧ thread.there=false := by
  simp [ConnThread.listed,ConnThread.there,h.not_failed hget,hpc]

/-- Somebody waits for the thread. -/
theorem isJoined_of_joining (h : listenPc s l=some (.joining k)) : isJoined s k=true := by
  obtain ⟨listener,hget,hpc⟩ := Option.map_eq_some_iff.mp h
  exact List.any_eq_true.mpr ⟨listener,List.mem_of_getElem? hget,decide_eq_true hpc⟩

/-- A listening thread is at a point of this target. -/
theorem target_of_listenPc {pc : ListenPc} (hpc : listenPc s l=some pc) :
    target s l=targetOf pc := by
  rw [target,hpc,Option.bind_some]

/-- The points at which a listening thread has a target. -/
theorem of_target (h : target s l=some k) : listenPc s l=some (.reading k) ∨
    listenPc s l=some (.entering k) ∨ listenPc s l=some (.joining k) := by
  obtain ⟨pc,hpc,htarget⟩ := Option.bind_eq_some_iff.mp h
  cases pc with
  | reading j =>
    cases htarget
    exact Or.inl hpc
  | entering j =>
    cases htarget
    exact Or.inr (Or.inl hpc)
  | joining j =>
    cases htarget
    exact Or.inr (Or.inr hpc)
  | _ => cases htarget

/-- An ordinary step of a connection thread keeps the order. -/
theorem Orderly.goes (h : Orderly s) (hpossible : ConnectionThread.Possible setup s.net e)
    (hown : Unhindered s e ∨ ∃ k, threadOf e=some k) (halloc : ∀ k, ¬FailsAlloc k s.net e)
    (hfree : ∀ k l, e=.freeSelf k → listenPc s l≠some (.reading k))
    (hleave : ∀ k l, e=.detach k → listenPc s l≠some (.entering k)) :
    ∃ s', connGoes setup s e=some s' ∧ Orderly s' ∧ s'.listeners=s.listeners ∧
      s'.killer=s.killer ∧ connStep setup s.net e=some ((),s'.net) ∧
      ∀ k, (s'.fates k).cancelled=(s.fates k).cancelled ∧ (s'.fates k).acting=(s.fates k).acting ∧
        ((s.fates k).gone=true → (s'.fates k).gone=true) := by
  obtain ⟨s',hgoes,hinv,hlisteners,hkiller,hstep,hfailed,hfates⟩ := h.threads.goes hpossible hown
  have hpc : ∀ l, listenPc s' l=listenPc s l := fun l => by rw [listenPc,hlisteners]; rfl
  have htarget : ∀ l, target s' l=target s l := fun l => by rw [target,target,hpc]
  -- only a handle is lost, and only by a thread that detaches itself
  have hfate : ∀ k, (s'.fates k).cancelled=(s.fates k).cancelled ∧
      (s'.fates k).acting=(s.fates k).acting ∧ (s'.fates k).lost=(s.fates k).lost := fun k => by
    rcases hfates k with heq | ⟨_,_,heq⟩ <;> simp [heq]
  have hdetach : ∀ k, e=.detach k → ∃ thread, s.net.conns[k]?=some thread ∧ thread.pc=.fail :=
    fun k he => by
      rw [he] at hpossible
      exact of_connPc hpossible
  refine ⟨s',hgoes,⟨hinv,fun k hc => ?_,fun k => ?_,fun l k hwait => ?_,fun l k hreading => ?_,
    fun k thread' hget' hgone => ?_,fun k thread' hget' hacting => ?_,by
      rw [hlisteners]
      exact h.locked,fun k hk => ?_⟩,hlisteners,hkiller,hstep,
      fun k => ⟨(hfate k).1,(hfate k).2.1,fun hgone => ?_⟩⟩
  · rcases (hfailed k).mp hc with hc | hc
    · exact h.failed k hc
    · exact halloc k hc
  · rw [(hfate k).2.2,h.lost]
  · rw [htarget] at hwait
    obtain ⟨⟨thread,hget,hl⟩,hcancelled,hhandle⟩ := h.held l k hwait
    obtain ⟨thread',hget',hlater,_⟩ := thread_after hpossible hstep hget
    refine ⟨⟨thread',hget',hlater.listener.trans hl⟩,by rw [(hfate k).1,hcancelled],?_⟩
    rcases hfates k with heq | ⟨he,hjoined,_⟩
    · rw [heq,hhandle]
    · obtain ⟨thread,hget,hfail⟩ := hdetach k he
      rcases of_target hwait with hreading | hentering | hjoining
      · obtain ⟨there,hthere,hstands⟩ := h.there l k hreading
        rw [Option.mem_def,hget] at hthere
        cases hthere
        rw [(h.detaching hget hfail).2] at hstands
        cases hstands
      · exact absurd hentering (hleave k l he)
      · rw [isJoined_of_joining hjoining] at hjoined
        cases hjoined
  · rw [hpc] at hreading
    obtain ⟨thread,hget,hthere⟩ := h.there l k hreading
    obtain ⟨thread',hget',_,hfreed | hsame⟩ := thread_after hpossible hstep hget
    · exact absurd hreading (hfree k l hfreed)
    · exact ⟨thread',hget',hsame.trans hthere⟩
  · rcases thread_before hpossible hstep hget' with ⟨thread,hget,hlater,_⟩ | ⟨l,rfl,hk,rfl⟩
    · refine eq_false_of_ne_true fun hlisted => ?_
      have hbefore := hlater.listed hlisted
      rcases hfates k with heq | ⟨he,_,_⟩
      · rw [heq] at hgone
        rw [h.gone k thread hget hgone] at hbefore
        cases hbefore
      · obtain ⟨at',hat,hfail⟩ := hdetach k he
        rw [hget] at hat
        cases hat
        rw [(h.detaching hget hfail).1] at hbefore
        cases hbefore
    · rcases hfates k with heq | ⟨he,_,_⟩
      · rw [heq,h.fresh k (by omega)] at hgone
        cases hgone
      · cases he
  · rw [(hfate k).2.1] at hacting
    rcases thread_before hpossible hstep hget' with ⟨thread,hget,hlater,_⟩ | ⟨_,_,hk,_⟩
    · exact (h.acting k thread hget hacting).trans hlater.rank
    · rw [h.fresh k (by omega)] at hacting
      cases hacting
  · have hlen : s.net.conns.length ≤ s'.net.conns.length := by
      rcases connStep_conns hpossible hstep with
        ⟨_,_,_,_,_,hconns,_⟩ | ⟨_,_,hconns⟩ | ⟨_,_,_,hconns⟩ <;> simp [hconns]
    rcases hfates k with heq | ⟨he,_,_⟩
    · rw [heq,h.fresh k (hlen.trans hk)]
    · obtain ⟨thread,hget,_⟩ := hdetach k he
      have hlt := (List.getElem?_eq_some_iff.mp hget).1
      omega
  · rcases hfates k with heq | ⟨_,_,heq⟩
    · rw [heq,hgone]
    · rw [heq]

/-- So does a change of the fate of a thread that keeps its handle. -/
theorem Orderly.fate (h : Orderly s) {f : Fate → Fate} (hget : s.net.conns[k]?=some thread)
    (hcancelled : (s.fates k).cancelled=true → (f (s.fates k)).cancelled=true)
    (hkept : (f (s.fates k)).gone=(s.fates k).gone ∧ (f (s.fates k)).lost=(s.fates k).lost)
    (hacting : (f (s.fates k)).acting=true → ConnPc.failRing.rank ≤ thread.pc.rank) :
    Orderly (setFate s k f) := by
  have hother : ∀ j≠k, (setFate s k f).fates j=s.fates j := fun j hj => setFate_of_ne s f hj
  have hself := setFate_self s k f
  have hgone : ∀ j, ((setFate s k f).fates j).gone=(s.fates j).gone ∧
      ((setFate s k f).fates j).lost=(s.fates j).lost := fun j => by
    by_cases hj : j=k
    · rw [hj,hself]
      exact hkept
    · rw [hother j hj]
      exact ⟨rfl,rfl⟩
  refine ⟨h.threads.fate k f,h.failed,fun j => (hgone j).2.trans (h.lost j),fun l j hwait => ?_,h.there,
    fun j thread' hget' hg => h.gone j thread' hget' ((hgone j).1▸hg),fun j thread' hget' ha => ?_,
    h.locked,fun j hj => ?_⟩
  · obtain ⟨hown,hc,hhandle⟩ := h.held l j hwait
    refine ⟨hown,?_,(hgone j).1.trans hhandle⟩
    by_cases hj : j=k
    · rw [hj] at hc ⊢
      rw [hself]
      exact hcancelled hc
    · rw [hother j hj]
      exact hc
  · by_cases hj : j=k
    · rw [hj] at hget' ha
      cases hget.symm.trans hget'
      rw [hself] at ha
      exact hacting ha
    · rw [hother j hj] at ha
      exact h.acting j thread' hget' ha
  · have hlt := (List.getElem?_eq_some_iff.mp hget).1
    change s.net.conns.length ≤ j at hj
    rw [hother j (by omega)]
    exact h.fresh j hj

/-- The target of a listening thread behind a change of one. -/
theorem target_set (s : NetThreads) (l : ℕ) (f : Listener → Listener) (j : ℕ) :
    target (setListener s l f) j=
      if l=j then s.listeners[j]?.bind fun listener => targetOf (f listener).pc else target s j := by
  rw [target,listenPc_set]
  split
  · rw [Option.bind_map]
    rfl
  · rfl

/-- So does a listening thread that goes on to a thread of its own. -/
theorem Orderly.listen (h : Orderly s) {f : Listener → Listener}
    (hinv : ThreadsInv (setListener s l f))
    (hheld : ∀ listener∈s.listeners[l]?, ∀ k, targetOf (f listener).pc=some k → Held s l k)
    (hthere : ∀ listener∈s.listeners[l]?, ∀ k,
      (f listener).pc=.reading k → ∃ thread∈s.net.conns[k]?, thread.there=true)
    (hlocked : ∀ listener∈s.listeners[l]?, (f listener).locked=true →
      (f listener).pc=.complaining) :
    Orderly (setListener s l f) := by
  refine ⟨hinv,h.failed,h.lost,fun j k hwait => ?_,fun j k hreading => ?_,h.gone,h.acting,
    fun listener hmem => ?_,h.fresh⟩
  · have hheld' : Held s j k := by
      rw [target_set] at hwait
      split at hwait
      · rename_i hj
        obtain ⟨listener,hlistener,hpc⟩ := Option.bind_eq_some_iff.mp hwait
        rw [←hj] at hlistener ⊢
        exact hheld listener hlistener k hpc
      · exact h.held j k hwait
    exact ⟨hheld'.own,hheld'.cancelled,hheld'.handle⟩
  · rw [listenPc_set] at hreading
    split at hreading
    · obtain ⟨listener,hlistener,hpc⟩ := Option.map_eq_some_iff.mp hreading
      rename_i hj
      rw [←hj] at hlistener
      exact hthere listener hlistener k hpc
    · exact h.there j k hreading
  · obtain ⟨j,hget⟩ := List.mem_iff_getElem?.mp hmem
    rw [listener_set] at hget
    split at hget
    · rename_i hj
      obtain ⟨before,hbefore,rfl⟩ := Option.map_eq_some_iff.mp hget
      exact hlocked before (hj▸hbefore)
    · exact h.locked listener (List.mem_of_getElem? hget)

/-- So does one that goes to a point without a target. -/
theorem Orderly.listenBusy (h : Orderly s) {f : Listener → Listener}
    (hinv : ThreadsInv (setListener s l f))
    (hbusy : ∀ listener∈s.listeners[l]?, targetOf (f listener).pc=none)
    (hlocked : ∀ listener∈s.listeners[l]?, (f listener).locked=true →
      (f listener).pc=.complaining) :
    Orderly (setListener s l f) := by
  refine h.listen hinv (fun listener hget k hwait => ?_) (fun listener hget k hreading => ?_) hlocked
  · rw [hbusy listener hget] at hwait
    cases hwait
  · have hb := hbusy listener hget
    rw [hreading] at hb
    cases hb

/-- A listening thread behind the message does not hold `list_lock`. -/
theorem Orderly.unlocked (h : Orderly s) {pc : ListenPc} (hpc : listenPc s l=some pc)
    (hne : pc≠.complaining) : ∀ listener∈s.listeners[l]?, listener.locked=false :=
  fun listener hget => eq_false_of_ne_true fun hc => hne
    ((of_listenPc hpc listener hget).symm.trans (h.locked listener (List.mem_of_getElem? hget) hc))

/-- So does one that goes to such a point and holds no lock. -/
theorem Orderly.goBusy (h : Orderly s) {pc pc' : ListenPc} (hpc : listenPc s l=some pc)
    (hne : pc≠.complaining) (hinv : ThreadsInv (goListener s l pc')) (hbusy : targetOf pc'=none) :
    Orderly (goListener s l pc') :=
  h.listenBusy hinv (fun _ _ => hbusy) fun listener hget hlocked =>
    absurd hlocked (by rw [h.unlocked hpc hne listener hget]; exact Bool.false_ne_true)

/-- So does one that has joined a thread behind its handlers. -/
theorem Orderly.handle (h : Orderly s) (hget : s.net.conns[k]?=some thread)
    (hlisted : thread.listed=false)
    (hnobody : ∀ l, target s l≠some k) :
    Orderly (setFate s k fun fate => {fate with gone := true}) := by
  have hother : ∀ j≠k, ((setFate s k fun fate => {fate with gone := true}).fates j)=s.fates j :=
    fun j hj => setFate_of_ne s _ hj
  have hself := setFate_self s k fun fate => {fate with gone := true}
  refine ⟨h.threads.fate k _,h.failed,fun j => ?_,fun l j hwait => ?_,h.there,
    fun j thread' hget' hg => ?_,fun j thread' hget' ha => ?_,h.locked,fun j hj => ?_⟩
  · by_cases hj : j=k
    · rw [hj,hself]
      exact h.lost k
    · rw [hother j hj]
      exact h.lost j
  · have hj : j≠k := fun hj => hnobody l (hj▸hwait)
    obtain ⟨hown,hc,hhandle⟩ := h.held l j hwait
    exact ⟨hown,by rw [hother j hj,hc],by rw [hother j hj,hhandle]⟩
  · by_cases hj : j=k
    · rw [hj] at hget'
      cases hget.symm.trans hget'
      exact hlisted
    · rw [hother j hj] at hg
      exact h.gone j thread' hget' hg
  · by_cases hj : j=k
    · rw [hj] at hget' ha
      rw [hself] at ha
      exact h.acting k thread' hget' ha
    · rw [hother j hj] at ha
      exact h.acting j thread' hget' ha
  · have hlt := (List.getElem?_eq_some_iff.mp hget).1
    change s.net.conns.length ≤ j at hj
    rw [hother j (by omega)]
    exact h.fresh j hj

/-- A thread that has ended is in no list. -/
theorem Orderly.terminated (h : Orderly s) (hget : s.net.conns[k]?=some thread)
    (hended : terminated s k=true) : thread.listed=false := by
  have hpc : thread.pc=.ended ∨ thread.pc=.fail := by
    rw [NetShutdown.terminated,h.lost,connPc,hget] at hended
    simp only [Option.map_some,Option.some.injEq,Bool.false_or,Bool.or_eq_true,decide_eq_true_eq,
      Bool.and_eq_true] at hended
    exact hended.imp_right And.right
  rcases hpc with hpc | hpc <;> simp [ConnThread.listed,h.not_failed hget,hpc]

/-- The main thread is no part of the order. -/
theorem Orderly.killer (h : Orderly s) {killer : KillPc} (hinv : ThreadsInv {s with killer := killer}) :
    Orderly {s with killer := killer} :=
  ⟨hinv,h.failed,h.lost,fun l k hwait => ⟨(h.held l k hwait).own,(h.held l k hwait).cancelled,
    (h.held l k hwait).handle⟩,h.there,h.gone,h.acting,h.locked,h.fresh⟩

/-- The cancellation of the thread of the first entry. -/
theorem Orderly.cancelHead (setup : NetSetup) (h : Orderly s) (hpc : listenPc s l=some .tearing) :
    ∃ s', cancelHead s l=some s' ∧ Orderly s' ∧ s'.net=s.net ∧ s'.killer=s.killer ∧
      (s'=goListener s l .ended ∨ ∃ k, s'=goListener
        (setFate s k fun fate => {fate with cancelled := true}) l (.reading k)) := by
  have hpossible : ThreadPossible setup s (.cancelHead l) := hpc
  obtain ⟨seqs,hconn⟩ := h.threads.conn
  cases hhead : (s.net.heap.lists l).head with
  | none =>
    have hstep : NetShutdown.cancelHead s l=some (goListener s l .ended) := by
      rw [NetShutdown.cancelHead,hhead]
    have hinv := threadsInv_step (r := ()) h.threads hpossible
      (by rw [threadStep,hstep]; rfl)
    exact ⟨_,hstep,h.goBusy hpc ListenPc.noConfusion hinv rfl,rfl,rfl,Or.inl rfl⟩
  | some k =>
    have hmem : k∈seqs l := List.mem_of_head? (hconn.represents.head l▸hhead)
    obtain ⟨thread,hget,hl,hlisted⟩ := (hconn.listed l k).mp hmem
    have hthere : thread.there=true := by
      rw [ConnThread.listed,h.not_failed hget,Bool.false_or,decide_eq_true_eq] at hlisted
      rw [ConnThread.there,h.not_failed hget,Bool.false_or,decide_eq_true_eq]
      exact hlisted.trans (by decide)
    obtain ⟨entry,hentry⟩ := Option.ne_none_iff_exists'.mp ((hconn.there k).mpr ⟨thread,hget,hthere⟩)
    have hgone : (s.fates k).gone=false := eq_false_of_ne_true fun hc => by
      rw [h.gone k thread hget hc] at hlisted
      cases hlisted
    have hstep : NetShutdown.cancelHead s l=some (goListener
        (setFate s k fun fate => {fate with cancelled := true}) l (.reading k)) := by
      rw [NetShutdown.cancelHead,hhead]
      dsimp only
      rw [hentry,Option.bind_some,hgone,if_neg Bool.false_ne_true]
    have hinv := threadsInv_step (r := ()) h.threads hpossible
      (by rw [threadStep,hstep]; rfl)
    have hfate : Orderly (setFate s k fun fate => {fate with cancelled := true}) :=
      h.fate hget (fun _ => rfl) ⟨rfl,rfl⟩ (h.acting k thread hget)
    refine ⟨_,hstep,hfate.listen hinv (fun listener _ j hwait => ?_) (fun listener _ j hreading => ?_)
      (fun listener hlistener hlocked => ?_),rfl,rfl,Or.inr ⟨k,rfl⟩⟩
    · have hj : k=j := Option.some.inj hwait
      rw [←hj]
      have hself := setFate_self s k fun fate => {fate with cancelled := true}
      exact ⟨⟨thread,hget,hl⟩,by rw [hself],by rw [hself]; exact hgone⟩
    · rw [←ListenPc.reading.inj hreading]
      exact ⟨thread,hget,hthere⟩
    · rw [h.unlocked hpc ListenPc.noConfusion listener hlistener] at hlocked
      cases hlocked

/-- A listening thread goes on with the thread that it has cancelled. -/
theorem Orderly.goJoin (h : Orderly s) {pc pc' : ListenPc} (hpc : listenPc s l=some pc)
    (hbefore : targetOf pc=some k) (hafter : targetOf pc'=some k) (hread : ∀ j, pc'≠.reading j) :
    Orderly (goListener s l pc') := by
  have hpoints : pc≠.complaining ∧ pc≠.ended ∧ pc'≠.starting ∧ pc'≠.ended := by
    refine ⟨?_,?_,?_,?_⟩
    all_goals
      rintro rfl
      first | cases hbefore | cases hafter
  refine h.listen (h.threads.go hpc hpoints.2.1 hpoints.2.2) (fun listener _ j hwait => ?_)
    (fun listener _ j hreading => ?_)
    fun listener hget hlocked => ?_
  · have hj : k=j := Option.some.inj (hafter.symm.trans hwait)
    rw [←hj]
    exact h.held l k ((target_of_listenPc hpc).trans hbefore)
  · exact absurd hreading (hread j)
  · rw [h.unlocked hpc hpoints.1 listener hget] at hlocked
    cases hlocked

/-- The read of a handle. -/
theorem Orderly.readHandle (h : Orderly s) (hpc : listenPc s l=some (.reading k)) :
    NetShutdown.readHandle s l k=some (goListener s l (.entering k)) ∧
      Orderly (goListener s l (.entering k)) := by
  obtain ⟨seqs,hconn⟩ := h.threads.conn
  obtain ⟨thread,hget,hthere⟩ := h.there l k hpc
  obtain ⟨entry,hentry⟩ := Option.ne_none_iff_exists'.mp ((hconn.there k).mpr ⟨thread,hget,hthere⟩)
  refine ⟨?_,h.goJoin hpc rfl rfl nofun⟩
  rw [NetShutdown.readHandle,hentry,Option.map_some]

/-- The start of a join. -/
theorem Orderly.enterJoin (h : Orderly s) (hpc : listenPc s l=some (.entering k)) :
    NetShutdown.enterJoin s l k=some (goListener s l (.joining k)) ∧
      Orderly (goListener s l (.joining k)) := by
  have hheld := h.held l k (target_of_listenPc hpc)
  refine ⟨?_,h.goJoin hpc rfl rfl nofun⟩
  rw [NetShutdown.enterJoin,hheld.handle,if_neg Bool.false_ne_true]

/-- The join of a thread that has ended. -/
theorem Orderly.join (h : Orderly s) (hpc : listenPc s l=some (.joining k))
    (hended : NetShutdown.terminated s k=true) :
    joinThread s l k=some (goListener (setFate s k fun fate => {fate with gone := true}) l .tearing) ∧
      Orderly (goListener (setFate s k fun fate => {fate with gone := true}) l .tearing) := by
  obtain ⟨⟨thread,hget,hl⟩,_,hhandle⟩ := h.held l k (target_of_listenPc hpc)
  have hback : Orderly (goListener s l .tearing) := h.goBusy hpc ListenPc.noConfusion
    (h.threads.go hpc ListenPc.noConfusion ⟨ListenPc.noConfusion,ListenPc.noConfusion⟩) rfl
  refine ⟨by rw [joinThread,hhandle,if_neg Bool.false_ne_true],
    hback.handle hget (h.terminated hget hended) fun j hwait => ?_⟩
  -- whoever else waits for it would be its listening thread
  rw [goListener,target_set] at hwait
  split at hwait
  · obtain ⟨_,_,hc⟩ := Option.bind_eq_some_iff.mp hwait
    cases hc
  · rename_i hj
    obtain ⟨⟨thread',hget',hl'⟩,_⟩ := h.held j k hwait
    cases hget.symm.trans hget'
    exact hj (hl.symm.trans hl')

/-- A thread that finds the end of the stream goes to its cleanup handlers. -/
theorem connPc_closed (hstep : connStep setup net (.receive k .closed)=some ((),net')) :
    connPc net' k=some .failRing := by
  simp only [connStep,Option.bind_eq_some_iff] at hstep
  obtain ⟨thread,hget,out,hout,hstep⟩ := hstep
  rw [connReceive] at hout
  obtain ⟨conn,_,hout⟩ := Option.bind_eq_some_iff.mp hout
  obtain ⟨fb,_,rfl⟩ := Option.map_eq_some_iff.mp hout
  cases hstep
  rw [connPc,setThread,List.getElem?_set_self (List.getElem?_eq_some_iff.mp hget).1]
  rfl

/-- A thread with its cleanup handlers in front of it may act on a cancellation. -/
theorem Orderly.acts (h : Orderly s) {f : Fate → Fate}
    (hpc : connPc s.net k=some .failRing ∨ connPc s.net k=some .failSocket ∨
      connPc s.net k=some .removeSelf)
    (hkept : ∀ fate, (f fate).cancelled=fate.cancelled ∧ (f fate).gone=fate.gone ∧
      (f fate).lost=fate.lost) : Orderly (setFate s k f) := by
  obtain ⟨thread,hget,hrank⟩ : ∃ thread, s.net.conns[k]?=some thread ∧
      ConnPc.failRing.rank ≤ thread.pc.rank := by
    rcases hpc with hpc | hpc | hpc
    all_goals
      obtain ⟨thread,hget,hpc⟩ := of_connPc hpc
      exact ⟨thread,hget,by simp [hpc]⟩
  exact h.fate hget (fun hc => (hkept _).1.trans hc) (hkept _).2 fun _ => hrank

/-- A thread acts on its cancellation in the receive loop or in a message
behind it. -/
theorem Orderly.act (h : Orderly s)
    (hpc : connPc s.net k=some .recv ∨ connPc s.net k=some .failRing ∨
      connPc s.net k=some .failSocket) :
    ∃ s', actOnCancel setup s k=some s' ∧ Orderly s' ∧ s'.listeners=s.listeners ∧
      s'.killer=s.killer ∧ (∀ j, (s'.fates j).gone=(s.fates j).gone) ∧
      (connPc s.net k=some .recv → connStep setup s.net (.receive k .closed)=some ((),s'.net)) := by
  have hgone : ∀ j, ((setFate s k fun fate => {fate with acting := true}).fates j).gone=
      (s.fates j).gone := fun j => by
    by_cases hj : j=k
    · rw [hj,setFate_self]
    · rw [setFate_of_ne s _ hj]
  unfold actOnCancel
  dsimp only
  by_cases hrecv : connPc s.net k=some .recv
  · obtain ⟨t,hgoes,hinv,_,_,hstep,_⟩ := @Orderly.goes setup s _ h (possible_closed hrecv)
      (Or.inr ⟨k,rfl⟩) (fun _ hc => hc) (by simp) (by simp)
    have ht : t={s with net := t.net} := by
      rw [connGoes,hstep] at hgoes
      exact (Option.some.inj hgoes).symm
    refine ⟨setFate t k fun fate => {fate with acting := true},?_,
      hinv.acts (Or.inl (connPc_closed hstep)) fun _ => ⟨rfl,rfl,rfl⟩,by rw [ht]; rfl,by rw [ht]; rfl,
      by rw [ht]; exact hgone,fun _ => hstep⟩
    rw [if_pos (show connPc (setFate s k _).net k=some .recv from hrecv),connGoes]
    change (connStep setup s.net (.receive k .closed)).map _=_
    rw [hstep,ht]
    rfl
  · rw [if_neg (show ¬connPc (setFate s k _).net k=some .recv from hrecv)]
    exact ⟨_,rfl,h.acts ((hpc.resolve_left hrecv).imp_right Or.inl) fun _ => ⟨rfl,rfl,rfl⟩,rfl,rfl,
      hgone,fun hc => absurd hc hrecv⟩

/-- Every orderly step succeeds and keeps the order. -/
theorem orderly_step {event : ThreadEvent} (h : Orderly s)
    (hpossible : OrderlyPossible setup s event) :
    ∃ r s', threadStep setup s event=some (r,s') ∧ Orderly s' := by
  obtain ⟨hpossible,horderly⟩ := hpossible
  cases event with
  | conn e =>
    have halloc : ∀ k, ¬FailsAlloc k s.net e := fun k hfails => by
      cases e with
      | lookup j look node block numaNode =>
        exact horderly ⟨j,rfl,by rw [←hfails.1] at hfails; exact hfails⟩
      | _ => exact hfails
    have hfree : ∀ k l, e=.freeSelf k → listenPc s l≠some (.reading k) := by
      rintro k l rfl hreading
      obtain ⟨listener,hlistener,hpc⟩ := Option.map_eq_some_iff.mp hreading
      exact horderly ⟨listener,List.mem_of_getElem? hlistener,hpc⟩
    have hleave : ∀ k l, e=.detach k → listenPc s l≠some (.entering k) := by
      rintro k l rfl hentering
      obtain ⟨listener,hlistener,hpc⟩ := Option.map_eq_some_iff.mp hentering
      exact horderly ⟨listener,List.mem_of_getElem? hlistener,hpc⟩
    obtain ⟨s',hgoes,hinv,_⟩ := h.goes hpossible.1 (Or.inl hpossible.2.2) halloc hfree hleave
    exact ⟨(),s',by rw [threadStep,hgoes]; rfl,hinv⟩
  | listAlloc l list =>
    refine ⟨(),_,rfl,h.goBusy hpossible ListenPc.noConfusion
      (threadsInv_step (r := ()) h.threads hpossible rfl) ?_⟩
    split <;> rfl
  | refuse l =>
    exact ⟨(),_,rfl,h.goBusy hpossible ListenPc.noConfusion
      (threadsInv_step (r := ()) h.threads hpossible rfl) rfl⟩
  | refused l =>
    exact ⟨(),_,rfl,h.goBusy hpossible ListenPc.noConfusion
      (threadsInv_step (r := ()) h.threads hpossible rfl) rfl⟩
  | complain l =>
    exact ⟨(),_,rfl,h.listenBusy (threadsInv_step (r := ()) h.threads hpossible rfl)
      (fun _ _ => rfl) fun _ _ _ => rfl⟩
  | complained l =>
    exact ⟨(),_,rfl,h.listenBusy (threadsInv_step (r := ()) h.threads hpossible rfl)
      (fun _ _ => rfl) fun _ _ hlocked => absurd hlocked Bool.false_ne_true⟩
  | leave l =>
    exact ⟨(),_,rfl,h.goBusy hpossible ListenPc.noConfusion
      (threadsInv_step (r := ()) h.threads hpossible rfl) rfl⟩
  | actListen l =>
    refine ⟨(),_,rfl,h.listenBusy (threadsInv_step (r := ()) h.threads hpossible rfl)
      (fun _ _ => rfl) fun listener hget hlocked => ?_⟩
    have hunlocked : listener.locked=false := by
      rcases hpossible.1 with hpc | hpc | hpc
      · exact h.unlocked hpc ListenPc.noConfusion listener hget
      · exact h.unlocked hpc ListenPc.noConfusion listener hget
      · exact absurd hpc horderly
    rw [hunlocked] at hlocked
    cases hlocked
  | cancelHead l =>
    obtain ⟨s',hstep,hinv,_⟩ := h.cancelHead setup hpossible
    exact ⟨(),s',by rw [threadStep,hstep]; rfl,hinv⟩
  | readHandle l k =>
    obtain ⟨hstep,hinv⟩ := h.readHandle hpossible
    exact ⟨(),_,by rw [threadStep,hstep]; rfl,hinv⟩
  | enterJoin l k =>
    obtain ⟨hstep,hinv⟩ := h.enterJoin hpossible
    exact ⟨(),_,by rw [threadStep,hstep]; rfl,hinv⟩
  | join l k =>
    obtain ⟨hstep,hinv⟩ := h.join hpossible.1 hpossible.2
    exact ⟨(),_,by rw [threadStep,hstep]; rfl,hinv⟩
  | cutJoin l k =>
    refine ⟨(),_,rfl,h.listenBusy (threadsInv_step (r := ()) h.threads hpossible rfl)
      (fun _ _ => rfl) fun listener hget hlocked => ?_⟩
    dsimp only at hlocked
    rw [h.unlocked hpossible.1 ListenPc.noConfusion listener hget] at hlocked
    cases hlocked
  | act k =>
    obtain ⟨s',hstep,hinv,_⟩ := @Orderly.act setup _ _ h hpossible.2
    exact ⟨(),s',by rw [threadStep,hstep]; rfl,hinv⟩
  | actSetUp k => exact absurd trivial horderly
  | cutClose k =>
    obtain ⟨t,hgoes,hinv,_,_,hstep,_⟩ := @Orderly.goes setup s (.popSocket k) h hpossible.2
      (Or.inr ⟨k,rfl⟩) (fun _ hc => hc) (by simp) (by simp)
    refine ⟨(),setFate t k fun fate => {fate with acting := true, unclosed := true},
      by rw [threadStep,hgoes]; rfl,hinv.acts (Or.inr (Or.inr ?_)) fun _ => ⟨rfl,rfl,rfl⟩⟩
    obtain ⟨thread,hget,_⟩ := of_connPc hpossible.2
    simp only [connStep,hget,Option.map_some] at hstep
    rw [connPc,←(Prod.mk.inj (Option.some.inj hstep)).2,setThread,
      List.getElem?_set_self (List.getElem?_eq_some_iff.mp hget).1]
    rfl
  | kill =>
    exact ⟨(),_,rfl,h.killer (threadsInv_step (r := ()) h.threads hpossible rfl)⟩
  | cancelListener l =>
    have hset := @ThreadsInv.listen _ l h.threads (fun listener => {listener with cancelled := true})
      (fun _ _ hended => hended) (fun _ _ _ => rfl) fun _ _ hpc hcut _ => ⟨hpc,hcut⟩
    have hpc : ∀ listener∈s.listeners[l]?, listenPc s l=some listener.pc :=
      fun listener hget => by rw [listenPc,hget]; rfl
    have hinv := h.listen hset
      (fun listener hget k hwait => h.held l k ((target_of_listenPc (hpc listener hget)).trans hwait))
      (fun listener hget k hreading => h.there l k ((hpc listener hget).trans (congrArg some hreading)))
      fun listener hget => h.locked listener (List.mem_of_getElem? hget)
    exact ⟨(),_,rfl,hinv.killer (threadsInv_step (r := ()) h.threads hpossible rfl)⟩
  | joinListener l =>
    exact ⟨(),_,rfl,h.killer (threadsInv_step (r := ()) h.threads hpossible rfl)⟩

/-- How much is left of a connection thread, with its handle. -/
def threadLeft (s : NetThreads) (k : ℕ) : ℕ :=
  ((s.net.conns[k]?.map fun thread => ConnPc.ended.rank-thread.pc.rank).getD 0)+
    (!(s.fates k).gone).toNat

/-- How much is left of a listening thread between two joins. -/
def listenLeft (s : NetThreads) (l : ℕ) : ℕ :=
  match listenPc s l with
  | some .complaining => 7
  | some .starting | some .refusing => 6
  | some .accepting => 5
  | some .tearing => 4
  | some (.reading _) => 3
  | some (.entering _) => 2
  | some (.joining _) => 1
  | some .ended | none => 0

/-- How much is left of `net_kill_threads`. -/
def killLeft (s : NetThreads) : ℕ :=
  match s.killer with
  | .serving => 2*s.listeners.length+1
  | .next left => 2*left
  | .waiting l => 2*l+1

/-- How much is left of all connection threads. -/
def connsLeft (s : NetThreads) : ℕ := ∑ k∈Finset.range s.net.conns.length, threadLeft s k

/-- How much is left of all listening threads. -/
def listenersLeft (s : NetThreads) : ℕ := ∑ l∈Finset.range s.listeners.length, listenLeft s l

/-- How much is left of the shutdown. A step of a connection thread counts for
more than all that the listening threads can do between two of them. -/
def left (s : NetThreads) : ℕ :=
  (7*s.listeners.length+1)*connsLeft s+listenersLeft s+killLeft s

/-- A listening thread does little between two joins. -/
theorem listenersLeft_le (s : NetThreads) : listenersLeft s ≤ 7*s.listeners.length := by
  have hle : ∀ l∈Finset.range s.listeners.length, listenLeft s l ≤ 7 := fun l _ => by
    unfold listenLeft
    split <;> omega
  have hsum := Finset.sum_le_card_nsmul _ _ 7 hle
  rwa [Finset.card_range,smul_eq_mul,Nat.mul_comm] at hsum

/-- Less is left when a connection thread has gone on. -/
theorem left_of_conns (hlisteners : s'.listeners.length=s.listeners.length)
    (hkiller : s'.killer=s.killer) (hconns : connsLeft s'<connsLeft s) : left s'<left s := by
  have hkill : killLeft s'=killLeft s := by rw [killLeft,killLeft,hkiller,hlisteners]
  have hle := listenersLeft_le s'
  have hmul := Nat.mul_le_mul_left (7*s.listeners.length+1) (Nat.succ_le_of_lt hconns)
  rw [Nat.mul_succ] at hmul
  rw [left,left,hkill]
  rw [hlisteners] at hle ⊢
  omega

/-- So it is when a listening thread has, with the connection threads where
they were. -/
theorem left_of_listener (hlisteners : s'.listeners.length=s.listeners.length)
    (hkiller : s'.killer=s.killer) (hconns : connsLeft s'=connsLeft s) (hl : l<s.listeners.length)
    (hlt : listenLeft s' l<listenLeft s l)
    (hother : ∀ j≠l, listenPc s' j=listenPc s j) : left s'<left s := by
  have hkill : killLeft s'=killLeft s := by rw [killLeft,killLeft,hkiller,hlisteners]
  have hsum : listenersLeft s'<listenersLeft s := by
    rw [listenersLeft,listenersLeft,hlisteners]
    refine Finset.sum_lt_sum (fun j _ => ?_) ⟨l,Finset.mem_range.mpr hl,hlt⟩
    by_cases hj : j=l
    · rw [hj]
      exact Nat.le_of_lt hlt
    · rw [listenLeft,listenLeft,hother j hj]
  rw [left,left,hkill,hconns,hlisteners]
  omega

/-- Less is left of the connection threads when one has gone on or has lost its
handle, and none has gone back. -/
theorem connsLeft_lt (hlen : s'.net.conns.length=s.net.conns.length) (hk : k<s.net.conns.length)
    (hle : ∀ j, threadLeft s' j ≤ threadLeft s j) (hlt : threadLeft s' k<threadLeft s k) :
    connsLeft s'<connsLeft s := by
  rw [connsLeft,connsLeft,hlen]
  exact Finset.sum_lt_sum (fun j _ => hle j) ⟨k,Finset.mem_range.mpr hk,hlt⟩

/-- The last point is the last one. -/
theorem rank_le (pc : ConnPc) : pc.rank ≤ ConnPc.ended.rank := by
  cases pc <;> simp

/-- Less is left of them behind a step that brings a thread on. -/
theorem connsLeft_set (hget : s.net.conns[k]?=some thread)
    (hconns : s'.net.conns=s.net.conns.set k thread') (hrank : thread.pc.rank<thread'.pc.rank)
    (hgone : ∀ j, (s.fates j).gone=true → (s'.fates j).gone=true) : connsLeft s'<connsLeft s := by
  have hk := (List.getElem?_eq_some_iff.mp hget).1
  have hnot : ∀ j, (!(s'.fates j).gone).toNat ≤ (!(s.fates j).gone).toNat := fun j => by
    cases hbefore : (s.fates j).gone with
    | false => exact Bool.toNat_le _
    | true => rw [hgone j hbefore]
  have hself : threadLeft s' k<threadLeft s k := by
    have hle := hnot k
    have hend := rank_le thread'.pc
    rw [threadLeft,threadLeft,hconns,List.getElem?_set_self hk,hget,Option.map_some,Option.map_some,
      Option.getD_some,Option.getD_some]
    omega
  refine connsLeft_lt (by rw [hconns,List.length_set]) hk (fun j => ?_) hself
  by_cases hj : j=k
  · rw [hj]
    exact Nat.le_of_lt hself
  · rw [threadLeft,threadLeft,hconns,List.getElem?_set_ne (Ne.symm hj)]
    exact Nat.add_le_add_left (hnot j) _

/-- A step of a connection thread that brings it on. -/
theorem Orderly.advance (h : Orderly s) (hpossible : ConnectionThread.Possible setup s.net e)
    (hown : Unhindered s e) (hthread : threadOf e=some k) (hreceive : ∀ k pass, e≠.receive k pass)
    (halloc : ∀ k, ¬FailsAlloc k s.net e)
    (hfree : ∀ k l, e=.freeSelf k → listenPc s l≠some (.reading k))
    (hleave : ∀ k l, e=.detach k → listenPc s l≠some (.entering k)) :
    ∃ event s', OrderlyPossible setup s event ∧ threadStep setup s event=some ((),s') ∧ Orderly s' ∧
      left s'<left s := by
  obtain ⟨s',hgoes,hinv,hlisteners,hkiller,hstep,hfates⟩ := h.goes hpossible (Or.inl hown) halloc
    hfree hleave
  have horderly : ¬Disorderly s (.conn e) := by
    intro hdis
    cases e with
    | freeSelf j =>
      obtain ⟨listener,hmem,hpc⟩ := hdis
      obtain ⟨l,hget⟩ := List.mem_iff_getElem?.mp hmem
      refine hfree j l rfl ?_
      rw [listenPc,hget,Option.map_some,hpc]
    | detach j =>
      obtain ⟨listener,hmem,hpc⟩ := hdis
      obtain ⟨l,hget⟩ := List.mem_iff_getElem?.mp hmem
      refine hleave j l rfl ?_
      rw [listenPc,hget,Option.map_some,hpc]
    | _ =>
      obtain ⟨j,_,hfails⟩ := hdis
      exact halloc j hfails
  refine ⟨.conn e,s',⟨⟨hpossible,fun j _ => h.lost j,hown⟩,horderly⟩,by rw [threadStep,hgoes]; rfl,hinv,
    left_of_conns (by rw [hlisteners]) hkiller ?_⟩
  rcases connStep_conns hpossible hstep with
    ⟨j,thread,thread',_,hget,hconns,_,_,hrank | ⟨pass,he⟩⟩ | ⟨_,he,_⟩ | ⟨_,_,he,_⟩
  · exact connsLeft_set hget hconns hrank fun i => (hfates i).2.2
  · exact absurd he (hreceive j pass)
  · rw [he] at hthread
    cases hthread
  · rw [he] at hthread
    cases hthread

/-- The holder of `fb_lock` can go on. -/
theorem Orderly.unlocks (h : Orderly s) (hlock : s.net.fbLock=some k) :
    ∃ event s', OrderlyPossible setup s event ∧ threadStep setup s event=some ((),s') ∧ Orderly s' ∧
      left s'<left s := by
  obtain ⟨seqs,hconn⟩ := h.threads.conn
  obtain ⟨thread,hget,hlocks⟩ := (hconn.lock k).mp hlock
  rw [ConnThread.locks,h.not_failed hget,Bool.false_or,Bool.or_eq_true,decide_eq_true_eq,
    decide_eq_true_eq] at hlocks
  have hpc : connPc s.net k=some thread.pc := by rw [connPc,hget]; rfl
  rcases hlocks with hlookup | hunlocking
  · rw [hlookup] at hpc
    exact @Orderly.advance setup s k (.lookup k 0 (some 0) (some fun _ => ⟨0,0,0,0⟩) 0) h hpc trivial rfl
      (by simp) (fun _ hfails => by simp [FailsAlloc] at hfails) (by simp) (by simp)
  · rw [hunlocking] at hpc
    exact @Orderly.advance setup s k (.unlockFb k) h hpc trivial rfl (by simp) (fun _ hfails => hfails)
      (by simp) (by simp)

/-- Less is left when a thread has acted on its cancellation in the receive
loop. -/
theorem Orderly.act_left (h : Orderly s) (hpc : connPc s.net k=some .recv)
    (hcancelled : (s.fates k).cancelled=true) :
    ∃ event s', OrderlyPossible setup s event ∧ threadStep setup s event=some ((),s') ∧ Orderly s' ∧
      left s'<left s := by
  obtain ⟨thread,hget,hrecv⟩ := of_connPc hpc
  have hacting : (s.fates k).acting=false := eq_false_of_ne_true fun hc => by
    have hrank := h.acting k thread hget hc
    rw [hrecv] at hrank
    exact absurd hrank (by decide)
  have hpossible : ThreadPossible setup s (.act k) := ⟨⟨hcancelled,hacting⟩,Or.inl hpc⟩
  obtain ⟨s',hacts,hinv,hlisteners,hkiller,hgone,hleaves⟩ := @Orderly.act setup s k h (Or.inl hpc)
  have hstep := hleaves hpc
  refine ⟨.act k,s',⟨hpossible,fun hc => hc⟩,by rw [threadStep,hacts]; rfl,hinv,
    left_of_conns (by rw [hlisteners]) hkiller ?_⟩
  rcases connStep_conns (possible_closed hpc) hstep with
    ⟨j,before,thread',hj,hbefore,hconns,_⟩ | ⟨_,he,_⟩ | ⟨_,_,he,_⟩
  · cases hj
    cases hget.symm.trans hbefore
    obtain ⟨after',hafter,hfail⟩ := of_connPc (connPc_closed hstep)
    rw [hconns,List.getElem?_set_self (List.getElem?_eq_some_iff.mp hget).1] at hafter
    cases hafter
    refine connsLeft_set hget hconns ?_ fun i hi => (hgone i).trans hi
    rw [hrecv,hfail]
    decide
  · cases he
  · cases he

/-- As long as a listening thread waits for a connection thread that has not
ended, some thread can go on. -/
theorem Orderly.advance_joined (h : Orderly s) (hwait : listenPc s l=some (.joining k))
    (hnot : NetShutdown.terminated s k=false) :
    ∃ event s', OrderlyPossible setup s event ∧ threadStep setup s event=some ((),s') ∧ Orderly s' ∧
      left s'<left s := by
  obtain ⟨⟨thread,hget,hl⟩,hcancelled,_⟩ := h.held l k (target_of_listenPc hwait)
  -- the only listening thread that could be about to join it waits for it already
  have hnobody : ∀ i pc, targetOf pc=some k → listenPc s i=some pc → pc=.joining k := by
    intro i pc htarget hi
    obtain ⟨⟨thread',hget',hi'⟩,_⟩ := h.held i k ((target_of_listenPc hi).trans htarget)
    cases hget.symm.trans hget'
    rw [←hi',hl,hwait] at hi
    exact (Option.some.inj hi).symm
  have hpc : connPc s.net k=some thread.pc := by rw [connPc,hget]; rfl
  have hgoes : ∀ e, ConnectionThread.Possible setup s.net e → Unhindered s e → threadOf e=some k →
      (∀ k pass, e≠.receive k pass) → (∀ k, ¬FailsAlloc k s.net e) →
      ∃ event s', OrderlyPossible setup s event ∧ threadStep setup s event=some ((),s') ∧ Orderly s' ∧
        left s'<left s := by
    refine fun e hp hu ht hr ha => h.advance hp hu ht hr ha (fun j i he hi => ?_) fun j i he hi => ?_
    · rw [he] at ht
      cases ht
      cases hnobody i _ rfl hi
    · rw [he] at ht
      cases ht
      cases hnobody i _ rfl hi
  cases hcase : thread.pc with
  | starting =>
    rw [hcase] at hpc
    cases hlock : s.net.fbLock with
    | none => exact hgoes (.lockFb k) ⟨hpc,hlock⟩ trivial rfl (by simp) fun _ hf => hf
    | some j => exact h.unlocks hlock
  | lookup =>
    rw [hcase] at hpc
    exact hgoes (.lookup k 0 (some 0) (some fun _ => ⟨0,0,0,0⟩) 0) hpc trivial rfl (by simp)
      fun _ hf => by simp [FailsAlloc] at hf
  | unlocking =>
    rw [hcase] at hpc
    exact hgoes (.unlockFb k) hpc trivial rfl (by simp) fun _ hf => hf
  | alloc =>
    rw [hcase] at hpc
    exact hgoes (.alloc k false none) hpc trivial rfl (by simp) fun _ hf => hf
  | recv =>
    rw [hcase] at hpc
    exact h.act_left hpc hcancelled
  | failRing =>
    rw [hcase] at hpc
    exact hgoes (.popRing k) hpc trivial rfl (by simp) fun _ hf => hf
  | failSocket =>
    rw [hcase] at hpc
    exact hgoes (.popSocket k) hpc trivial rfl (by simp) fun _ hf => hf
  | removeSelf =>
    rw [hcase] at hpc
    refine hgoes (.removeSelf k) hpc (fun thread' hget' => ?_) rfl (by simp) fun _ hf => hf
    -- a listening thread that waits does not hold the list
    rw [Option.mem_def,hget] at hget'
    cases hget'
    rw [hl]
    exact h.unlocked hwait ListenPc.noConfusion
  | freeSelf =>
    rw [hcase] at hpc
    exact hgoes (.freeSelf k) hpc trivial rfl (by simp) fun _ hf => hf
  | fail =>
    rw [hcase] at hpc
    refine hgoes (.detach k) hpc ?_ rfl (by simp) fun _ hf => hf
    refine eq_false_of_ne_true fun hacting => ?_
    rw [NetShutdown.terminated,hacting,hpc] at hnot
    simp at hnot
  | ended =>
    rw [NetShutdown.terminated,hpc,hcase] at hnot
    simp at hnot

/-- Less is left when a listening thread goes to a later point. -/
theorem left_go {pc pc' : ListenPc} {f : Listener → Listener} (hpc : listenPc s l=some pc)
    (hnet : s'.net=s.net) (hgone : ∀ k, (s'.fates k).gone=(s.fates k).gone)
    (hlisteners : s'.listeners=(setListener s l f).listeners) (hkiller : s'.killer=s.killer)
    (hf : ∀ listener∈s.listeners[l]?, (f listener).pc=pc')
    (hlt : ∀ t t' : NetThreads, listenPc t l=some pc → listenPc t' l=some pc' →
      listenLeft t' l<listenLeft t l) : left s'<left s := by
  obtain ⟨listener,hget,_⟩ := Option.map_eq_some_iff.mp hpc
  have hpcs : ∀ j, listenPc s' j=listenPc (setListener s l f) j := fun j => by
    rw [listenPc,hlisteners]
    rfl
  have hafter : listenPc s' l=some pc' := by
    rw [hpcs,listenPc_set,if_pos rfl,hget,Option.map_some,hf listener hget]
  have hconns : connsLeft s'=connsLeft s := by
    rw [connsLeft,connsLeft,hnet]
    refine Finset.sum_congr rfl fun k _ => ?_
    rw [threadLeft,threadLeft,hnet,hgone]
  refine left_of_listener (by rw [hlisteners,setListener,List.length_modify]) hkiller hconns
    (List.getElem?_eq_some_iff.mp hget).1 (hlt s s' hpc hafter) fun j hj => ?_
  rw [hpcs,listenPc_set,if_neg (Ne.symm hj)]

/-- Less is left when the main thread goes on. -/
theorem left_of_killer {s' : NetThreads} (hnet : s'.net=s.net) (hfates : s'.fates=s.fates)
    (hlisteners : s'.listeners.length=s.listeners.length) (hpcs : ∀ j, listenPc s' j=listenPc s j)
    (hlt : killLeft s'<killLeft s) : left s'<left s := by
  have hconns : connsLeft s'=connsLeft s := by
    rw [connsLeft,connsLeft,hnet]
    refine Finset.sum_congr rfl fun k _ => ?_
    rw [threadLeft,threadLeft,hnet,hfates]
  have hlisten : listenersLeft s'=listenersLeft s := by
    rw [listenersLeft,listenersLeft,hlisteners]
    refine Finset.sum_congr rfl fun j _ => ?_
    rw [listenLeft,listenLeft,hpcs]
  rw [left,left,hconns,hlisten,hlisteners]
  omega

/-- A listening thread that was cancelled goes on, or the thread that it waits
for does, or another one that keeps that from going on. -/
theorem Orderly.advance_listener (h : Orderly s) {listener : Listener}
    (hget : s.listeners[l]?=some listener) (hcancelled : listener.cancelled=true)
    (hnot : listener.pc≠.ended) :
    ∃ event s', OrderlyPossible setup s event ∧ threadStep setup s event=some ((),s') ∧ Orderly s' ∧
      left s'<left s := by
  have hpc : listenPc s l=some listener.pc := by rw [listenPc,hget]; rfl
  cases hcase : listener.pc with
  | starting =>
    rw [hcase] at hpc
    have hpossible : OrderlyPossible setup s (.listAlloc l true) := ⟨hpc,fun hc => hc⟩
    obtain ⟨_,s',hstep,hinv⟩ := orderly_step h hpossible
    refine ⟨_,s',hpossible,hstep,hinv,?_⟩
    cases hstep
    exact left_go hpc rfl (fun _ => rfl) rfl rfl (fun _ _ => rfl) fun t t' ht ht' => by
      rw [listenLeft,listenLeft,ht,ht']
      decide
  | complaining =>
    rw [hcase] at hpc
    have hpossible : OrderlyPossible setup s (.complained l) := ⟨hpc,fun hc => hc⟩
    obtain ⟨_,s',hstep,hinv⟩ := orderly_step h hpossible
    refine ⟨_,s',hpossible,hstep,hinv,?_⟩
    cases hstep
    exact left_go hpc rfl (fun _ => rfl) rfl rfl (fun _ _ => rfl) fun t t' ht ht' => by
      rw [listenLeft,listenLeft,ht,ht']
      decide
  | refusing =>
    rw [hcase] at hpc
    have hpossible : OrderlyPossible setup s (.refused l) := ⟨hpc,fun hc => hc⟩
    obtain ⟨_,s',hstep,hinv⟩ := orderly_step h hpossible
    refine ⟨_,s',hpossible,hstep,hinv,?_⟩
    cases hstep
    exact left_go hpc rfl (fun _ => rfl) rfl rfl (fun _ _ => rfl) fun t t' ht ht' => by
      rw [listenLeft,listenLeft,ht,ht']
      decide
  | accepting =>
    rw [hcase] at hpc
    have hpossible : OrderlyPossible setup s (.actListen l) :=
      ⟨⟨Or.inl hpc,listener,hget,hcancelled⟩,fun hc => by cases hpc.symm.trans hc⟩
    obtain ⟨_,s',hstep,hinv⟩ := orderly_step h hpossible
    refine ⟨_,s',hpossible,hstep,hinv,?_⟩
    cases hstep
    exact left_go hpc rfl (fun _ => rfl) rfl rfl (fun _ _ => rfl) fun t t' ht ht' => by
      rw [listenLeft,listenLeft,ht,ht']
      decide
  | tearing =>
    rw [hcase] at hpc
    obtain ⟨s',hcancel,hinv,_,_,hs⟩ := h.cancelHead setup hpc
    refine ⟨.cancelHead l,s',⟨hpc,fun hc => hc⟩,by rw [threadStep,hcancel]; rfl,hinv,?_⟩
    rcases hs with rfl | ⟨k,rfl⟩
    · exact left_go hpc rfl (fun _ => rfl) rfl rfl (fun _ _ => rfl) fun t t' ht ht' => by
        rw [listenLeft,listenLeft,ht,ht']
        decide
    · refine left_go hpc rfl (fun j => ?_) rfl rfl (fun _ _ => rfl) fun t t' ht ht' => by
        rw [listenLeft,listenLeft,ht,ht']
        exact Nat.lt_succ_self 3
      rw [goListener_fates]
      by_cases hj : j=k
      · rw [hj,setFate_self]
      · rw [setFate_of_ne s _ hj]
  | reading k =>
    rw [hcase] at hpc
    obtain ⟨hread,hinv⟩ := h.readHandle hpc
    refine ⟨.readHandle l k,_,⟨hpc,fun hc => hc⟩,by rw [threadStep,hread]; rfl,hinv,?_⟩
    exact left_go hpc rfl (fun _ => rfl) rfl rfl (fun _ _ => rfl) fun t t' ht ht' => by
      rw [listenLeft,listenLeft,ht,ht']
      exact Nat.lt_succ_self 2
  | entering k =>
    rw [hcase] at hpc
    obtain ⟨henter,hinv⟩ := h.enterJoin hpc
    refine ⟨.enterJoin l k,_,⟨hpc,fun hc => hc⟩,by rw [threadStep,henter]; rfl,hinv,?_⟩
    exact left_go hpc rfl (fun _ => rfl) rfl rfl (fun _ _ => rfl) fun t t' ht ht' => by
      rw [listenLeft,listenLeft,ht,ht']
      exact Nat.lt_succ_self 1
  | joining k =>
    rw [hcase] at hpc
    cases hended : NetShutdown.terminated s k with
    | false => exact h.advance_joined hpc hended
    | true =>
      obtain ⟨hjoin,hinv⟩ := h.join hpc hended
      obtain ⟨⟨thread,hthread,_⟩,_,hhandle⟩ := h.held l k (target_of_listenPc hpc)
      refine ⟨.join l k,_,⟨⟨hpc,hended⟩,fun hc => hc⟩,by rw [threadStep,hjoin]; rfl,hinv,
        left_of_conns (List.length_modify _ _ _) rfl (connsLeft_lt rfl
          (List.getElem?_eq_some_iff.mp hthread).1 (fun j => Nat.add_le_add_left ?_ _)
          (Nat.add_lt_add_left ?_ _))⟩
      · rw [goListener_fates]
        by_cases hj : j=k
        · rw [hj,setFate_self]
          exact Nat.zero_le _
        · rw [setFate_of_ne s _ hj]
      · rw [goListener_fates,setFate_self,hhandle]
        exact Nat.one_pos
  | ended => exact absurd hcase hnot

/-- Until `net_kill_threads` has returned, some thread can go on. -/
theorem Orderly.progress (setup : NetSetup) (h : Orderly s) (hnot : s.killer≠.next 0) :
    ∃ event r s', OrderlyPossible setup s event ∧ threadStep setup s event=some (r,s') ∧
      Orderly s' ∧ left s'<left s := by
  have hkilled := h.threads.killed
  cases hkiller : s.killer with
  | serving =>
    have hpossible : OrderlyPossible setup s .kill := ⟨hkiller,fun hc => hc⟩
    obtain ⟨r,s',hstep,hinv⟩ := orderly_step h hpossible
    refine ⟨_,r,s',hpossible,hstep,hinv,?_⟩
    cases hstep
    refine left_of_killer rfl rfl rfl (fun _ => rfl) ?_
    rw [killLeft,killLeft,hkiller]
    exact Nat.lt_succ_self _
  | next j =>
    cases j with
    | zero => exact absurd hkiller hnot
    | succ j =>
      have hpossible : OrderlyPossible setup s (.cancelListener j) := ⟨hkiller,fun hc => hc⟩
      obtain ⟨r,s',hstep,hinv⟩ := orderly_step h hpossible
      refine ⟨_,r,s',hpossible,hstep,hinv,?_⟩
      cases hstep
      refine left_of_killer rfl rfl (List.length_modify _ _ _) (fun i => ?_) ?_
      · change listenPc (setListener s j _) i=_
        rw [listenPc_set]
        split
        · rfl
        · rfl
      · rw [killLeft,killLeft,hkiller]
        exact Nat.lt_succ_self _
  | waiting l =>
    rw [hkiller] at hkilled
    have hget := List.getElem?_eq_getElem hkilled.1
    have hcancelled := hkilled.2.2 _ hget
    by_cases hended : s.listeners[l].pc=.ended
    · have hpossible : OrderlyPossible setup s (.joinListener l) :=
        ⟨⟨hkiller,by rw [listenPc,hget,Option.map_some,hended]⟩,fun hc => hc⟩
      obtain ⟨r,s',hstep,hinv⟩ := orderly_step h hpossible
      refine ⟨_,r,s',hpossible,hstep,hinv,?_⟩
      cases hstep
      refine left_of_killer rfl rfl rfl (fun _ => rfl) ?_
      rw [killLeft,killLeft,hkiller]
      exact Nat.lt_succ_self _
    · obtain ⟨event,s',hall⟩ := @Orderly.advance_listener setup s l h _ hget hcancelled hended
      exact ⟨event,(),s',hall⟩

/-- The order at the beginning. -/
theorem orderly_created (fb : Fb) (num : ℕ) : Orderly (created fb num) := by
  have hnone : ∀ k : ℕ, (created fb num).net.conns[k]?=none := fun _ => rfl
  have hpc : ∀ l, ∀ pc, listenPc (created fb num) l=some pc → pc=.starting := by
    intro l pc h
    obtain ⟨listener,hget,rfl⟩ := Option.map_eq_some_iff.mp h
    rw [List.eq_of_mem_replicate (List.mem_of_getElem? hget)]
  refine ⟨threadsInv_created fb num,?_,fun _ => rfl,fun l k hwait => ?_,fun l k hreading => ?_,?_,?_,
    fun listener hmem hlocked => ?_,fun _ _ => rfl⟩
  · rintro k ⟨thread,hget,_⟩
    cases (hnone k).symm.trans hget
  · obtain ⟨pc,hat,htarget⟩ := Option.bind_eq_some_iff.mp hwait
    rw [hpc l pc hat] at htarget
    cases htarget
  · cases hpc l _ hreading
  · intro k thread hget
    cases (hnone k).symm.trans hget
  · intro k thread hget
    cases (hnone k).symm.trans hget
  · rw [List.eq_of_mem_replicate hmem] at hlocked
    cases hlocked

/-- As long as no allocation of a framebuffer fails, no connection thread is
cancelled in its set-up, none frees its structure between the cancellation and
the read of its handle or detaches itself between that and the join, and no
listening thread is cancelled in the message that it writes with `list_lock`
held, no step is a fault; and from wherever the threads are, the shutdown can
be brought to its end in this way: no thread waits for one that cannot end. -/
theorem shutdown_completes (setup : NetSetup) (fb : Fb) (num : ℕ) {events : List ThreadEvent}
    (hadm : Admitted (OrderlyPossible setup) (threadStep setup) (created fb num) events) :
    ∃ replies s, run (threadStep setup) (created fb num) events=some (replies,s) ∧
      ∃ more replies' t, Admitted (OrderlyPossible setup) (threadStep setup) s more ∧
        run (threadStep setup) s more=some (replies',t) ∧ t.killer=.next 0 := by
  obtain ⟨replies,s,hrun,hinv⟩ := run_total (fun _ _ h hp => orderly_step h hp)
    (orderly_created fb num) hadm
  obtain ⟨more,replies',t,hmore,hrun',_,hdone⟩ :=
    exists_completing left (fun _ h hnot => h.progress setup hnot) hinv
  exact ⟨replies,s,hrun,more,replies',t,hmore,hrun',hdone⟩

/-- A shutdown that begins while the only client is being set up. -/
theorem shutdown_completes_one :
    ∃ replies s, run (threadStep plainNet) (created (blankFb 4 4) 1)
        [.listAlloc 0 true,.conn (.accept 0),.conn (.lockFb 0),.kill,.cancelListener 0]=
        some (replies,s) ∧
      ∃ more replies' t, Admitted (OrderlyPossible plainNet) (threadStep plainNet) s more ∧
        run (threadStep plainNet) s more=some (replies',t) ∧ t.killer=.next 0 :=
  shutdown_completes plainNet (blankFb 4 4) 1 (by decide +kernel)

end Shoreline.ShutdownProgress
