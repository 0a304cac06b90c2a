import Shoreline.NumaQueues

/-!
# Which node a connection belongs to

A connection thread reads its node, pins itself to its processor, looks up the
framebuffer of the node it had read and, if there is none, allocates one,
which gets the node read at that time. Until it is pinned the scheduler may
move it. The lookup under the lock keeps framebuffers apart unless a thread
allocates on a node that it was moved to.
-/

namespace Shoreline.NodePinning

open Framebuffer StateMachine ServerRun NumaQueues

/-- The processors of a machine and their nodes. -/
structure Machine where
  /-- Number of nodes. -/
  nodes : ℕ
  /-- The node of a processor. -/
  nodeOf : ℕ → ℕ
  /-- It is one of them. -/
  nodeOf_lt : ∀ cpu, nodeOf cpu<nodes

/-- `get_numa_node` on a processor: zero where the system call fails. -/
def getNumaNode (machine : Machine) (call : Bool) (cpu : ℕ) : ℕ :=
  if call then machine.nodeOf cpu else 0

/-- Where a thread is at the start of `net_connection_thread`. -/
inductive Phase where
  /-- It has read nothing. -/
  | started
  /-- It has read its node. -/
  | read (node : ℕ)
  /-- It has read its processor too. -/
  | located (node cpu : ℕ)
  /-- It waits for `fb_lock`, pinned or not. -/
  | placed (node : ℕ)
  /-- It holds `fb_lock`. -/
  | holding (node : ℕ)
  /-- It holds `fb_lock` and found no framebuffer. -/
  | missing (node : ℕ)
  /-- It holds `fb_lock` and has a framebuffer. -/
  | equipped
  /-- It has released `fb_lock`. -/
  | serving
  /-- It left without a framebuffer, and without releasing `fb_lock`. -/
  | failed
  deriving DecidableEq, Repr

/-- All connection threads. -/
structure Arrivals where
  /-- The processor on which a thread runs. -/
  cpu : ℕ → ℕ
  /-- It is pinned there. -/
  pinned : ℕ → Bool
  phase : ℕ → Phase
  /-- Holder of `fb_lock`. -/
  lock : Option ℕ
  /-- `fb_list`. -/
  fbs : List Fb

/-- One step: the scheduler moves a thread, or a thread goes on, with the
outcomes of its calls. -/
inductive ArrivalEvent where
  | migrate (t cpu : ℕ)
  | readNode (t : ℕ) (call : Bool)
  | getCpu (t : ℕ) (call : Bool)
  | setAffinity (t : ℕ) (call : Bool)
  | lock (t : ℕ)
  | lookUp (t : ℕ)
  | allocate (t : ℕ) (node : Option UInt32) (block : Option (ℕ → FbPixel)) (call : Bool)
  | unlock (t : ℕ)

/-- A thread goes on to a phase. -/
def Arrivals.goTo (s : Arrivals) (t : ℕ) (phase : Phase) : Arrivals :=
  {s with phase := Function.update s.phase t phase}

/-- One step on a machine, with surfaces of the given size; `none` where it
cannot be taken. Without a processor number the thread goes on unpinned, and
so it does where it cannot be pinned. -/
def arrivalStep (machine : Machine) (host : Host) (size : FbSize)
    (s : Arrivals) : ArrivalEvent → Option (Unit×Arrivals)
  | .migrate t cpu =>
    if s.pinned t then none else some ((),{s with cpu := Function.update s.cpu t cpu})
  | .readNode t call =>
    match s.phase t with
    | .started => some ((),s.goTo t (.read (getNumaNode machine call (s.cpu t))))
    | _ => none
  | .getCpu t call =>
    match s.phase t with
    | .read node =>
      some ((),s.goTo t (if call then .located node (s.cpu t) else .placed node))
    | _ => none
  | .setAffinity t call =>
    match s.phase t with
    | .located node cpu =>
      let s := if call then {s with
          cpu := Function.update s.cpu t cpu
          pinned := Function.update s.pinned t true} else s
      some ((),s.goTo t (.placed node))
    | _ => none
  | .lock t =>
    match s.phase t,s.lock with
    | .placed node,none => some ((),{s with lock := some t}.goTo t (.holding node))
    | _,_ => none
  | .lookUp t =>
    match s.phase t with
    | .holding node =>
      some ((),s.goTo t (if (fbGetFbOnNode s.fbs node).isSome then .equipped else .missing node))
    | _ => none
  | .allocate t node block call =>
    match s.phase t with
    | .missing _ =>
      match fbAlloc host node block (getNumaNode machine call (s.cpu t)) size with
      | .error _ => some ((),s.goTo t .failed)
      | .ok fb => some ((),{s with fbs := s.fbs++[fb]}.goTo t .equipped)
    | _ => none
  | .unlock t =>
    match s.phase t with
    | .equipped => some ((),{s with lock := none}.goTo t .serving)
    | _ => none

/-- Threads anywhere on the machine before the first of them starts. -/
def empty (cpu : ℕ → ℕ) : Arrivals := ⟨cpu,fun _ => false,fun _ => .started,none,[]⟩

/-- The nodes of the framebuffers. -/
def fbNodes (s : Arrivals) : List ℕ := s.fbs.map Fb.numaNode

/-- No two framebuffers have the same node, and there are no more of them than
nodes. -/
structure OnePerNode (machine : Machine) (s : Arrivals) : Prop where
  /-- The nodes are different. -/
  distinct : (fbNodes s).Nodup
  /-- The machine bounds their number. -/
  bounded : s.fbs.length ≤ machine.nodes

/-- A thread allocates a framebuffer on another node than the one it had read,
and there is one on that node already. -/
def MovedOnto (machine : Machine) (s : Arrivals) : ArrivalEvent → Prop
  | .allocate t node block call => ∃ key, s.phase t=.missing key ∧ node.isSome ∧ block.isSome ∧
      getNumaNode machine call (s.cpu t)≠key ∧ getNumaNode machine call (s.cpu t)∈fbNodes s
  | _ => False

/-- The phases in which a thread holds the lock. -/
def Phase.Holds : Phase → Prop
  | .holding _ | .missing _ | .equipped | .failed => True
  | .started | .read _ | .located _ _ | .placed _ | .serving => False

/-- What a thread found out under the lock stays true while it holds it. -/
structure LookUpInv (machine : Machine) (s : Arrivals) : Prop where
  /-- Only the holder of the lock is in such a phase. -/
  holder : ∀ t, (s.phase t).Holds → s.lock=some t
  /-- No framebuffer was found. -/
  missing : ∀ t node, s.phase t=.missing node → node∉fbNodes s
  /-- Framebuffers are on nodes of the machine. -/
  onMachine : ∀ node∈fbNodes s,node < machine.nodes

/-- The node under which a thread looks for a framebuffer. -/
def Phase.key : Phase → Option ℕ
  | .read node | .located node _ | .placed node | .holding node | .missing node => some node
  | .started | .equipped | .serving | .failed => none

/-- The scheduler keeps a thread on the node that it had read, and the kernel
reports nodes. -/
def StaysOnNode (machine : Machine) (s : Arrivals) : ArrivalEvent → Prop
  | .migrate t cpu => (s.phase t).key.isSome → machine.nodeOf cpu=machine.nodeOf (s.cpu t)
  | .readNode _ call => call=true
  | .allocate _ _ _ call => call=true
  | _ => True

/-- Every thread is on the node under which it looks. -/
structure AtHome (machine : Machine) (s : Arrivals) : Prop where
  /-- It runs there. -/
  here : ∀ t node, (s.phase t).key=some node → machine.nodeOf (s.cpu t)=node
  /-- The processor it is about to be pinned to is there. -/
  located : ∀ t node cpu, s.phase t=.located node cpu → machine.nodeOf cpu=node

section

variable {machine : Machine} {host : Host} {size : FbSize} {s s' : Arrivals}

/-- A node that the kernel reports is one of the machine. -/
theorem getNumaNode_lt (machine : Machine) (call : Bool) (cpu : ℕ) :
    getNumaNode machine call cpu < machine.nodes := by
  cases call with
  | true => exact machine.nodeOf_lt cpu
  | false => exact Nat.lt_of_le_of_lt (Nat.zero_le _) (machine.nodeOf_lt cpu)

/-- The lookup finds a framebuffer exactly if there is one on the node. -/
theorem fbGetFbOnNode_isSome {fbs : List Fb} {node : ℕ} :
    (fbGetFbOnNode fbs node).isSome=true ↔ node∈fbs.map Fb.numaNode := by
  rw [fbGetFbOnNode,List.findIdx?_isSome,List.any_eq_true,List.mem_map]
  simp only [decide_eq_true_eq]

/-- The phases after a thread went on: the new one for it, and those of the
others. -/
theorem forall_goTo (s : Arrivals) (t : ℕ) (phase : Phase) (p : ℕ → Phase → Prop) :
    (∀ u, p u ((s.goTo t phase).phase u)) ↔ p t phase ∧ ∀ u, u≠t → p u (s.phase u) :=
  Function.forall_update_iff s.phase p

/-- A thread goes on without touching the list. -/
theorem LookUpInv.goTo (h : LookUpInv machine s) {t : ℕ} {phase : Phase}
    (hholds : phase.Holds → s.lock=some t)
    (hmissing : ∀ node, phase=.missing node → node∉fbNodes s) :
    LookUpInv machine (s.goTo t phase) where
  holder := (forall_goTo s t phase fun u phase => phase.Holds → s.lock=some u).mpr
    ⟨hholds,fun u _ => h.holder u⟩
  missing := (forall_goTo s t phase fun _ phase =>
    ∀ node, phase=.missing node → node∉fbNodes s).mpr ⟨hmissing,fun u _ => h.missing u⟩
  onMachine := h.onMachine

/-- A thread that holds nothing goes to a phase in which it holds nothing. -/
theorem LookUpInv.goOn (h : LookUpInv machine s) (t : ℕ) {phase : Phase} (hphase : ¬phase.Holds) :
    LookUpInv machine (s.goTo t phase) := by
  refine h.goTo (fun hholds => absurd hholds hphase) (fun node heq => ?_)
  rw [heq] at hphase
  exact absurd trivial hphase

/-- A thread takes the lock. -/
theorem LookUpInv.take (h : LookUpInv machine s) {t node : ℕ} (hlock : s.lock=none) :
    LookUpInv machine ({s with lock := some t}.goTo t (.holding node)) := by
  have hnone : ∀ u,¬(s.phase u).Holds := by
    intro u hu
    have hholder := h.holder u hu
    rw [hlock] at hholder
    cases hholder
  have hlocked : LookUpInv machine {s with lock := some t} :=
    ⟨fun u hu => absurd hu (hnone u),h.missing,h.onMachine⟩
  refine hlocked.goTo (fun _ => rfl) (fun node heq => ?_)
  cases heq

/-- While a thread holds the lock no other one does. -/
theorem LookUpInv.not_holds (h : LookUpInv machine s) {t u : ℕ} (ht : (s.phase t).Holds)
    (hut : u≠t) : ¬(s.phase u).Holds := by
  intro hu
  have hlock := h.holder u hu
  rw [h.holder t ht] at hlock
  exact hut (Option.some.inj hlock).symm

/-- A thread releases it. -/
theorem LookUpInv.release (h : LookUpInv machine s) {t : ℕ} (hphase : s.phase t=.equipped) :
    LookUpInv machine ({s with lock := none}.goTo t .serving) := by
  have hholds : (s.phase t).Holds := by
    rw [hphase]
    trivial
  refine ⟨?_,?_,h.onMachine⟩
  · refine (forall_goTo {s with lock := none} t .serving fun u phase => phase.Holds →
      (none : Option ℕ)=some u).mpr ⟨False.elim,fun u hut hu => ?_⟩
    exact absurd hu (h.not_holds hholds hut)
  · refine (forall_goTo {s with lock := none} t .serving fun _ phase =>
      ∀ node, phase=.missing node → node∉fbNodes s).mpr ⟨fun node heq => ?_,fun u _ => h.missing u⟩
    cases heq

/-- The holder of the lock appends a framebuffer. -/
theorem LookUpInv.append (h : LookUpInv machine s) {t key : ℕ} (hphase : s.phase t=.missing key)
    {fb : Fb} (hnode : fb.numaNode < machine.nodes) :
    LookUpInv machine ({s with fbs := s.fbs++[fb]}.goTo t .equipped) := by
  have hholds : (s.phase t).Holds := by
    rw [hphase]
    trivial
  refine ⟨?_,?_,fun node hmem => ?_⟩
  · exact (forall_goTo {s with fbs := s.fbs++[fb]} t .equipped fun u phase =>
      phase.Holds → s.lock=some u).mpr ⟨fun _ => h.holder t hholds,fun u _ => h.holder u⟩
  · refine (forall_goTo {s with fbs := s.fbs++[fb]} t .equipped fun _ phase =>
      ∀ node, phase=.missing node → node∉(s.fbs++[fb]).map Fb.numaNode).mpr
      ⟨fun node heq => (by cases heq),fun u hut node hu => ?_⟩
    -- another thread would hold the lock as well
    have hother : (s.phase u).Holds := by
      rw [show s.phase u=.missing node from hu]
      trivial
    exact absurd hother (h.not_holds hholds hut)
  · change node∈(s.fbs++[fb]).map Fb.numaNode at hmem
    rw [List.map_append,List.mem_append] at hmem
    cases hmem with
    | inl hold => exact h.onMachine node hold
    | inr hnew =>
      rw [List.map_singleton,List.mem_singleton] at hnew
      rw [hnew]
      exact hnode

/-- A thread moves before it is pinned. -/
theorem arrivalStep_migrate {t cpu : ℕ}
    (hstep : arrivalStep machine host size s (.migrate t cpu)=some ((),s')) :
    s.pinned t=false ∧ s'={s with cpu := Function.update s.cpu t cpu} := by
  rw [arrivalStep] at hstep
  split at hstep
  · cases hstep
  · next hpinned =>
      cases hstep
      exact ⟨Bool.eq_false_iff.mpr hpinned,rfl⟩

/-- A thread reads its node. -/
theorem arrivalStep_readNode {t : ℕ} {call : Bool}
    (hstep : arrivalStep machine host size s (.readNode t call)=some ((),s')) :
    s.phase t=.started ∧ s'=s.goTo t (.read (getNumaNode machine call (s.cpu t))) := by
  rw [arrivalStep] at hstep
  split at hstep
  · next hphase =>
      cases hstep
      exact ⟨hphase,rfl⟩
  · cases hstep

/-- It reads its processor. -/
theorem arrivalStep_getCpu {t : ℕ} {call : Bool}
    (hstep : arrivalStep machine host size s (.getCpu t call)=some ((),s')) :
    ∃ node, s.phase t=.read node ∧
      s'=s.goTo t (if call then .located node (s.cpu t) else .placed node) := by
  rw [arrivalStep] at hstep
  split at hstep
  · next node hphase =>
      cases hstep
      exact ⟨node,hphase,rfl⟩
  · cases hstep

/-- It is pinned to that processor, or is not. -/
theorem arrivalStep_setAffinity {t : ℕ} {call : Bool}
    (hstep : arrivalStep machine host size s (.setAffinity t call)=some ((),s')) :
    ∃ node cpu, s.phase t=.located node cpu ∧
      s'=(if call then {s with
          cpu := Function.update s.cpu t cpu
          pinned := Function.update s.pinned t true} else s).goTo t (.placed node) := by
  rw [arrivalStep] at hstep
  split at hstep
  · next node cpu hphase =>
      cases hstep
      exact ⟨node,cpu,hphase,rfl⟩
  · cases hstep

/-- It takes the lock that nobody holds. -/
theorem arrivalStep_lock {t : ℕ} (hstep : arrivalStep machine host size s (.lock t)=some ((),s')) :
    ∃ node, s.phase t=.placed node ∧ s.lock=none ∧
      s'={s with lock := some t}.goTo t (.holding node) := by
  rw [arrivalStep] at hstep
  split at hstep
  · next node hphase hlock =>
      cases hstep
      exact ⟨node,hphase,hlock,rfl⟩
  · cases hstep

/-- It looks for a framebuffer of the node it had read. -/
theorem arrivalStep_lookUp {t : ℕ}
    (hstep : arrivalStep machine host size s (.lookUp t)=some ((),s')) :
    ∃ node, s.phase t=.holding node ∧
      s'=s.goTo t (if (fbGetFbOnNode s.fbs node).isSome then .equipped else .missing node) := by
  rw [arrivalStep] at hstep
  split at hstep
  · next node hphase =>
      cases hstep
      exact ⟨node,hphase,rfl⟩
  · cases hstep

/-- It allocates one, or fails. -/
theorem arrivalStep_allocate {t : ℕ} {node : Option UInt32} {block : Option (ℕ → FbPixel)}
    {call : Bool} (hstep : arrivalStep machine host size s (.allocate t node block call)=some ((),s')) :
    ∃ key, s.phase t=.missing key ∧
      ((¬(node.isSome ∧ block.isSome) ∧ s'=s.goTo t .failed) ∨
        node.isSome ∧ block.isSome ∧ ∃ fb, fb.numaNode=getNumaNode machine call (s.cpu t) ∧
          s'={s with fbs := s.fbs++[fb]}.goTo t .equipped) := by
  rw [arrivalStep] at hstep
  split at hstep
  · next key hphase =>
      refine ⟨key,hphase,?_⟩
      cases node with
      | none =>
        cases hstep
        exact Or.inl ⟨fun h => Bool.false_ne_true h.1,rfl⟩
      | some garbage =>
        cases block with
        | none =>
          cases hstep
          exact Or.inl ⟨fun h => Bool.false_ne_true h.2,rfl⟩
        | some heap =>
          cases hstep
          exact Or.inr ⟨rfl,rfl,_,rfl,rfl⟩
  · cases hstep

/-- It releases the lock. -/
theorem arrivalStep_unlock {t : ℕ}
    (hstep : arrivalStep machine host size s (.unlock t)=some ((),s')) :
    s.phase t=.equipped ∧ s'={s with lock := none}.goTo t .serving := by
  rw [arrivalStep] at hstep
  split at hstep
  · next hphase =>
      cases hstep
      exact ⟨hphase,rfl⟩
  · cases hstep

/-- Every step keeps the invariant. -/
theorem LookUpInv.step (h : LookUpInv machine s) {e : ArrivalEvent}
    (hstep : arrivalStep machine host size s e=some ((),s')) : LookUpInv machine s' := by
  cases e with
  | migrate t cpu =>
    obtain ⟨-,rfl⟩ := arrivalStep_migrate hstep
    exact ⟨h.holder,h.missing,h.onMachine⟩
  | readNode t call =>
    obtain ⟨-,rfl⟩ := arrivalStep_readNode hstep
    exact h.goOn t not_false
  | getCpu t call =>
    obtain ⟨node,-,rfl⟩ := arrivalStep_getCpu hstep
    cases call with
    | true => exact h.goOn t not_false
    | false => exact h.goOn t not_false
  | setAffinity t call =>
    obtain ⟨node,cpu,-,rfl⟩ := arrivalStep_setAffinity hstep
    cases call with
    | true =>
      have hpinned : LookUpInv machine {s with
          cpu := Function.update s.cpu t cpu
          pinned := Function.update s.pinned t true} := ⟨h.holder,h.missing,h.onMachine⟩
      exact hpinned.goOn t not_false
    | false => exact h.goOn t not_false
  | lock t =>
    obtain ⟨node,-,hlock,rfl⟩ := arrivalStep_lock hstep
    exact h.take hlock
  | lookUp t =>
    obtain ⟨node,hphase,rfl⟩ := arrivalStep_lookUp hstep
    have hlock := h.holder t (by rw [hphase]; trivial)
    refine h.goTo (fun _ => hlock) (fun key heq hmem => ?_)
    -- it goes to `missing` exactly if nothing was found
    split at heq
    · cases heq
    · next hnone =>
        cases heq
        exact hnone (fbGetFbOnNode_isSome.mpr hmem)
  | allocate t node block call =>
    obtain ⟨key,hphase,⟨-,rfl⟩ | ⟨-,-,fb,hnode,rfl⟩⟩ := arrivalStep_allocate hstep
    · have hlock := h.holder t (by rw [hphase]; trivial)
      refine h.goTo (fun _ => hlock) (fun node heq => ?_)
      cases heq
    · exact h.append hphase (hnode ▸ getNumaNode_lt machine call _)
  | unlock t =>
    obtain ⟨hphase,rfl⟩ := arrivalStep_unlock hstep
    exact h.release hphase

/-- A step that does not allocate leaves the nodes alone. -/
theorem fbNodes_step {e : ArrivalEvent} (hstep : arrivalStep machine host size s e=some ((),s'))
    (he : ∀ t node block call, e≠.allocate t node block call) : fbNodes s'=fbNodes s := by
  cases e with
  | migrate t cpu =>
    obtain ⟨-,rfl⟩ := arrivalStep_migrate hstep
    rfl
  | readNode t call =>
    obtain ⟨-,rfl⟩ := arrivalStep_readNode hstep
    rfl
  | getCpu t call =>
    obtain ⟨node,-,rfl⟩ := arrivalStep_getCpu hstep
    rfl
  | setAffinity t call =>
    obtain ⟨node,cpu,-,rfl⟩ := arrivalStep_setAffinity hstep
    cases call <;> rfl
  | lock t =>
    obtain ⟨node,-,-,rfl⟩ := arrivalStep_lock hstep
    rfl
  | lookUp t =>
    obtain ⟨node,-,rfl⟩ := arrivalStep_lookUp hstep
    rfl
  | allocate t node block call => exact absurd rfl (he t node block call)
  | unlock t =>
    obtain ⟨-,rfl⟩ := arrivalStep_unlock hstep
    rfl

/-- A step puts two framebuffers on one node exactly if a thread was moved
onto it. -/
theorem duplicate_step (h : LookUpInv machine s) {e : ArrivalEvent}
    (hstep : arrivalStep machine host size s e=some ((),s')) :
    ¬(fbNodes s').Nodup ↔ ¬(fbNodes s).Nodup ∨ MovedOnto machine s e := by
  cases e with
  | allocate t node block call =>
    obtain ⟨key,hphase,⟨hfail,rfl⟩ | ⟨hn,hb,fb,hnode,rfl⟩⟩ := arrivalStep_allocate hstep
    · refine (or_iff_left ?_).symm
      rintro ⟨-,-,hn,hb,-⟩
      exact hfail ⟨hn,hb⟩
    · -- the node that was looked up has no framebuffer
      have hmissing := h.missing t key hphase
      have hmoved : MovedOnto machine s (.allocate t node block call) ↔
          getNumaNode machine call (s.cpu t)∈fbNodes s := by
        constructor
        · rintro ⟨-,-,-,-,-,hmem⟩
          exact hmem
        · intro hmem
          exact ⟨key,hphase,hn,hb,fun heq => hmissing (heq ▸ hmem),hmem⟩
      have hnodes : fbNodes ({s with fbs := s.fbs++[fb]}.goTo t .equipped)=
          (fbNodes s).concat (getNumaNode machine call (s.cpu t)) := by
        rw [← hnode,List.concat_eq_append]
        exact List.map_append
      rw [hmoved,hnodes,List.nodup_concat]
      tauto
  | _ =>
    rw [fbNodes_step hstep (by intro t node block call heq; cases heq)]
    exact (or_iff_left not_false).symm

/-- A thread goes on where it is. -/
theorem AtHome.goTo (h : AtHome machine s) {t : ℕ} {phase : Phase}
    (hkey : ∀ node, phase.key=some node → machine.nodeOf (s.cpu t)=node)
    (hlocated : ∀ node cpu, phase=.located node cpu → machine.nodeOf cpu=node) :
    AtHome machine (s.goTo t phase) where
  here := (forall_goTo s t phase fun u phase =>
    ∀ node, phase.key=some node → machine.nodeOf (s.cpu u)=node).mpr ⟨hkey,fun u _ => h.here u⟩
  located := (forall_goTo s t phase fun _ phase =>
    ∀ node cpu, phase=.located node cpu → machine.nodeOf cpu=node).mpr
    ⟨hlocated,fun u _ => h.located u⟩

/-- It goes on with the node it looks under, or without. -/
theorem AtHome.keep (h : AtHome machine s) {t : ℕ} {phase : Phase}
    (hkey : phase.key=none ∨ phase.key=(s.phase t).key)
    (hlocated : ∀ node cpu, phase≠.located node cpu) : AtHome machine (s.goTo t phase) := by
  refine h.goTo (fun node hnode => ?_) (fun node cpu heq => absurd heq (hlocated node cpu))
  cases hkey with
  | inl hnone =>
    rw [hnone] at hnode
    cases hnode
  | inr hsame => exact h.here t node (hsame ▸ hnode)

/-- A thread is put on a processor of its node. -/
theorem AtHome.move (h : AtHome machine s) {t cpu : ℕ} {pinned : ℕ → Bool}
    (hcpu : ∀ node, (s.phase t).key=some node → machine.nodeOf cpu=node) :
    AtHome machine {s with cpu := Function.update s.cpu t cpu, pinned := pinned} := by
  refine ⟨fun u node hu => ?_,h.located⟩
  by_cases hut : u=t
  · change machine.nodeOf (Function.update s.cpu t cpu u)=node
    rw [hut] at hu ⊢
    rw [Function.update_self]
    exact hcpu node hu
  · change machine.nodeOf (Function.update s.cpu t cpu u)=node
    rw [Function.update_of_ne hut]
    exact h.here u node hu

/-- Threads that are kept on their nodes are there. -/
theorem AtHome.step (h : AtHome machine s) {e : ArrivalEvent} (hstays : StaysOnNode machine s e)
    (hstep : arrivalStep machine host size s e=some ((),s')) : AtHome machine s' := by
  cases e with
  | migrate t cpu =>
    obtain ⟨-,rfl⟩ := arrivalStep_migrate hstep
    refine h.move (fun node hnode => ?_)
    rw [hstays (Option.isSome_of_eq_some hnode)]
    exact h.here t node hnode
  | readNode t call =>
    obtain ⟨-,rfl⟩ := arrivalStep_readNode hstep
    refine h.goTo (fun node hnode => ?_) (fun node cpu heq => by cases heq)
    rw [show call=true from hstays] at hnode
    exact Option.some.inj hnode
  | getCpu t call =>
    obtain ⟨node,hphase,rfl⟩ := arrivalStep_getCpu hstep
    have hhere := h.here t node (by rw [hphase]; rfl)
    cases call with
    | true =>
      refine h.goTo (fun key hkey => ?_) (fun key cpu heq => ?_)
      · cases hkey
        exact hhere
      · cases heq
        exact hhere
    | false => exact h.keep (Or.inr (by rw [hphase]; rfl)) (fun key cpu heq => by cases heq)
  | setAffinity t call =>
    obtain ⟨node,cpu,hphase,rfl⟩ := arrivalStep_setAffinity hstep
    have hkey : (s.phase t).key=some node := by
      rw [hphase]
      rfl
    cases call with
    | true =>
      have hmoved : AtHome machine {s with
          cpu := Function.update s.cpu t cpu
          pinned := Function.update s.pinned t true} := by
        refine h.move (fun key heq => ?_)
        rw [← Option.some.inj (hkey.symm.trans heq)]
        exact h.located t node cpu hphase
      exact hmoved.keep (Or.inr hkey.symm) (fun key cpu heq => by cases heq)
    | false => exact h.keep (Or.inr hkey.symm) (fun key cpu heq => by cases heq)
  | lock t =>
    obtain ⟨node,hphase,-,rfl⟩ := arrivalStep_lock hstep
    have hlocked : AtHome machine {s with lock := some t} := ⟨h.here,h.located⟩
    refine hlocked.keep (Or.inr ?_) (fun key cpu heq => by cases heq)
    rw [show ({s with lock := some t} : Arrivals).phase t=.placed node from hphase]
    rfl
  | lookUp t =>
    obtain ⟨node,hphase,rfl⟩ := arrivalStep_lookUp hstep
    split
    · exact h.keep (Or.inl rfl) (fun key cpu heq => by cases heq)
    · exact h.keep (Or.inr (by rw [hphase]; rfl)) (fun key cpu heq => by cases heq)
  | allocate t node block call =>
    obtain ⟨key,-,⟨-,rfl⟩ | ⟨-,-,fb,-,rfl⟩⟩ := arrivalStep_allocate hstep
    · exact h.keep (Or.inl rfl) (fun key cpu heq => by cases heq)
    · have happended : AtHome machine {s with fbs := s.fbs++[fb]} := ⟨h.here,h.located⟩
      exact happended.keep (Or.inl rfl) (fun key cpu heq => by cases heq)
  | unlock t =>
    obtain ⟨-,rfl⟩ := arrivalStep_unlock hstep
    have hreleased : AtHome machine {s with lock := none} := ⟨h.here,h.located⟩
    exact hreleased.keep (Or.inl rfl) (fun key cpu heq => by cases heq)

/-- A thread that is on the node it had read was not moved onto another. -/
theorem AtHome.not_movedOnto (h : AtHome machine s) {e : ArrivalEvent}
    (hstays : StaysOnNode machine s e) : ¬MovedOnto machine s e := by
  intro hmoved
  cases e with
  | allocate t node block call =>
    obtain ⟨key,hphase,-,-,hne,-⟩ := hmoved
    rw [show call=true from hstays] at hne
    exact hne (h.here t key (by rw [hphase]; rfl))
  | _ => exact hmoved

end

/-- Nobody has a framebuffer yet. -/
theorem lookUpInv_empty (machine : Machine) (cpu : ℕ → ℕ) : LookUpInv machine (empty cpu) :=
  ⟨fun _ h => False.elim h,fun _ _ h => (by cases h),fun _ h => absurd h List.not_mem_nil⟩

/-- Different nodes are no more than there are. -/
theorem onePerNode_iff {machine : Machine} {s : Arrivals} (h : LookUpInv machine s) :
    OnePerNode machine s ↔ (fbNodes s).Nodup := by
  refine ⟨fun hone => hone.distinct,fun hnodup => ⟨hnodup,?_⟩⟩
  have hsub : fbNodes s⊆List.range machine.nodes :=
    fun node hmem => List.mem_range.mpr (h.onMachine node hmem)
  have hle := (hnodup.subperm hsub).length_le
  rwa [fbNodes,List.length_map,List.length_range] at hle

/-- Where the scheduler keeps every thread on the node that it had read, every
node has its own framebuffer. -/
theorem onePerNode_of_stays (machine : Machine) (host : Host) (size : FbSize) (cpu : ℕ → ℕ)
    (events : List ArrivalEvent) (replies : List Unit) (t : Arrivals)
    (hadm : Admitted (StaysOnNode machine) (arrivalStep machine host size) (empty cpu) events)
    (hrun : run (arrivalStep machine host size) (empty cpu) events=some (replies,t)) :
    OnePerNode machine t := by
  have hinit : AtHome machine (empty cpu) :=
    ⟨fun _ _ h => (by cases h),fun _ _ _ h => (by cases h)⟩
  have hkeep : ∀ s e reply s',
      LookUpInv machine s ∧ AtHome machine s ∧ (fbNodes s).Nodup → StaysOnNode machine s e →
      arrivalStep machine host size s e=some (reply,s') →
      LookUpInv machine s' ∧ AtHome machine s' ∧ (fbNodes s').Nodup := by
    rintro s e _ s' ⟨hlook,hhome,hnodup⟩ hstays hstep
    refine ⟨hlook.step hstep,hhome.step hstays hstep,?_⟩
    by_contra hdup
    cases (duplicate_step hlook hstep).mp hdup with
    | inl hold => exact hold hnodup
    | inr hmoved => exact hhome.not_movedOnto hstays hmoved
  obtain ⟨hlook,-,hnodup⟩ :=
    run_invariant hkeep ⟨lookUpInv_empty machine cpu,hinit,List.nodup_nil⟩ hadm hrun
  exact (onePerNode_iff hlook).mpr hnodup

/-- On every machine, whatever order the scheduler chooses and wherever it
moves the threads, no two framebuffers have the same node exactly if no thread
allocated one on a node that it had been moved onto. -/
theorem onePerNode_iff_not_moved (machine : Machine) (host : Host) (size : FbSize) (cpu : ℕ → ℕ)
    (events : List ArrivalEvent) (replies : List Unit) (t : Arrivals)
    (hrun : run (arrivalStep machine host size) (empty cpu) events=some (replies,t)) :
    OnePerNode machine t ↔ ∀ before e after replies' u, events=before++e::after →
      run (arrivalStep machine host size) (empty cpu) before=some (replies',u) →
        ¬MovedOnto machine u e := by
  have hinit := lookUpInv_empty machine cpu
  have hadm : Admitted (fun _ _ => True) (arrivalStep machine host size) (empty cpu) events :=
    admitted_iff.mpr fun _ _ _ _ _ _ _ => trivial
  have hend : LookUpInv machine t :=
    run_invariant (fun _ _ _ _ h _ hstep => h.step hstep) hinit hadm hrun
  have hone : ∀ s e reply s', LookUpInv machine s → True →
      arrivalStep machine host size s e=some (reply,s') →
      LookUpInv machine s' ∧ (¬(fbNodes s').Nodup ↔ ¬(fbNodes s).Nodup ∨ MovedOnto machine s e) :=
    fun s e _ s' h _ hstep => ⟨h.step hstep,duplicate_step h hstep⟩
  have hocc := run_occurred hone hinit hadm hrun
  rw [onePerNode_iff hend,← not_iff_not,hocc]
  constructor
  · rintro (hdup | ⟨before,e,after,replies',u,he,hbefore,hmoved⟩) hall
    · exact hdup List.nodup_nil
    · exact hall before e after replies' u he hbefore hmoved
  · intro hall
    push Not at hall
    obtain ⟨before,e,after,replies',u,he,hbefore,hmoved⟩ := hall
    exact Or.inr ⟨before,e,after,replies',u,he,hbefore,hmoved⟩

/-- Processors in turn on two nodes. -/
def twoNodes : Machine := ⟨2,fun cpu => cpu%2,fun cpu => Nat.mod_lt cpu (by decide)⟩

/-- A thread goes through on its node, after it was moved behind its first
steps, if at all. -/
def goThrough (t : ℕ) (moves : List ℕ) : List ArrivalEvent :=
  .readNode t true::moves.map (.migrate t)++[.getCpu t true,.setAffinity t true,.lock t,.lookUp t,
    .allocate t (some 0) (some fun _ => ⟨0,0,0,0⟩) true,.unlock t]

/-- Two threads go through where they are, each on its node. -/
theorem onePerNode_iff_not_moved_two :
    ∃ replies t, run (arrivalStep twoNodes .littleEndian ⟨1,1⟩) (empty id)
        (goThrough 0 []++goThrough 1 [])=some (replies,t) ∧
      (OnePerNode twoNodes t ↔ ∀ before e after replies' u,
        goThrough 0 []++goThrough 1 []=before++e::after →
        run (arrivalStep twoNodes .littleEndian ⟨1,1⟩) (empty id) before=some (replies',u) →
          ¬MovedOnto twoNodes u e) ∧ OnePerNode twoNodes t :=
  ⟨_,_,rfl,onePerNode_iff_not_moved twoNodes .littleEndian ⟨1,1⟩ id
    (goThrough 0 []++goThrough 1 []) _ _ rfl,⟨by decide,by decide⟩⟩

/-- A thread that is moved to the other node before it is pinned finds nothing
on its first node and allocates a second framebuffer on the other one. -/
theorem moved_not_onePerNode : ¬∀ machine host size cpu events replies t,
    run (arrivalStep machine host size) (empty cpu) events=some (replies,t) →
      OnePerNode machine t := by
  intro h
  have hone := h twoNodes .littleEndian ⟨1,1⟩ id (goThrough 0 []++goThrough 1 [0]) _ _ rfl
  exact absurd hone.distinct (by decide)

end Shoreline.NodePinning
