import Shoreline.Resizing

/-!
# Work queues for the nodes

`workqueue_init` asks libnuma for the number of queues: one where it supports
NUMA, and as many as the highest node number where it does not. A framebuffer
has the node that the kernel reports, so without a queue of that number the
resize of a window fails.
-/

namespace Shoreline.NumaQueues

open Framebuffer Coalesce StateMachine ServerRun Resizing

/-- What libnuma says about a machine. -/
structure Numa where
  /-- `numa_available`. -/
  available : ℤ
  /-- `numa_max_node`, the highest node number. -/
  maxNode : ℕ
  /-- It is negative without support for NUMA, and zero otherwise. -/
  reported : available≤0

/-- `numa.h` without `FEATURE_NUMA`. -/
def withoutNuma : Numa := ⟨0,1,Int.le_refl 0⟩

/-- The loop of `workqueue_init`, given the results of `pthread_create`; on an
error the queues before are stopped, the last one first. -/
def createThreads (create : ℕ → ℤ) : ℕ → ℕ → Except (ℤ×List ℕ) Unit
  | _,0 => .ok ()
  | i,left+1 =>
    if -create i≠0 then .error (-create i,(List.range i).reverse)
    else createThreads create (i+1) left

/-- `workqueue_init`, given the outcome of its `calloc`: the number of queues,
or an error and the queues that were stopped. -/
def workqueueInit (numa : Numa) (memory : Bool) (create : ℕ → ℤ) : Except (ℤ×List ℕ) ℕ :=
  let num := if numa.available≠0 then numa.maxNode else 1
  if memory then (createThreads create 0 num).map fun _ => num
  else .error (-ENOMEM,[])

/-- A round of the loop of `resize_cb`, up to the check of its result. -/
def resizeCbRound (workqueues : ℕ) (size : FbSize) (i : ℕ) (fb : Fb) (memory : Bool×Bool)
    (queues : ℕ → List ResizeWork) : ℤ×(ℕ → List ResizeWork) :=
  if memory.1 then workqueueEnqueue workqueues queues fb.numaNode ⟨i,size⟩ memory.2
  else (-ENOMEM,queues)

/-- `resize_cb` from a list position on, given the outcomes of its `malloc` and
of the `calloc` of `workqueue_enqueue` for every framebuffer. -/
def resizeCb (workqueues : ℕ) (size : FbSize) (memory : ℕ → Bool×Bool) :
    ℕ → List Fb → (ℕ → List ResizeWork) → ℤ×(ℕ → List ResizeWork)
  | _,[],queues => (0,queues)
  | i,fb::fbs,queues =>
    let out := resizeCbRound workqueues size i fb (memory i) queues
    if out.1=0 then resizeCb workqueues size memory (i+1) fbs out.2 else out

/-- The nodes of the framebuffers in the list. -/
def nodes (s : Server) : List ℕ := s.fbs.map Fb.numaNode

/-- The kernel reports nodes of the machine. -/
def OnMachine (numa : Numa) : ServerEvent → Prop
  | .connect look _ _ numaNode => look≤numa.maxNode ∧ numaNode≤numa.maxNode
  | _ => True

instance (numa : Numa) : ∀ e, Decidable (OnMachine numa e)
  | .connect _ _ _ _ => inferInstanceAs (Decidable (_ ∧ _))
  | .command _ _ | .coalesce _ | .pollResize _ | .queueResize _ _ | .leaveQueueing
  | .resizeMain _ _ | .work _ _ => isTrue trivial

/-- No framebuffer is refused for its node, and with enough memory `resize_cb`
succeeds. -/
structure NeverRefused (workqueues : ℕ) (fbs : List Fb) : Prop where
  /-- `workqueue_enqueue` knows the node. -/
  enqueue : ∀ fb∈fbs, ∀ queues work entry,
    (workqueueEnqueue workqueues queues fb.numaNode work entry).1≠-EINVAL
  /-- `resize_cb` does not fail. -/
  resize : ∀ size queues, (resizeCb workqueues size (fun _ => (true,true)) 0 fbs queues).1=0

variable {setup : Setup} {s s' : Server}

/-- What a round of `resize_cb` replies in the server. -/
theorem serverQueueResize_reply (s : Server) (size : FbSize) (i : ℕ) (fb : Fb) (priv entry : Bool) :
    (serverQueueResize setup s size i fb priv entry).1=
      .code (resizeCbRound setup.workqueues size i fb (priv,entry) s.queues).1 := by
  have hround : (if priv then workqueueEnqueue setup.workqueues s.queues fb.numaNode ⟨i,size⟩ entry
      else (-ENOMEM,s.queues))=
      resizeCbRound setup.workqueues size i fb (priv,entry) s.queues := rfl
  unfold serverQueueResize
  dsimp only
  rw [hround]
  split
  · rename_i hzero
    rw [hzero]
  · rfl

/-- All threads are created when none of the calls fails. -/
theorem createThreads_ok {create : ℕ → ℤ} {i left : ℕ} :
    createThreads create i left=.ok () ↔ ∀ k, i≤k → k < i+left → create k=0 := by
  induction left generalizing i with
  | zero => exact ⟨fun _ k hi hk => by omega,fun _ => rfl⟩
  | succ left ih =>
    rw [createThreads]
    by_cases hzero : create i=0
    · rw [if_neg (by simp [hzero]),ih]
      constructor
      · intro h k hi hk
        by_cases hki : k=i
        · rw [hki,hzero]
        · exact h k (by omega) (by omega)
      · exact fun h k hi hk => h k (by omega) (by omega)
    · rw [if_pos (by simpa using hzero)]
      constructor
      · intro h
        cases h
      · exact fun h => absurd (h i (Nat.le_refl i) (by omega)) hzero

/-- `workqueue_init` succeeds with that number of queues. -/
theorem workqueueInit_ok {numa : Numa} {memory : Bool} {create : ℕ → ℤ} {num : ℕ} :
    workqueueInit numa memory create=.ok num ↔
      memory=true ∧ num=(if numa.available≠0 then numa.maxNode else 1) ∧
      ∀ k<num, create k=0 := by
  unfold workqueueInit
  dsimp only
  generalize (if numa.available≠0 then numa.maxNode else 1)=n
  cases memory with
  | false => simp
  | true =>
    have hthreads := @createThreads_ok create 0 n
    simp only [Nat.zero_le,forall_const,Nat.zero_add] at hthreads
    rw [if_pos rfl]
    cases hcreate : createThreads create 0 n with
    | error out =>
      rw [hcreate] at hthreads
      simp only [Except.map,reduceCtorEq,true_and,false_iff,not_and]
      rintro rfl hall
      cases hthreads.mpr hall
    | ok out =>
      simp only [Except.map,Except.ok.injEq,true_and]
      constructor
      · rintro rfl
        exact ⟨rfl,hthreads.mp hcreate⟩
      · exact fun h => h.1.symm

/-- The node decides whether an entry is refused. -/
theorem workqueueEnqueue_einval {workqueues : ℕ} {queues : ℕ → List ResizeWork} {numaNode : ℕ}
    {work : ResizeWork} {entry : Bool} :
    (workqueueEnqueue workqueues queues numaNode work entry).1=-EINVAL ↔ workqueues≤numaNode := by
  unfold workqueueEnqueue
  by_cases hnode : workqueues≤numaNode
  · simp [hnode]
  · cases entry <;> simp [hnode,EINVAL,ENOMEM]

/-- With enough memory `resize_cb` succeeds when every node has a queue. -/
theorem resizeCb_zero {workqueues : ℕ} {size : FbSize} {i : ℕ} {fbs : List Fb}
    {queues : ℕ → List ResizeWork} (h : ∀ fb∈fbs, fb.numaNode<workqueues) :
    (resizeCb workqueues size (fun _ => (true,true)) i fbs queues).1=0 := by
  induction fbs generalizing i queues with
  | nil => rfl
  | cons fb fbs ih =>
    obtain ⟨hfb,hfbs⟩ := List.forall_mem_cons.mp h
    have hround : (resizeCbRound workqueues size i fb (true,true) queues).1=0 := by
      simp [resizeCbRound,workqueueEnqueue,Nat.not_le_of_lt hfb]
    rw [resizeCb,if_pos hround]
    exact ih hfbs

/-- Nothing is refused when and only when every node has a queue. -/
theorem neverRefused_iff {workqueues : ℕ} {fbs : List Fb} :
    NeverRefused workqueues fbs ↔ ∀ fb∈fbs, fb.numaNode<workqueues := by
  constructor
  · intro h fb hfb
    by_contra hnode
    exact h.enqueue fb hfb (fun _ => []) ⟨0,⟨0,0⟩⟩ true
      (workqueueEnqueue_einval.mpr (Nat.le_of_not_lt hnode))
  · intro h
    refine ⟨fun fb hfb queues work entry hc => ?_,fun size queues => resizeCb_zero h⟩
    exact Nat.not_le_of_lt (h fb hfb) (workqueueEnqueue_einval.mp hc)

/-- Only a connection adds a framebuffer, with the node that is reported. -/
theorem nodes_step {e : ServerEvent} {reply : ServerReply}
    (hstep : serverStep setup s e=some (reply,s')) :
    nodes s'=nodes s ∨ ∃ look node block numaNode, e=.connect look node block numaNode ∧
      nodes s'=nodes s++[numaNode] := by
  cases e with
  | connect look node block numaNode =>
    simp only [serverStep,serverConnect,Option.some.injEq] at hstep
    cases hfind : fbGetFbOnNode s.fbs look with
    | some k =>
      rw [hfind] at hstep
      cases hstep
      exact Or.inl rfl
    | none =>
      rw [hfind] at hstep
      cases halloc : fbAlloc setup.build.host node block numaNode s.main.size with
      | error err =>
        rw [halloc] at hstep
        cases hstep
        exact Or.inl rfl
      | ok fb =>
        rw [halloc] at hstep
        cases hstep
        have hnode : fb.numaNode=numaNode := congrArg Prod.snd (fbAlloc_shape halloc)
        refine Or.inr ⟨look,node,block,numaNode,rfl,?_⟩
        simp [nodes,hnode]
  | command i c =>
    obtain ⟨client,fb,live,_,hfb,rfl⟩ := serverCommand_some hstep
    have hshape := (exec_fb ⟨setup.build,s.main,setup.socket i⟩ (client.enter fb) c).1
    exact Or.inl (map_set_same Fb.numaNode hfb (congrArg Prod.snd hshape))
  | coalesce rand =>
    obtain ⟨out,_,hfbs,rfl⟩ := coalesce_cases hstep
    have hnodes := congrArg (List.map Prod.snd) hfbs
    rw [List.map_map,List.map_map] at hnodes
    exact Or.inl hnodes
  | pollResize size =>
    cases hstep
    exact Or.inl rfl
  | queueResize priv entry =>
    obtain ⟨size,i,fb,_,_,rfl⟩ := queueResize_cases hstep
    rcases serverQueueResize_cases setup s size i fb priv entry with he | he <;> rw [he] <;>
      exact Or.inl rfl
  | leaveQueueing =>
    obtain ⟨size,i,_,rfl⟩ := leaveQueueing_cases hstep
    exact Or.inl rfl
  | resizeMain texture block =>
    obtain ⟨size,_,rfl⟩ := resizeMain_cases hstep
    cases texture <;> exact Or.inl rfl
  | work queue block =>
    obtain ⟨work,rest,fb,_,hfb,rfl⟩ := work_cases hstep
    have hnode : (fbResize fb block work.size).2.numaNode=fb.numaNode := by
      cases block <;> rfl
    exact Or.inl (map_set_same Fb.numaNode hfb hnode)

/-- On a machine with and without support for NUMA, in every state of the
server: nothing is refused if and only if every framebuffer is on node zero
where NUMA is supported, and none is on the highest node where it is not. -/
theorem never_refused_iff {numa : Numa} {memory : Bool} {create : ℕ → ℤ} {num : ℕ}
    (hinit : workqueueInit numa memory create=.ok num) (hsetup : setup.workqueues=num) {main : Fb}
    {events : List ServerEvent}
    (hadm : Admitted (fun s e => Possible s e ∧ OnMachine numa e) (serverStep setup) (started main)
      events)
    {replies : List ServerReply} (hrun : run (serverStep setup) (started main) events=some (replies,s)) :
    NeverRefused setup.workqueues s.fbs ↔
      (numa.available=0 → ∀ fb∈s.fbs, fb.numaNode=0) ∧
      (numa.available<0 → ∀ fb∈s.fbs, fb.numaNode≠numa.maxNode) := by
  have hstep : ∀ s e reply s', (∀ node∈nodes s, node≤numa.maxNode) →
      Possible s e ∧ OnMachine numa e → serverStep setup s e=some (reply,s') →
      ∀ node∈nodes s', node≤numa.maxNode := by
    intro s e reply s' h hp hs
    rcases nodes_step hs with hnodes | ⟨look,node,block,numaNode,rfl,hnodes⟩
    · rwa [hnodes]
    · rw [hnodes]
      intro other hother
      rcases List.mem_append.mp hother with hother | hother
      · exact h other hother
      · rw [List.mem_singleton.mp hother]
        exact hp.2.2
  have hnodes : ∀ node∈nodes s, node≤numa.maxNode :=
    run_invariant hstep (fun _ h => absurd h List.not_mem_nil) hadm hrun
  have hmax : ∀ fb∈s.fbs, fb.numaNode≤numa.maxNode := fun fb hfb =>
    hnodes fb.numaNode (List.mem_map_of_mem hfb)
  have hreported := numa.reported
  rw [neverRefused_iff,hsetup,(workqueueInit_ok.mp hinit).2.1]
  by_cases hzero : numa.available=0
  · rw [if_neg (by simp [hzero])]
    simp [hzero]
  · have hneg : numa.available<0 := by omega
    rw [if_pos hzero]
    simp only [hzero,false_implies,true_and,hneg,forall_const]
    refine forall₂_congr fun fb hfb => ?_
    have hle := hmax fb hfb
    omega

/-- Without `FEATURE_NUMA` a client is served on the first node. -/
theorem never_refused_first :
    ∃ replies s, run (serverStep plainSetup) (started (blackFb 4 4)) [arrival 0]=some (replies,s) ∧
      NeverRefused plainSetup.workqueues s.fbs := by
  have hinit : workqueueInit withoutNuma true (fun _ => 0)=.ok 1 := rfl
  have hadm : Admitted (fun s e => Possible s e ∧ OnMachine withoutNuma e) (serverStep plainSetup)
      (started (blackFb 4 4)) [arrival 0] := by decide +kernel
  refine ⟨_,_,rfl,(never_refused_iff hinit rfl hadm rfl).mpr ⟨fun _ fb hfb => ?_,fun hneg => ?_⟩⟩
  · rw [List.mem_singleton.mp hfb]
  · cases hneg

/-- A machine with two nodes that supports NUMA. -/
def twoNodes : Numa := ⟨0,1,Int.le_refl 0⟩

/-- A client is served on the second node, and the window is resized. -/
def secondNodeEvents : List ServerEvent := [arrival 1,.pollResize ⟨2,2⟩,.queueResize true true]

/-- There is one queue, so `workqueue_enqueue` refuses the request and
`resize_cb` fails. -/
theorem second_node_refused :
    workqueueInit twoNodes true (fun _ => 0)=.ok plainSetup.workqueues ∧
      Admitted (fun s e => Possible s e ∧ OnMachine twoNodes e) (serverStep plainSetup)
        (started (blackFb 4 4)) secondNodeEvents ∧
      ∃ s, run (serverStep plainSetup) (started (blackFb 4 4)) secondNodeEvents=
          some ([.code 0,.code 0,.code (-EINVAL)],s) ∧
        ¬NeverRefused plainSetup.workqueues s.fbs := by
  refine ⟨rfl,by decide +kernel,_,rfl,fun h => ?_⟩
  exact Nat.lt_irrefl 1 (neverRefused_iff.mp h _ (List.mem_singleton_self _))

end Shoreline.NumaQueues
