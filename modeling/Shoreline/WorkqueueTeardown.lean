import Shoreline.NumaQueues
import Shoreline.Library.WorkerPool

/-!
# Tearing down the work queues

`main` runs `workqueue_deinit` on every way out, also when `workqueue_init` has
failed. The number of queues is set before the steps that can fail and not
taken back, so after a failure the queues are stopped once more, through an
array that was freed already or never allocated.
-/

namespace Shoreline.WorkqueueTeardown

open WorkerPool NumaQueues

/-- The module state of the work queues. -/
structure Module where
  /-- `num_workqueues`. -/
  numWorkqueues : ℕ
  /-- `workqueues`, with the threads of the queues. -/
  pool : Pool

/-- The module when the program starts. -/
def Module.fresh : Module := ⟨0,Pool.fresh⟩

/-- The thread loop of `workqueue_init` from an index on, given the results of
`pthread_create`. -/
def initLoop (create : ℕ → ℤ) : ℕ → ℕ → Pool → ℤ×Pool
  | _,0,pool => (0,pool)
  | i,left+1,pool =>
    if -create i≠0 then (-create i,(stopDown i pool).free)
    else initLoop create (i+1) left (pool.start i)

/-- The number of queues that `workqueue_init` asks for. -/
def queueCount (numa : Numa) : ℕ := if numa.available≠0 then numa.maxNode else 1

/-- `workqueue_init`, given the outcome of its `calloc`. -/
def workqueueInitModule (numa : Numa) (memory : Bool) (create : ℕ → ℤ) (m : Module) : ℤ×Module :=
  let num := queueCount numa
  let pool := m.pool.allocate memory
  if memory then
    let out := initLoop create 0 num pool
    (out.1,⟨num,out.2⟩)
  else (-ENOMEM,⟨num,pool⟩)

/-- `workqueue_deinit`. -/
def workqueueDeinit (m : Module) : Module :=
  ⟨0,(stopUp 0 m.numWorkqueues m.pool).free⟩

/-- What `workqueue_deinit` does to the pool. -/
def deinitActions (m : Module) : List Action :=
  (workqueueDeinit m).pool.record.drop m.pool.record.length

/-- A `workqueue_deinit` at this point stops only running queues, touches no
freed or missing array, and does not free the array a second time. -/
structure TearsDown (m : Module) : Prop where
  /-- Every action of it is in order. -/
  valid : ∀ a∈deinitActions m,a.Valid
  /-- The array was freed at most once from the start. -/
  once : (workqueueDeinit m).pool.record.countP Action.frees≤1

/-- What a run of `workqueue_deinit` records. -/
theorem deinitActions_eq (m : Module) :
    deinitActions m=stops m.pool (List.range' 0 m.numWorkqueues)++[.free m.pool.array] := by
  rw [deinitActions,workqueueDeinit,stopUp_eq,Pool.free]
  dsimp only
  rw [List.append_assoc,List.drop_left]

/-- A deinit that finds no queues and no array is in order. -/
theorem tearsDown_fresh : TearsDown Module.fresh := by
  constructor
  · intro a ha
    rw [deinitActions_eq] at ha
    cases List.mem_singleton.mp ha
    exact Pointer.noConfusion
  · exact Nat.zero_le 1

/-- The loop succeeds exactly if every thread is created; then all of them run. -/
theorem initLoop_ok {create : ℕ → ℤ} {i left : ℕ} {pool after : Pool}
    (h : initLoop create i left pool=(0,after)) :
    after.array=pool.array ∧ after.record=pool.record ∧
      (∀ k, i≤k → k < i+left → after.workers k=.running) ∧
      ∀ k < i,after.workers k=pool.workers k := by
  induction left generalizing i pool with
  | zero =>
    injection h with _ h
    rw [←h]
    exact ⟨rfl,rfl,fun k hi hk => by omega,fun _ _ => rfl⟩
  | succ left ih =>
    rw [initLoop] at h
    split at h
    · rename_i herr
      injection h with herr' _
      exact absurd herr' herr
    · obtain ⟨harray,hrecord,hrunning,hbefore⟩ := ih h
      refine ⟨harray,hrecord,fun k hi hk => ?_,fun k hk => ?_⟩
      · by_cases heq : k=i
        · rw [heq,hbefore i (Nat.lt_succ_self i)]
          exact Function.update_self _ _ _
        · exact hrunning k (by omega) (by omega)
      · rw [hbefore k (Nat.lt_succ_of_lt hk)]
        exact Function.update_of_ne (by omega) _ _

/-- A loop that fails has freed the array. -/
theorem initLoop_error {create : ℕ → ℤ} {i left : ℕ} {pool : Pool} (harray : pool.array=.live)
    (h : (initLoop create i left pool).1≠0) : (initLoop create i left pool).2.array=.freed := by
  induction left generalizing i pool with
  | zero => exact absurd rfl h
  | succ left ih =>
    rw [initLoop] at h ⊢
    by_cases herr : -create i≠0
    · rw [if_pos herr,stopDown_eq,Pool.free]
      dsimp only
      rw [harray]
      rfl
    · rw [if_neg herr] at h ⊢
      exact ih harray h

/-- What a `workqueue_init` that succeeds leaves. -/
theorem workqueueInitModule_ok {numa : Numa} {create : ℕ → ℤ} {m : Module}
    (h : workqueueInitModule numa true create Module.fresh=(0,m)) :
    m.numWorkqueues=queueCount numa ∧ m.pool.array=.live ∧ m.pool.record=[] ∧
      ∀ k<queueCount numa,m.pool.workers k=.running := by
  injection h with herr hm
  obtain ⟨harray,hrecord,hrunning,-⟩ := initLoop_ok (Prod.ext herr rfl)
  rw [←hm]
  exact ⟨rfl,harray,hrecord,fun k hk => hrunning k (Nat.zero_le k) (by omega)⟩

/-- After it, `workqueue_deinit` is in order. -/
theorem tearsDown_of_ok {numa : Numa} {create : ℕ → ℤ} {m : Module}
    (h : workqueueInitModule numa true create Module.fresh=(0,m)) : TearsDown m := by
  obtain ⟨hnum,harray,hrecord,hrunning⟩ := workqueueInitModule_ok h
  constructor
  · intro a ha
    rw [deinitActions_eq] at ha
    cases List.mem_append.mp ha with
    | inl ha =>
      refine valid_stops harray (fun i hi => ?_) a ha
      have hlt := List.mem_range'_1.mp hi
      exact hrunning i (by omega)
    | inr ha =>
      rw [List.mem_singleton.mp ha,harray]
      exact Pointer.noConfusion
  · rw [workqueueDeinit,stopUp_eq,Pool.free]
    dsimp only
    rw [hrecord,List.nil_append,List.countP_append,countP_stops,harray]
    exact Nat.le_refl 1

/-- After every `workqueue_init` that fails for at least one queue, the
`workqueue_deinit` of the exit path touches an array that was freed or never
allocated. -/
theorem failed_not_tearsDown {numa : Numa} {memory : Bool} {create : ℕ → ℤ}
    (hnum : 0 < queueCount numa)
    (hfail : (workqueueInitModule numa memory create Module.fresh).1≠0) :
    ¬TearsDown (workqueueInitModule numa memory create Module.fresh).2 := by
  intro h
  have harray : (workqueueInitModule numa memory create Module.fresh).2.pool.array≠.live := by
    cases memory with
    | false => exact Pointer.noConfusion
    | true =>
      intro hlive
      have hfreed := (initLoop_error rfl hfail).symm.trans hlive
      cases hfreed
  have hcount : (workqueueInitModule numa memory create Module.fresh).2.numWorkqueues=
      queueCount numa := by
    cases memory <;> rfl
  -- the first queue is stopped although its array is gone
  have hfirst := h.valid (.stop 0 _ _) (by
    rw [deinitActions_eq]
    refine List.mem_append_left _ (List.mem_map.mpr ⟨0,?_,rfl⟩)
    rw [List.mem_range'_1,hcount]
    omega)
  exact harray hfirst.1

/-- Without memory for one queue. -/
theorem failed_not_tearsDown_memory :
    0 < queueCount withoutNuma ∧
      (workqueueInitModule withoutNuma false (fun _ => 0) Module.fresh).1=-ENOMEM ∧
      ¬TearsDown (workqueueInitModule withoutNuma false (fun _ => 0) Module.fresh).2 :=
  ⟨by decide,rfl,failed_not_tearsDown (by decide) (by decide)⟩

/-- A machine for which two queues are made. -/
def twoQueues : Numa := ⟨-1,2,by decide⟩

/-- The second of two threads cannot be created: both queues are stopped again
through the freed array, which is then freed a second time. -/
theorem second_thread_fails :
    (workqueueInitModule twoQueues true (fun i => if i=1 then 11 else 0) Module.fresh).1=-11 ∧
      deinitActions
        (workqueueInitModule twoQueues true (fun i => if i=1 then 11 else 0) Module.fresh).2=
        [.stop 0 .freed .joined,.stop 1 .freed .absent,.free .freed] ∧
      ¬TearsDown
        (workqueueInitModule twoQueues true (fun i => if i=1 then 11 else 0) Module.fresh).2 := by
  refine ⟨by decide,by decide,fun h => ?_⟩
  have hfirst := h.valid (.stop 0 .freed .joined) (by decide)
  cases hfirst.1

/-- The loop returns what the loop over the results alone returns. -/
theorem initLoop_fst (create : ℕ → ℤ) (i left : ℕ) (pool : Pool) :
    (initLoop create i left pool).1=
      match createThreads create i left with
      | .ok _ => 0
      | .error out => out.1 := by
  induction left generalizing i pool with
  | zero => rfl
  | succ left ih =>
    rw [initLoop,createThreads]
    split
    · rfl
    · exact ih (i+1) (pool.start i)

/-- The model with the array returns what the model of the results returns. -/
theorem workqueueInitModule_fst (numa : Numa) (memory : Bool) (create : ℕ → ℤ) (m : Module) :
    (workqueueInitModule numa memory create m).1=
      match workqueueInit numa memory create with
      | .ok _ => 0
      | .error out => out.1 := by
  cases memory with
  | false => rfl
  | true =>
    refine (initLoop_fst create 0 (queueCount numa) _).trans ?_
    unfold workqueueInit
    rw [if_pos rfl]
    change _=match (createThreads create 0 (queueCount numa)).map fun _ => queueCount numa with
      | .ok _ => 0
      | .error out => out.1
    cases createThreads create 0 (queueCount numa) <;> rfl

end Shoreline.WorkqueueTeardown
