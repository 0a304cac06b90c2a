import Shoreline.Errno
import Shoreline.Library.WorkerPool
import Mathlib.Data.List.Count
import Mathlib.Data.List.Nodup

/-!
# Tearing down the listening threads

`net_listen` undoes what it did where it fails, and `main` frees the net
afterwards. Where a thread cannot be created the threads before it are
cancelled and joined and their array is freed, but the pointer stays in the
net and `net_free` frees the array once more.
-/

namespace Shoreline.ListenTeardown

open WorkerPool

/-- `net->state`. -/
inductive NetState where
  | idle
  | listen
  | shutdown
  | exit
  deriving DecidableEq, Repr

/-- What is used of `struct net` while the server starts and ends. -/
structure Net where
  state : NetState
  socket : ℤ
  /-- The descriptor is open. -/
  socketOpen : Bool
  numThreads : ℕ
  /-- `threads`, with the listening threads. -/
  pool : Pool

/-- The net that `net_alloc` leaves. -/
def Net.fresh : Net := ⟨.idle,0,false,0,Pool.fresh⟩

/-- Outcomes of the calls of `net_listen`. -/
structure ListenEnv where
  /-- `socket`: a descriptor, or `errno`. -/
  socket : Except ℤ ℕ
  /-- `getnameinfo` returns zero. -/
  nameinfo : Bool
  /-- `bind`: `errno` where it fails. -/
  bind : Option ℤ
  /-- `listen`: `errno` where it fails. -/
  listen : Option ℤ
  /-- The `calloc` of the thread array. -/
  memory : Bool
  /-- `pthread_create` for each thread. -/
  create : ℕ → ℤ

/-- `net_kill_threads`. -/
def netKillThreads (net : Net) : Net :=
  {net with state := .shutdown, pool := stopDown net.numThreads net.pool}

/-- A thread more. -/
def Net.threadCreated (net : Net) : Net :=
  {net with pool := net.pool.start net.numThreads, numThreads := net.numThreads+1}

/-- Behind the label `fail`. -/
def fail (err : ℤ) (net : Net) : ℤ×Net := (err,{net with state := .idle})

/-- Behind the label `fail_socket`. -/
def failSocket (err : ℤ) (net : Net) : ℤ×Net := fail err {net with socketOpen := false}

/-- The thread loop of `net_listen`, with so many threads to go. -/
def createLoop (create : ℕ → ℤ) : ℕ → Net → ℤ×Net
  | 0,net => (0,net)
  | left+1,net =>
    let err := -create net.numThreads
    if err≠0 then
      let net := netKillThreads net
      failSocket err {net with pool := net.pool.free}
    else
      createLoop create left net.threadCreated

/-- `net_listen`. Failed assertions are `none`. -/
def netListen (env : ListenEnv) (numThreads : ℕ) (net : Net) : Option (ℤ×Net) :=
  if 0 < numThreads ∧ net.state=.idle then
    let net := {net with state := .listen}
    match env.socket with
    | .error errno => some (fail (-errno) {net with socket := -1})
    | .ok socket =>
      let net := {net with socket := socket, socketOpen := true}
      if env.nameinfo then
        match env.bind with
        | some errno => some (failSocket (-errno) net)
        | none =>
          match env.listen with
          | some errno => some (failSocket (-errno) net)
          | none =>
            let net := {net with pool := net.pool.allocate env.memory}
            if env.memory then some (createLoop env.create numThreads {net with numThreads := 0})
            else some (failSocket (-ENOMEM) net)
      else none
  else none

/-- `net_free`, as what it does to the thread array. A failed assertion is
`none`. -/
def netFree (net : Net) : Option Pool :=
  if net.state=.exit ∨ net.state=.idle then
    some (if net.pool.array≠.null then net.pool.free else net.pool)
  else none

/-- The outcomes up to the thread array are successes. -/
def Allocated (env : ListenEnv) : Prop :=
  (∃ socket, env.socket=.ok socket) ∧ env.nameinfo=true ∧ env.bind=none ∧ env.listen=none ∧
    env.memory=true

/-- This thread is created. -/
def Created (env : ListenEnv) (numThreads k : ℕ) : Prop :=
  Allocated env ∧ k<numThreads ∧ ∀ j≤k,env.create j=0

/-- The net can be freed: `net_free` passes its assertion, the array was freed
once if it was allocated and never otherwise, and exactly the created threads
were stopped, each of them while it ran, and once. -/
structure Freeable (env : ListenEnv) (numThreads : ℕ) (net : Net) : Prop where
  /-- `net_free` returns, with nothing wrong on the way. -/
  freed : ∃ pool, netFree net=some pool ∧ (∀ a∈pool.record,a.Valid) ∧
    (Allocated env → pool.record.countP Action.frees=1) ∧
    (¬Allocated env → pool.record.countP Action.frees=0)
  /-- The created threads have been cancelled and joined. -/
  joined : ∀ k, Created env numThreads k → net.pool.workers k=.joined ∧
    net.pool.record.count (.stop k .live .running)=1
  /-- No other thread has. -/
  others : ∀ k array worker, .stop k array worker∈net.pool.record → Created env numThreads k

/-- What the thread loop leaves where it fails: the threads before the failing
one are stopped, the last one first, and the array is freed. -/
theorem createLoop_error {create : ℕ → ℤ} {left : ℕ} {net after : Net} {err : ℤ}
    (harray : net.pool.array=.live) (hrecord : net.pool.record=[])
    (hrunning : ∀ k<net.numThreads,net.pool.workers k=.running)
    (h : createLoop create left net=(err,after)) (herr : err≠0) :
    ∃ f, f<net.numThreads+left ∧ create f≠0 ∧
      (∀ j, net.numThreads≤j → j<f → create j=0) ∧ net.numThreads≤f ∧
      after.state=.idle ∧ after.pool.array=.freed ∧ (∀ k<f,after.pool.workers k=.joined) ∧
      after.pool.record=(List.range f).reverse.map (fun k => .stop k .live .running)++
        [.free .live] := by
  induction left generalizing net with
  | zero =>
    injection h with h _
    exact absurd h.symm herr
  | succ left ih =>
    rw [createLoop] at h
    dsimp only at h
    by_cases hcreate : -create net.numThreads≠0
    · rw [if_pos hcreate,netKillThreads,failSocket,fail,stopDown_eq,Pool.free] at h
      injection h with _ h
      rw [←h]
      refine ⟨net.numThreads,by omega,by omega,fun j hj hlt => by omega,Nat.le_refl _,rfl,?_,
        fun k hk => if_pos hk,?_⟩
      · dsimp only
        rw [harray]
        rfl
      · dsimp only
        rw [hrecord,harray,List.nil_append,stops]
        congr 1
        refine List.map_congr_left fun k hk => ?_
        rw [List.mem_reverse,List.mem_range] at hk
        rw [harray,hrunning k hk]
    · rw [if_neg hcreate] at h
      have hzero : create net.numThreads=0 := by omega
      have hnext : ∀ k<net.threadCreated.numThreads,
          net.threadCreated.pool.workers k=.running := by
        intro k hk
        by_cases heq : k=net.numThreads
        · rw [heq]
          exact Function.update_self _ _ _
        · exact (Function.update_of_ne heq _ _).trans
            (hrunning k (Nat.lt_of_le_of_ne (Nat.le_of_lt_succ hk) heq))
      obtain ⟨f,hlt,hfail,hbefore,hle,hrest⟩ := @ih net.threadCreated harray hrecord hnext h
      change f<net.numThreads+1+left at hlt
      change net.numThreads+1≤f at hle
      refine ⟨f,by omega,hfail,fun j hj hjf => ?_,by omega,hrest⟩
      by_cases heq : j=net.numThreads
      · rw [heq]
        exact hzero
      · exact hbefore j (Nat.lt_of_le_of_ne hj (Ne.symm heq)) hjf

/-- What a failing `net_listen` leaves without a thread array: a net as it was
allocated, up to the descriptor. -/
theorem netListen_not_allocated {env : ListenEnv} {numThreads : ℕ} {err : ℤ} {net : Net}
    (h : netListen env numThreads Net.fresh=some (err,net)) (hnot : ¬Allocated env) :
    net.state=.idle ∧ net.pool=Pool.fresh := by
  unfold netListen at h
  split at h
  · split at h
    · cases h
      exact ⟨rfl,rfl⟩
    · rename_i socket hsocket
      split at h
      · rename_i hnameinfo
        split at h
        · cases h
          exact ⟨rfl,rfl⟩
        · rename_i hbind
          split at h
          · cases h
            exact ⟨rfl,rfl⟩
          · rename_i hlisten
            dsimp only at h
            split at h
            · rename_i hmemory
              exact absurd ⟨⟨socket,hsocket⟩,hnameinfo,hbind,hlisten,hmemory⟩ hnot
            · rename_i hmemory
              cases h
              refine ⟨rfl,?_⟩
              dsimp only [Pool.allocate]
              rw [if_neg hmemory]
              rfl
      · cases h
  · cases h

/-- With a thread array, `net_listen` fails where a thread is not created. -/
theorem netListen_allocated {env : ListenEnv} {numThreads : ℕ} {err : ℤ} {net : Net}
    (h : netListen env numThreads Net.fresh=some (err,net)) (herr : err≠0)
    (halloc : Allocated env) :
    net.state=.idle ∧ net.pool.array=.freed ∧ ∃ f,
      (∀ k, Created env numThreads k ↔ k<f) ∧ (∀ k<f,net.pool.workers k=.joined) ∧
      net.pool.record=(List.range f).reverse.map (fun k => .stop k .live .running)++
        [.free .live] := by
  obtain ⟨⟨socket,hsocket⟩,hnameinfo,hbind,hlisten,hmemory⟩ := id halloc
  unfold netListen at h
  split at h
  · rw [hsocket,hbind,hlisten,hmemory] at h
    dsimp only at h
    injection h with h
    obtain ⟨f,hlt,hf,hbefore,-,hidle,hfreed,hjoined,hrecord⟩ :=
      createLoop_error rfl rfl (fun k hk => absurd hk (Nat.not_lt_zero k)) h herr
    refine ⟨hidle,hfreed,f,fun k => ⟨fun hk => ?_,fun hk => ?_⟩,hjoined,hrecord⟩
    · by_contra hle
      exact hf (hk.2.2 f (Nat.le_of_not_lt hle))
    · refine ⟨halloc,?_,fun j hj => hbefore j (Nat.zero_le j) (Nat.lt_of_le_of_lt hj hk)⟩
      dsimp only at hlt
      omega
  · cases h

/-- A list of stops names every worker once. -/
theorem count_stop {f k : ℕ} (hk : k<f) :
    (((List.range f).reverse.map fun k => Action.stop k .live .running)++
      [Action.free .live]).count (Action.stop k .live .running)=1 := by
  have hinj : Function.Injective fun k => Action.stop k .live .running := by
    intro i j heq
    injection heq
  rw [List.count_append,List.count_map_of_injective _ _ hinj,List.count_reverse,
    List.count_eq_one_of_mem List.nodup_range (List.mem_range.mpr hk)]
  rfl

/-- Whatever fails, exactly the threads that were created have been cancelled
and joined, each of them once. -/
theorem created_joined {env : ListenEnv} {numThreads : ℕ} {err : ℤ} {net : Net}
    (h : netListen env numThreads Net.fresh=some (err,net)) (herr : err≠0) :
    (∀ k, Created env numThreads k → net.pool.workers k=.joined ∧
      net.pool.record.count (.stop k .live .running)=1) ∧
    ∀ k array worker, .stop k array worker∈net.pool.record → Created env numThreads k := by
  by_cases halloc : Allocated env
  · obtain ⟨-,-,f,hcreated,hjoined,hrecord⟩ := netListen_allocated h herr halloc
    refine ⟨fun k hk => ⟨hjoined k ((hcreated k).mp hk),?_⟩,fun k array worker hmem => ?_⟩
    · rw [hrecord]
      exact count_stop ((hcreated k).mp hk)
    · rw [hrecord] at hmem
      cases List.mem_append.mp hmem with
      | inl hmem =>
        obtain ⟨i,hi,heq⟩ := List.mem_map.mp hmem
        injection heq with heq
        rw [←heq]
        exact (hcreated i).mpr (List.mem_range.mp (List.mem_reverse.mp hi))
      | inr hmem => cases List.mem_singleton.mp hmem
  · obtain ⟨-,hpool⟩ := netListen_not_allocated h halloc
    refine ⟨fun k hk => absurd hk.1 halloc,fun k array worker hmem => ?_⟩
    rw [hpool] at hmem
    cases hmem

/-- A net whose `net_listen` failed can be freed exactly if it failed before
the thread array was allocated. -/
theorem freeable_iff {env : ListenEnv} {numThreads : ℕ} {err : ℤ} {net : Net}
    (h : netListen env numThreads Net.fresh=some (err,net)) (herr : err≠0) :
    Freeable env numThreads net ↔ ¬Allocated env := by
  constructor
  · intro hfree halloc
    obtain ⟨hidle,hfreed,-⟩ := netListen_allocated h herr halloc
    obtain ⟨pool,hpool,hvalid,-⟩ := hfree.freed
    rw [netFree,if_pos (Or.inr hidle),if_pos (by rw [hfreed]; exact Pointer.noConfusion)] at hpool
    injection hpool with hpool
    -- the pointer is still there, so the array is freed again
    refine hvalid (.free .freed) ?_ rfl
    rw [←hpool,Pool.free,hfreed]
    exact List.mem_append_right _ (List.mem_singleton_self _)
  · intro hnot
    obtain ⟨hidle,hpool⟩ := netListen_not_allocated h hnot
    obtain ⟨hjoined,hothers⟩ := created_joined h herr
    refine ⟨⟨net.pool,?_,?_,fun halloc => absurd halloc hnot,fun _ => ?_⟩,hjoined,hothers⟩
    · rw [netFree,if_pos (Or.inr hidle),hpool,if_neg (fun hne => hne rfl)]
    · rw [hpool]
      exact fun a ha => absurd ha List.not_mem_nil
    · rw [hpool]
      rfl

/-- The port is in use. -/
def portInUse : ListenEnv := ⟨.ok 3,true,some 98,none,true,fun _ => 0⟩

/-- With the port in use, four threads are asked for in vain. -/
theorem freeable_iff_portInUse :
    Freeable portInUse 4 ⟨.idle,3,false,0,Pool.fresh⟩ ↔ ¬Allocated portInUse :=
  freeable_iff (rfl : netListen portInUse 4 Net.fresh=some (-98,_)) (by decide)

/-- The second thread cannot be created. -/
def secondThreadFails : ListenEnv :=
  ⟨.ok 3,true,none,none,true,fun k => if k=1 then 11 else 0⟩

/-- Of four threads one is created and stopped again; then `net_free` frees the
array a second time. -/
theorem second_thread_not_freeable :
    (netListen secondThreadFails 4 Net.fresh).map (fun out => (out.1,out.2.state))=
        some (-11,.idle) ∧
      ((netListen secondThreadFails 4 Net.fresh).bind fun out =>
        (netFree out.2).map Pool.record)=
        some [.stop 0 .live .running,.free .live,.free .freed] ∧
      ∀ net, netListen secondThreadFails 4 Net.fresh=some (-11,net) →
        ¬Freeable secondThreadFails 4 net := by
  have hrecord : ((netListen secondThreadFails 4 Net.fresh).bind fun out =>
      (netFree out.2).map Pool.record)=
      some [.stop 0 .live .running,.free .live,.free .freed] := by decide
  refine ⟨by decide,hrecord,fun net hlisten hfree => ?_⟩
  obtain ⟨pool,hpool,hvalid,-⟩ := hfree.freed
  rw [hlisten,Option.bind_some,hpool,Option.map_some] at hrecord
  refine hvalid (.free .freed) ?_ rfl
  rw [Option.some.inj hrecord]
  decide

end Shoreline.ListenTeardown
