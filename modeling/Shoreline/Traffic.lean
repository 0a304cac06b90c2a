import Mathlib.Algebra.BigOperators.Group.List.Basic
import Shoreline.NetConnection
import Shoreline.Library.StateMachine

/-!
# Traffic statistics

Every connection counts the bytes that it receives, and `statistics_update`
collects the counters of the connections that are in a list then. What a
connection has counted since the last update is lost when it is closed.
-/

namespace Shoreline.Traffic

open Framebuffer NetConnection StateMachine

/-- `struct timespec`. -/
structure Timespec where
  sec : ℤ
  nsec : ℤ
  deriving DecidableEq

/-- `get_timespec_diff`. -/
def getTimespecDiff (a b : Timespec) : ℤ := (a.sec-b.sec)*1000000000+(a.nsec-b.nsec)

/-- `STATISTICS_NUM_AVERAGES`. -/
abbrev statisticsNumAverages : ℕ := 20

/-- `struct statistics`. -/
structure Statistics where
  numBytes : UInt64
  numPixels : UInt64
  numConnections : UInt64
  averageIndex : Fin statisticsNumAverages
  bytesPerSecond : Fin statisticsNumAverages → UInt64
  pixelsPerSecond : Fin statisticsNumAverages → UInt64
  framesPerSecond : Fin statisticsNumAverages → UInt64
  lastNumFrames : UInt64
  numFrames : UInt64
  lastUpdate : Timespec

/-- The counter of a `struct net_connection_thread`. -/
structure NetConnectionThread where
  byteCount : UInt32
  deriving DecidableEq

/-- `struct net_thread`: its list, once it is `initialized`. -/
structure NetThread where
  threadlist : Option (List NetConnectionThread)

/-- The connections of a listening thread. -/
def NetThread.connections (thread : NetThread) : List NetConnectionThread :=
  thread.threadlist.getD []

/-- The loop of `statistics_update` over the connections of one thread: bytes
and connections so far. -/
def collectConnections (connections : List NetConnectionThread) (acc : UInt64×UInt64) :
    UInt64×UInt64 :=
  connections.foldl (fun acc conn => (acc.1+conn.byteCount.toUInt64,acc.2+1)) acc

/-- The loop over the threads, the last one first. -/
def collectThreads (threads : List NetThread) (acc : UInt64×UInt64) : UInt64×UInt64 :=
  threads.foldr (fun thread => collectConnections thread.connections) acc

/-- All counters are set to zero. -/
def resetThreads (threads : List NetThread) : List NetThread :=
  threads.map fun thread =>
    ⟨thread.threadlist.map fun connections => connections.map fun _ => ⟨0⟩⟩

/-- A rate for the time since the last update; `none` is a division by zero. -/
def perSecond (count : UInt64) (diff : ℤ) : Option UInt64 :=
  if UInt64.ofInt diff=0 then none else some (count*1000000000/UInt64.ofInt diff)

/-- `statistics_update`: with pixel counting the counters of the framebuffers
are collected too, otherwise pixels are estimated. -/
def statisticsUpdate (build : Build) (stats : Statistics) (threads : List NetThread)
    (fbs : List Fb) (now : Timespec) : Option (Statistics×List NetThread×List Fb) :=
  let diff := getTimespecDiff now stats.lastUpdate
  let collected := collectThreads threads (stats.numBytes,0)
  let bytes := collected.1-stats.numBytes
  let pixels :=
    if build.featurePixelCount then (fbs.map Fb.pixelCount).foldl (fun acc n => acc+n.toUInt64) 0
    else bytes/18
  (perSecond bytes diff).bind fun bytesPerSecond =>
    (if build.featurePixelCount then perSecond pixels diff
      else some (bytesPerSecond/18)).bind fun pixelsPerSecond =>
      (perSecond (stats.numFrames-stats.lastNumFrames) diff).map fun framesPerSecond =>
        (⟨collected.1,stats.numPixels+pixels,collected.2,stats.averageIndex+1,
            Function.update stats.bytesPerSecond stats.averageIndex bytesPerSecond,
            Function.update stats.pixelsPerSecond stats.averageIndex pixelsPerSecond,
            Function.update stats.framesPerSecond stats.averageIndex framesPerSecond,
            stats.numFrames,stats.numFrames,now⟩,
          resetThreads threads,
          if build.featurePixelCount then fbs.map fun fb => {fb with pixelCount := 0} else fbs)

/-- The counters with the threads that use them, in a build with statistics. -/
structure NetTraffic where
  /-- `net->threads`. -/
  threads : List NetThread
  /-- `net->fb_list`. -/
  fbs : List Fb
  /-- `stats`. -/
  stats : Statistics
  /-- History: bytes that were received. -/
  received : ℕ
  /-- History: bytes that a connection had counted when it was closed. -/
  lost : ℕ

/-- One step. Connections are named by thread and position in its list. -/
inductive TrafficEvent where
  | listen (k : ℕ)
  | accept (k : ℕ)
  | receive (k i n : ℕ)
  | close (k i : ℕ)
  | draw (k : ℕ)
  | frame
  | update (now : Timespec)

/-- The list of a thread. -/
def listAt (threads : List NetThread) (k : ℕ) : Option (List NetConnectionThread) :=
  threads[k]?.bind NetThread.threadlist

/-- A connection. -/
def connAt (threads : List NetThread) (k i : ℕ) : Option NetConnectionThread :=
  (listAt threads k).bind fun connections => connections[i]?

/-- Change a connection, or remove it from its list. -/
def changeConn (threads : List NetThread) (k i : ℕ) (conn : Option NetConnectionThread) :
    List NetThread :=
  match listAt threads k,conn with
  | none,_ => threads
  | some connections,none => threads.set k ⟨some (connections.eraseIdx i)⟩
  | some connections,some conn => threads.set k ⟨some (connections.set i conn)⟩

/-- One step; `none` where there is no such thread, connection or framebuffer,
or at a division by zero. -/
def trafficStep (build : Build) : Step TrafficEvent Unit NetTraffic
  | s,.listen k =>
    match s.threads[k]? with
    | some ⟨none⟩ => some ((),{s with threads := s.threads.set k ⟨some []⟩})
    | _ => none
  | s,.accept k => (listAt s.threads k).map fun connections =>
    ((),{s with threads := s.threads.set k ⟨some (connections++[⟨0⟩])⟩})
  | s,.receive k i n => (connAt s.threads k i).map fun conn =>
    ((),{s with
      threads := changeConn s.threads k i (some ⟨conn.byteCount+UInt32.ofNat n⟩)
      received := s.received+n})
  | s,.close k i => (connAt s.threads k i).map fun conn =>
    ((),{s with
      threads := changeConn s.threads k i none
      lost := s.lost+conn.byteCount.toNat})
  | s,.draw k => s.fbs[k]?.map fun fb => ((),{s with fbs := s.fbs.set k (netCountPixel build fb)})
  | s,.frame => some ((),{s with stats := {s.stats with numFrames := s.stats.numFrames+1}})
  | s,.update now => (statisticsUpdate build s.stats s.threads s.fbs now).map fun out =>
    ((),{s with stats := out.1, threads := out.2.1, fbs := out.2.2})

/-- Between two updates a connection receives less than its counter holds. -/
def Possible (s : NetTraffic) : TrafficEvent → Prop
  | .receive k i n => ∀ conn∈connAt s.threads k i, conn.byteCount.toNat+n<4294967296
  | _ => True

instance (s : NetTraffic) : ∀ e, Decidable (Possible s e)
  | .receive k i n =>
    inferInstanceAs (Decidable (∀ conn∈connAt s.threads k i, conn.byteCount.toNat+n<4294967296))
  | .listen _ | .accept _ | .close _ _ | .draw _ | .frame | .update _ => isTrue trivial

/-- At the start of the server: `num_threads` threads, and statistics of zero. -/
def quiet (numThreads : ℕ) (fbs : List Fb) : NetTraffic :=
  ⟨List.replicate numThreads ⟨none⟩,fbs,
    ⟨0,0,0,0,fun _ => 0,fun _ => 0,fun _ => 0,0,0,⟨0,0⟩⟩,0,0⟩

/-- Bytes that the connections of a list have counted. -/
def counted (connections : List NetConnectionThread) : ℕ :=
  (connections.map fun conn => conn.byteCount.toNat).sum

/-- Bytes that all connections have counted. -/
def pending (threads : List NetThread) : ℕ :=
  (threads.map fun thread => counted thread.connections).sum

variable {build : Build} {s s' : NetTraffic}

section Sums

variable {α : Type} {f : α → ℕ} {xs : List α} {k : ℕ} {x : α}

/-- A sum when one summand is replaced. -/
theorem sum_map_set (hget : xs[k]?=some x) (x' : α) :
    ((xs.set k x').map f).sum+f x=(xs.map f).sum+f x' := by
  induction xs generalizing k with
  | nil => simp at hget
  | cons y ys ih =>
    cases k with
    | zero =>
      have hy : y=x := by simpa using hget
      simp only [List.set_cons_zero,List.map_cons,List.sum_cons,hy]
      omega
    | succ k =>
      have hrest := ih (by simpa using hget : ys[k]?=some x)
      simp only [List.set_cons_succ,List.map_cons,List.sum_cons]
      omega

/-- A sum when one summand is removed. -/
theorem sum_map_eraseIdx (hget : xs[k]?=some x) :
    ((xs.eraseIdx k).map f).sum+f x=(xs.map f).sum := by
  induction xs generalizing k with
  | nil => simp at hget
  | cons y ys ih =>
    cases k with
    | zero =>
      have hy : y=x := by simpa using hget
      simp only [List.eraseIdx_cons_zero,List.map_cons,List.sum_cons,hy]
      omega
    | succ k =>
      have hrest := ih (by simpa using hget : ys[k]?=some x)
      simp only [List.eraseIdx_cons_succ,List.map_cons,List.sum_cons]
      omega

end Sums

section Counters

variable {threads : List NetThread} {connections : List NetConnectionThread} {k i : ℕ}

/-- The counters when the list of a thread changes. -/
theorem pending_set (hlist : listAt threads k=some connections)
    (connections' : List NetConnectionThread) :
    pending (threads.set k ⟨some connections'⟩)+counted connections=
      pending threads+counted connections' := by
  rw [listAt,Option.bind_eq_some_iff] at hlist
  obtain ⟨thread,hget,hthread⟩ := hlist
  have hsum := @sum_map_set _ (fun thread => counted thread.connections) _ _ _ hget
    ⟨some connections'⟩
  rwa [show counted thread.connections=counted connections by
    rw [NetThread.connections,hthread,Option.getD_some]] at hsum

/-- They are as before, up to the one of the connection that is changed. -/
theorem pending_changeConn {conn : NetConnectionThread} (hconn : connAt threads k i=some conn)
    (conn' : Option NetConnectionThread) :
    pending (changeConn threads k i conn')+conn.byteCount.toNat=
      pending threads+counted conn'.toList := by
  rw [connAt,Option.bind_eq_some_iff] at hconn
  obtain ⟨connections,hlist,hget⟩ := hconn
  unfold changeConn
  rw [hlist]
  cases conn' with
  | none =>
    have hthreads := pending_set hlist (connections.eraseIdx i)
    have hsum := @sum_map_eraseIdx _ (fun conn => conn.byteCount.toNat) _ _ _ hget
    unfold counted at hthreads ⊢
    simp only [Option.toList_none,List.map_nil,List.sum_nil]
    omega
  | some conn' =>
    have hthreads := pending_set hlist (connections.set i conn')
    have hsum := @sum_map_set _ (fun conn => conn.byteCount.toNat) _ _ _ hget conn'
    unfold counted at hthreads ⊢
    simp only [Option.toList_some,List.map_cons,List.map_nil,List.sum_cons,List.sum_nil]
    omega

/-- Behind an update all counters are zero. -/
theorem pending_reset (threads : List NetThread) : pending (resetThreads threads)=0 := by
  unfold pending resetThreads
  rw [List.map_map]
  refine List.sum_eq_zero fun n hn => ?_
  obtain ⟨thread,_,rfl⟩ := List.mem_map.mp hn
  cases hlist : thread.threadlist with
  | none => simp [NetThread.connections,counted,hlist]
  | some connections => simp [NetThread.connections,counted,hlist]

/-- The counters of one list are added up. -/
theorem collectConnections_eq (connections : List NetConnectionThread) (acc : UInt64×UInt64) :
    (collectConnections connections acc).1=acc.1+UInt64.ofNat (counted connections) := by
  induction connections generalizing acc with
  | nil => simp [collectConnections,counted]
  | cons conn connections ih =>
    have hrest := ih (acc.1+conn.byteCount.toUInt64,acc.2+1)
    have hconn : conn.byteCount.toUInt64=UInt64.ofNat conn.byteCount.toNat := by simp
    rw [collectConnections] at hrest ⊢
    rw [List.foldl_cons,hrest,hconn]
    simp only [counted,List.map_cons,List.sum_cons,UInt64.ofNat_add]
    exact UInt64.add_assoc _ _ _

/-- So are those of all threads. -/
theorem collectThreads_eq (threads : List NetThread) (acc : UInt64×UInt64) :
    (collectThreads threads acc).1=acc.1+UInt64.ofNat (pending threads) := by
  induction threads with
  | nil => simp [collectThreads,pending]
  | cons thread threads ih =>
    rw [collectThreads] at ih ⊢
    rw [List.foldr_cons,collectConnections_eq,ih]
    simp only [pending,List.map_cons,List.sum_cons]
    rw [Nat.add_comm,UInt64.ofNat_add,UInt64.add_assoc]

end Counters

/-- Every byte was collected, is still to be collected, or is lost. -/
def Accounted (s : NetTraffic) : Prop :=
  ∃ collected, s.stats.numBytes=UInt64.ofNat collected ∧
    s.received=collected+s.lost+pending s.threads

/-- A connection is closed with bytes that no update has collected. -/
def LosesBytes (s : NetTraffic) : TrafficEvent → Prop
  | .close k i => ∃ conn∈connAt s.threads k i, conn.byteCount≠0
  | _ => False

instance (s : NetTraffic) : ∀ e, Decidable (LosesBytes s e)
  | .close k i => inferInstanceAs (Decidable (∃ conn∈connAt s.threads k i, conn.byteCount≠0))
  | .listen _ | .accept _ | .receive _ _ _ | .draw _ | .frame | .update _ => isFalse not_false

/-- What an update that does not divide by zero leaves. -/
theorem statisticsUpdate_out {stats : Statistics} {threads : List NetThread} {fbs : List Fb}
    {now : Timespec} {out : Statistics×List NetThread×List Fb}
    (h : statisticsUpdate build stats threads fbs now=some out) :
    out.1.numBytes=(collectThreads threads (stats.numBytes,0)).1 ∧
      out.1.numPixels=stats.numPixels+
        (if build.featurePixelCount then
          (fbs.map Fb.pixelCount).foldl (fun acc n => acc+n.toUInt64) 0
        else ((collectThreads threads (stats.numBytes,0)).1-stats.numBytes)/18) ∧
      out.2.1=resetThreads threads ∧
      out.2.2=if build.featurePixelCount then fbs.map fun fb => {fb with pixelCount := 0}
        else fbs := by
  unfold statisticsUpdate at h
  dsimp only at h
  rw [Option.bind_eq_some_iff] at h
  obtain ⟨bytesPerSecond,_,h⟩ := h
  rw [Option.bind_eq_some_iff] at h
  obtain ⟨pixelsPerSecond,_,h⟩ := h
  rw [Option.map_eq_some_iff] at h
  obtain ⟨framesPerSecond,_,rfl⟩ := h
  exact ⟨rfl,rfl,rfl,rfl⟩

/-- An update collects all counters. -/
theorem statisticsUpdate_collects {stats : Statistics} {threads : List NetThread} {fbs : List Fb}
    {now : Timespec} {out : Statistics×List NetThread×List Fb}
    (h : statisticsUpdate build stats threads fbs now=some out) :
    out.1.numBytes=stats.numBytes+UInt64.ofNat (pending threads) ∧
      out.2.1=resetThreads threads := by
  obtain ⟨hbytes,-,hthreads,-⟩ := statisticsUpdate_out h
  exact ⟨hbytes.trans (collectThreads_eq threads _),hthreads⟩

/-- A connection receives. -/
theorem Accounted.receive (h : Accounted s) {k i n : ℕ} {conn : NetConnectionThread}
    (hconn : connAt s.threads k i=some conn) (hlt : conn.byteCount.toNat+n<4294967296) :
    Accounted {s with
      threads := changeConn s.threads k i (some ⟨conn.byteCount+UInt32.ofNat n⟩)
      received := s.received+n} := by
  obtain ⟨collected,hbytes,hreceived⟩ := h
  have hsum := pending_changeConn hconn (some ⟨conn.byteCount+UInt32.ofNat n⟩)
  have hcount : (conn.byteCount+UInt32.ofNat n).toNat=conn.byteCount.toNat+n := by
    rw [UInt32.toNat_add,UInt32.toNat_ofNat',Nat.add_mod_mod,Nat.mod_eq_of_lt hlt]
  refine ⟨collected,hbytes,?_⟩
  simp only [counted,Option.toList_some,List.map_cons,List.map_nil,List.sum_cons,List.sum_nil,
    hcount] at hsum
  dsimp only
  omega

/-- A connection is closed. -/
theorem Accounted.close (h : Accounted s) {k i : ℕ} {conn : NetConnectionThread}
    (hconn : connAt s.threads k i=some conn) :
    Accounted {s with
      threads := changeConn s.threads k i none
      lost := s.lost+conn.byteCount.toNat} := by
  obtain ⟨collected,hbytes,hreceived⟩ := h
  have hsum := pending_changeConn hconn none
  refine ⟨collected,hbytes,?_⟩
  simp only [counted,Option.toList_none,List.map_nil,List.sum_nil] at hsum
  dsimp only
  omega

/-- The list of a thread changes, with the same counters. -/
theorem Accounted.of_pending (h : Accounted s) {threads : List NetThread}
    (hpending : pending threads=pending s.threads) : Accounted {s with threads := threads} := by
  obtain ⟨collected,hbytes,hreceived⟩ := h
  exact ⟨collected,hbytes,by dsimp only; rw [hreceived,hpending]⟩

/-- Every step keeps the account, and loses bytes only at such a close. -/
theorem accounted_step {e : TrafficEvent} {reply : Unit} (h : Accounted s) (hpossible : Possible s e)
    (hstep : trafficStep build s e=some (reply,s')) :
    Accounted s' ∧ (s'.lost≠0 ↔ s.lost≠0 ∨ LosesBytes s e) := by
  have hnot : ¬LosesBytes s e → (s.lost≠0 ↔ s.lost≠0 ∨ LosesBytes s e) := fun hc =>
    (or_iff_left hc).symm
  cases e with
  | listen k =>
    simp only [trafficStep] at hstep
    split at hstep
    · rename_i hget
      cases hstep
      have hsum := @sum_map_set _ (fun thread => counted thread.connections) _ _ _ hget ⟨some []⟩
      simp only [NetThread.connections,Option.getD_none,Option.getD_some] at hsum
      exact ⟨h.of_pending (Nat.add_right_cancel hsum),hnot not_false⟩
    · cases hstep
  | accept k =>
    simp only [trafficStep] at hstep
    rw [Option.map_eq_some_iff] at hstep
    obtain ⟨connections,hlist,hs⟩ := hstep
    cases hs
    have hsum := pending_set hlist (connections++[⟨0⟩])
    rw [counted,counted,List.map_append,List.sum_append] at hsum
    simp only [List.map_cons,List.map_nil,List.sum_cons,List.sum_nil,UInt32.toNat_zero,Nat.add_zero]
      at hsum
    exact ⟨h.of_pending (Nat.add_right_cancel hsum),hnot not_false⟩
  | receive k i n =>
    simp only [trafficStep] at hstep
    rw [Option.map_eq_some_iff] at hstep
    obtain ⟨conn,hconn,hs⟩ := hstep
    cases hs
    exact ⟨h.receive hconn (hpossible conn hconn),hnot not_false⟩
  | close k i =>
    simp only [trafficStep] at hstep
    rw [Option.map_eq_some_iff] at hstep
    obtain ⟨conn,hconn,hs⟩ := hstep
    cases hs
    refine ⟨h.close hconn,?_⟩
    have hloses : LosesBytes s (.close k i) ↔ conn.byteCount.toNat≠0 := by
      simp [LosesBytes,hconn,←UInt32.toNat_inj]
    rw [hloses]
    dsimp only
    omega
  | draw k =>
    simp only [trafficStep] at hstep
    rw [Option.map_eq_some_iff] at hstep
    obtain ⟨fb,_,hs⟩ := hstep
    cases hs
    exact ⟨h,hnot not_false⟩
  | frame =>
    cases hstep
    exact ⟨h,hnot not_false⟩
  | update now =>
    obtain ⟨collected,hbytes,hreceived⟩ := h
    simp only [trafficStep] at hstep
    rw [Option.map_eq_some_iff] at hstep
    obtain ⟨out,hupdate,hs⟩ := hstep
    cases hs
    obtain ⟨hcollects,hthreads⟩ := statisticsUpdate_collects hupdate
    refine ⟨⟨collected+pending s.threads,?_,?_⟩,hnot not_false⟩
    · rw [hcollects,hbytes,UInt64.ofNat_add]
    · dsimp only
      rw [hthreads,pending_reset,hreceived]
      omega

/-- Right after an update the counter is the number of bytes received exactly
when it can hold that number and no connection was closed with bytes that no
update had collected. -/
theorem numBytes_iff {numThreads : ℕ} {fbs : List Fb} {events : List TrafficEvent} {now : Timespec}
    (hadm : Admitted Possible (trafficStep build) (quiet numThreads fbs) (events++[.update now]))
    {replies : List Unit}
    (hrun : run (trafficStep build) (quiet numThreads fbs) (events++[.update now])=
      some (replies,s)) :
    s.stats.numBytes.toNat=s.received ↔ s.received<18446744073709551616 ∧
      ∀ before e after replies' s', events++[.update now]=before++e::after →
        run (trafficStep build) (quiet numThreads fbs) before=some (replies',s') →
        ¬LosesBytes s' e := by
  have hquiet : Accounted (quiet numThreads fbs) := by
    refine ⟨0,rfl,?_⟩
    simp [quiet,pending,NetThread.connections,counted]
  have hstep : ∀ s e r s', Accounted s → Possible s e → trafficStep build s e=some (r,s') →
      Accounted s' ∧ (s'.lost≠0 ↔ s.lost≠0 ∨ LosesBytes s e) :=
    fun s e r s' h hp hs => accounted_step h hp hs
  obtain ⟨collected,hbytes,hreceived⟩ :=
    run_invariant (fun s e r s' h hp hs => (hstep s e r s' h hp hs).1) hquiet hadm hrun
  have hpending : pending s.threads=0 := by
    obtain ⟨_,u,_,_,hlast⟩ := run_append_split hrun
    cases hupdate : statisticsUpdate build u.stats u.threads u.fbs now with
    | none => simp [run,trafficStep,hupdate] at hlast
    | some out =>
      simp only [run,trafficStep,hupdate,Option.map_some,Option.some.injEq,Prod.mk.injEq] at hlast
      rw [←hlast.2,(statisticsUpdate_collects hupdate).2,pending_reset]
  have hlost : s.lost=0 ↔ ∀ before e after replies' s', events++[.update now]=before++e::after →
      run (trafficStep build) (quiet numThreads fbs) before=some (replies',s') →
      ¬LosesBytes s' e := by
    have hoccurred := run_occurred hstep hquiet hadm hrun
    rw [or_iff_right (by simp [quiet])] at hoccurred
    rw [←not_iff_not,←ne_eq,hoccurred]
    push Not
    rfl
  rw [←hlost,hbytes,UInt64.toNat_ofNat']
  omega

/-- Two connections; the first one is closed once its bytes were collected. -/
def countedEvents : List TrafficEvent :=
  [.listen 0,.accept 0,.accept 0,.receive 0 0 10,.receive 0 1 5,.update ⟨1,0⟩,.close 0 0,
    .receive 0 0 7]

/-- Both counts are in the total. -/
theorem numBytes_counted :
    ∃ replies s, run (trafficStep (plainEnv 4 4).build) (quiet 1 [])
        (countedEvents++[.update ⟨2,0⟩])=some (replies,s) ∧ s.stats.numBytes.toNat=s.received := by
  have hadm : Admitted Possible (trafficStep (plainEnv 4 4).build) (quiet 1 [])
      (countedEvents++[.update ⟨2,0⟩]) := by decide +kernel
  have hcloses : Admitted (fun s e => ¬LosesBytes s e) (trafficStep (plainEnv 4 4).build)
      (quiet 1 []) (countedEvents++[.update ⟨2,0⟩]) := by decide +kernel
  have hend : (run (trafficStep (plainEnv 4 4).build) (quiet 1 [])
      (countedEvents++[.update ⟨2,0⟩])).map (fun out => out.2.received)=some 22 := by
    decide +kernel
  rw [Option.map_eq_some_iff] at hend
  obtain ⟨⟨replies,s⟩,hrun,hreceived⟩ := hend
  refine ⟨replies,s,hrun,(numBytes_iff hadm hrun).mpr ⟨?_,admitted_iff.mp hcloses⟩⟩
  dsimp only at hreceived
  omega

/-- A connection is closed before its bytes were collected. -/
def lostEvents : List TrafficEvent := [.listen 0,.accept 0,.receive 0 0 10,.close 0 0]

/-- The bytes are missing in the total. -/
theorem closed_bytes_missing :
    Admitted Possible (trafficStep (plainEnv 4 4).build) (quiet 1 [])
        (lostEvents++[.update ⟨1,0⟩]) ∧
      ∃ replies s, run (trafficStep (plainEnv 4 4).build) (quiet 1 [])
          (lostEvents++[.update ⟨1,0⟩])=some (replies,s) ∧
        s.received=10 ∧ s.stats.numBytes=0 := by
  refine ⟨by decide +kernel,_,_,rfl,rfl,rfl⟩

end Shoreline.Traffic
