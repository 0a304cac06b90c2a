import Shoreline.Library.Versions
import Shoreline.StatisticsApi

/-!
# The thread of the statistics interface

Two threads share the statistics of the frontend: the main loop overwrites them
member by member, and `api_thread` adds them up and formats them for a client.
Both hold a lock meanwhile, in any order. Every answer is about statistics that
the main loop has had as a whole, and later clients never see older ones.
-/

namespace Shoreline.ApiThread

open Framebuffer NetConnection StateMachine Traffic Shoreline.Units StatisticsApi JsonText Versions

/-- What is copied of `struct statistics` at once. -/
inductive Cell where
  | numBytes
  | numPixels
  | numConnections
  | averageIndex
  | bytesPerSecond (i : Fin statisticsNumAverages)
  | pixelsPerSecond (i : Fin statisticsNumAverages)
  | framesPerSecond (i : Fin statisticsNumAverages)
  | lastNumFrames
  | numFrames
  | lastUpdate

/-- All of it, in the order of the declaration. -/
def cells : List Cell :=
  [.numBytes,.numPixels,.numConnections,.averageIndex]++
    ((List.finRange _).map .bytesPerSecond++((List.finRange _).map .pixelsPerSecond++
      ((List.finRange _).map .framesPerSecond++[.lastNumFrames,.numFrames,.lastUpdate])))

/-- A part of the statistics is copied. -/
def copyCell (stats front : Statistics) : Cell → Statistics
  | .numBytes => {front with numBytes := stats.numBytes}
  | .numPixels => {front with numPixels := stats.numPixels}
  | .numConnections => {front with numConnections := stats.numConnections}
  | .averageIndex => {front with averageIndex := stats.averageIndex}
  | .bytesPerSecond i =>
    {front with bytesPerSecond := Function.update front.bytesPerSecond i (stats.bytesPerSecond i)}
  | .pixelsPerSecond i =>
    {front with pixelsPerSecond := Function.update front.pixelsPerSecond i (stats.pixelsPerSecond i)}
  | .framesPerSecond i =>
    {front with framesPerSecond := Function.update front.framesPerSecond i (stats.framesPerSecond i)}
  | .lastNumFrames => {front with lastNumFrames := stats.lastNumFrames}
  | .numFrames => {front with numFrames := stats.numFrames}
  | .lastUpdate => {front with lastUpdate := stats.lastUpdate}

/-- Who may hold `stats_lock`. -/
inductive Party where
  | mainLoop
  | apiThread
  deriving DecidableEq

/-- Where the main loop is with the frontend. -/
inductive MainPc where
  /-- Elsewhere. -/
  | looping
  /-- In `statistics_frontend_update_statistics`, with this left to be copied. -/
  | copying (todo : List Cell)
  /-- In `statistics_frontend_free`, where it waits for the thread. -/
  | joining
  /-- Behind it. -/
  | freed

/-- Where `api_thread` is. -/
inductive ApiPc where
  /-- At the condition of its loop. -/
  | checking
  /-- In `accept`. -/
  | accepting
  /-- It wants the lock. -/
  | locking
  /-- In a `GET_AVERAGE`, behind other ones: the index and the sum so far. -/
  | averaging (averages : List UInt64) (i : ℕ) (acc : UInt64)
  /-- Before `snprintf`. -/
  | formatting (averages : List UInt64)
  /-- Before the lock is released, with this text in the buffer. -/
  | unlocking (text : List UInt8)
  /-- In the loop that writes: what was sent, and what is left. -/
  | writing (sent rest : List UInt8)
  /-- Before the connection is shut down; a call of `write` may have failed. -/
  | shutting (sent : List UInt8) (failed : Bool)
  /-- Before the connection is closed. -/
  | closing (sent : List UInt8) (failed : Bool)
  /-- It has ended. -/
  | ended

/-- A client of the interface. -/
structure Client where
  /-- What it was sent. -/
  sent : List UInt8
  /-- A write has failed, or the thread was cancelled. -/
  failed : Bool
  /-- Its connection was closed. -/
  closed : Bool
  deriving DecidableEq

/-- The client that is served. -/
def ApiPc.client : ApiPc → Option Client
  | .checking | .accepting | .ended => none
  | .locking | .averaging _ _ _ | .formatting _ | .unlocking _ => some ⟨[],false,false⟩
  | .writing sent _ => some ⟨sent,false,false⟩
  | .shutting sent failed | .closing sent failed => some ⟨sent,failed,false⟩

/-- The lock is held there. -/
def ApiPc.locked : ApiPc → Bool
  | .averaging _ _ _ | .formatting _ | .unlocking _ => true
  | _ => false

/-- The statistics of the main loop and the frontend. -/
structure StatsApi where
  /-- The main loop, with its statistics and the connections of the server. -/
  traffic : NetTraffic
  /-- `sfront->stats`. -/
  front : Statistics
  /-- `sfront->stats_lock`. -/
  lock : Option Party
  /-- `sfront->exit`. -/
  exit : Bool
  mainPc : MainPc
  apiPc : ApiPc
  /-- History: the clients that were served before, the last one last. -/
  served : List Client

/-- All clients so far. -/
def StatsApi.clients (s : StatsApi) : List Client := s.served++s.apiPc.client.toList

/-- One step. -/
inductive ApiEvent where
  /-- The server goes on; updates and frames are those of the main loop. -/
  | traffic (e : TrafficEvent)
  /-- `statistics_frontend_update_statistics`, with a part of it copied at a time. -/
  | lockStats
  | copyStats
  | unlockStats
  /-- `statistics_frontend_free`, up to the wait for the thread, and behind it. -/
  | free
  | join
  /-- A step of `api_thread` that only depends on what it has. -/
  | thread
  /-- `accept` returns. -/
  | accepted (ok : Bool)
  /-- `write` returns. -/
  | written (result : Except ℤ ℕ)
  /-- The thread is cancelled. -/
  | cancelled

/-- What only the main loop does. -/
def ofMainLoop : TrafficEvent → Bool
  | .update _ | .frame => true
  | _ => false

/-- The windows that `GET_AVERAGE` is used on, one after the other. -/
def averaged (stats : Statistics) : List (Fin statisticsNumAverages → UInt64) :=
  [stats.bytesPerSecond,stats.pixelsPerSecond,stats.framesPerSecond]

/-- A step within `GET_AVERAGE`, or to the next one or behind them. -/
def averageStep (front : Statistics) (averages : List UInt64) (i : ℕ) (acc : UInt64) : ApiPc :=
  match (averaged front)[averages.length]? with
  | none => .formatting averages
  | some field =>
    if h : i < statisticsNumAverages then .averaging averages (i+1) (acc+field ⟨i,h⟩)
    else .averaging (averages++[acc/UInt64.ofNat statisticsNumAverages]) 0 0

/-- A step of `api_thread` that only depends on what it has. -/
def threadStep (s : StatsApi) : Option StatsApi :=
  match s.apiPc with
  | .checking => some {s with apiPc := if s.exit then .ended else .accepting}
  | .locking =>
    if s.lock=none then some {s with lock := some .apiThread, apiPc := .averaging [] 0 0} else none
  | .averaging averages i acc => some {s with apiPc := averageStep s.front averages i acc}
  | .formatting [bytes,pixels,frames] =>
    (answer ⟨s.front.numBytes,s.front.numPixels,bytes,pixels,s.front.numConnections,frames⟩).map
      fun text => {s with apiPc := .unlocking text}
  | .unlocking text => some {s with lock := none, apiPc := .writing [] text}
  | .writing sent [] => some {s with apiPc := .shutting sent false}
  | .shutting sent failed => some {s with apiPc := .closing sent failed}
  | .closing sent failed =>
    some {s with apiPc := .checking, served := s.served++[⟨sent,failed,true⟩]}
  | _ => none

/-- One step; `none` where the event does not happen. -/
def apiStep (build : Build) : Step ApiEvent Unit StatsApi
  | s,.traffic e =>
    match s.mainPc,ofMainLoop e with
    | .looping,_ | _,false =>
      (trafficStep build s.traffic e).map fun out => ((),{s with traffic := out.2})
    | _,true => none
  | s,.lockStats =>
    match s.mainPc with
    | .looping =>
      if s.lock=none then some ((),{s with lock := some .mainLoop, mainPc := .copying cells})
      else none
    | _ => none
  | s,.copyStats =>
    match s.mainPc with
    | .copying (cell::todo) =>
      some ((),{s with front := copyCell s.traffic.stats s.front cell, mainPc := .copying todo})
    | _ => none
  | s,.unlockStats =>
    match s.mainPc with
    | .copying [] => some ((),{s with lock := none, mainPc := .looping})
    | _ => none
  | s,.free =>
    match s.mainPc with
    | .looping => some ((),{s with exit := true, mainPc := .joining})
    | _ => none
  | s,.join =>
    match s.mainPc,s.apiPc with
    | .joining,.ended => some ((),{s with mainPc := .freed})
    | _,_ => none
  | s,.thread => (threadStep s).map fun s' => ((),s')
  | s,.accepted ok =>
    match s.apiPc with
    | .accepting => some ((),{s with apiPc := if ok then .locking else .ended})
    | _ => none
  | s,.written result =>
    match s.apiPc,result with
    | .writing sent (c::rest),.ok n =>
      some ((),{s with apiPc := .writing (sent++(c::rest).take n) ((c::rest).drop n)})
    | .writing sent (_::_),.error _ => some ((),{s with apiPc := .shutting sent true})
    | _,_ => none
  | s,.cancelled =>
    match s.mainPc,s.apiPc with
    | .joining,.accepting => some ((),{s with apiPc := .ended})
    | .joining,.writing sent (_::_) =>
      some ((),{s with apiPc := .ended, served := s.served++[⟨sent,true,false⟩]})
    | .joining,.closing sent _ =>
      some ((),{s with apiPc := .ended, served := s.served++[⟨sent,true,false⟩]})
    | _,_ => none

/-- Statistics of zero, as at the start of the server. -/
def noStats : Statistics := (quiet 0 []).stats

/-- Behind `statistics_frontend_start`. -/
def started (numThreads : ℕ) (fbs : List Fb) : StatsApi :=
  ⟨quiet numThreads fbs,noStats,none,false,.looping,.checking,[]⟩

/-- The statistics that the main loop passes on. -/
def passedOn (s : StatsApi) : ApiEvent → List Statistics
  | .lockStats => [s.traffic.stats]
  | _ => []

/-- A part of the statistics is the same. -/
def Cell.Same (stats front : Statistics) : Cell → Prop
  | .numBytes => front.numBytes=stats.numBytes
  | .numPixels => front.numPixels=stats.numPixels
  | .numConnections => front.numConnections=stats.numConnections
  | .averageIndex => front.averageIndex=stats.averageIndex
  | .bytesPerSecond i => front.bytesPerSecond i=stats.bytesPerSecond i
  | .pixelsPerSecond i => front.pixelsPerSecond i=stats.pixelsPerSecond i
  | .framesPerSecond i => front.framesPerSecond i=stats.framesPerSecond i
  | .lastNumFrames => front.lastNumFrames=stats.lastNumFrames
  | .numFrames => front.numFrames=stats.numFrames
  | .lastUpdate => front.lastUpdate=stats.lastUpdate

/-- There is nothing else in the statistics. -/
theorem mem_cells (cell : Cell) : cell∈cells := by
  cases cell <;> simp [cells]

/-- Statistics that are the same everywhere are equal. -/
theorem eq_of_same {stats front : Statistics} (h : ∀ cell : Cell,cell.Same stats front) :
    front=stats := by
  have hbytes : front.bytesPerSecond=stats.bytesPerSecond := funext fun i => h (.bytesPerSecond i)
  have hpixels : front.pixelsPerSecond=stats.pixelsPerSecond := funext fun i => h (.pixelsPerSecond i)
  have hframes : front.framesPerSecond=stats.framesPerSecond := funext fun i => h (.framesPerSecond i)
  cases front
  cases stats
  rw [Statistics.mk.injEq]
  exact ⟨h .numBytes,h .numPixels,h .numConnections,h .averageIndex,hbytes,hpixels,hframes,
    h .lastNumFrames,h .numFrames,h .lastUpdate⟩

/-- A value of a window that is overwritten by the right one is right. -/
theorem update_same {n : ℕ} {source cells : Fin n → UInt64} {i j : Fin n}
    (h : i=j ∨ cells j=source j) : Function.update cells i (source i) j=source j := by
  rw [Function.update_apply]
  split
  · rename_i hj
    rw [hj]
  · rename_i hj
    exact h.resolve_left fun hi => hj hi.symm

/-- A part is the same when it has been copied, and stays so. -/
theorem copyCell_same {stats front : Statistics} {cell copied : Cell}
    (h : cell=copied ∨ cell.Same stats front) : cell.Same stats (copyCell stats front copied) := by
  cases copied with
  | bytesPerSecond i =>
    cases cell with
    | bytesPerSecond j => exact update_same (h.imp (fun he => by injection he with he; exact he.symm) id)
    | _ => exact h.resolve_left nofun
  | pixelsPerSecond i =>
    cases cell with
    | pixelsPerSecond j => exact update_same (h.imp (fun he => by injection he with he; exact he.symm) id)
    | _ => exact h.resolve_left nofun
  | framesPerSecond i =>
    cases cell with
    | framesPerSecond j => exact update_same (h.imp (fun he => by injection he with he; exact he.symm) id)
    | _ => exact h.resolve_left nofun
  | _ =>
    cases cell with
    | _ => first | rfl | exact h.resolve_left nofun

variable {build : Build} {s s' : StatsApi} {past : List Statistics} {seen : List ℕ} {since : Moment}

/-- A text is the answer about the statistics of this number. -/
def About (past : List Statistics) (j : ℕ) (text : List UInt8) : Prop :=
  ∃ stats, past[j]?=some stats ∧ text=reportText (reportOf stats)

/-- A client was sent the beginning of an answer, and all of it when its connection
was closed without a failure. -/
def ServedWith (past : List Statistics) (client : Client) (j : ℕ) : Prop :=
  ∃ text, About past j text ∧ client.sent<+:text ∧
    (client.closed=true → client.failed=false → client.sent=text)

/-- The sum in `GET_AVERAGE` over the first values of a window. -/
def sumUpTo (field : Fin statisticsNumAverages → UInt64) (i : ℕ) : UInt64 :=
  ((List.finRange statisticsNumAverages).take i).foldl (fun acc i => acc+field i) 0

/-- What `api_thread` has computed is about the statistics in the frontend; what it
sends is about statistics that are no older than those of the clients before. -/
def PcInv (since : Moment) (past : List Statistics) (front : Statistics) (seen : List ℕ) :
    ApiPc → Prop
  | .averaging averages i acc =>
    averages=((averaged front).take averages.length).map getAverage ∧
      i≤ statisticsNumAverages ∧ ∀ field∈(averaged front)[averages.length]?,acc=sumUpTo field i
  | .formatting averages => averages=(averaged front).map getAverage
  | .unlocking text => ∃ j, Current since seen j ∧ About past j text
  | .writing sent rest => ∃ j, Current since seen j ∧ About past j (sent++rest)
  | .shutting sent failed | .closing sent failed =>
    ∃ j rest, Current since seen j ∧ About past j (sent++rest) ∧ (failed=false → rest=[])
  | _ => True

/-- The state of the frontend between two steps. -/
structure ApiInv (since : Moment) (s : StatsApi) (past : List Statistics) : Prop where
  mainLock : s.lock=some .mainLoop ↔ ∃ todo, s.mainPc=.copying todo
  apiLock : s.lock=some .apiThread ↔ s.apiPc.locked=true
  exit : s.mainPc=.joining → s.exit=true
  /-- While the main loop copies, what is not left to be copied is up to date. -/
  copying : ∀ todo, s.mainPc=.copying todo → past.getLast?=some s.traffic.stats ∧
    ∀ cell, cell∈todo ∨ cell.Same s.traffic.stats s.front
  /-- Otherwise all of it is what was passed on last. -/
  copied : s.lock≠some .mainLoop → past.getLast?=some s.front
  /-- Only the last connection can be open behind the end of the thread. -/
  closed : (∀ client∈s.served.dropLast,client.closed=true) ∧
    (s.apiPc≠.ended → ∀ client∈s.served,client.closed=true)
  updates : since.updates<past.length
  answers : ∃ seen, Fresh since seen ∧ (∀ k∈seen,k<past.length) ∧
    List.Forall₂ (ServedWith past) s.served seen ∧ PcInv since past s.front seen s.apiPc

/-- More statistics are passed on. -/
theorem About.append {j : ℕ} {text : List UInt8} (h : About past j text) (more : List Statistics) :
    About (past++more) j text := by
  obtain ⟨stats,hget,htext⟩ := h
  have hlt := (List.getElem?_eq_some_iff.mp hget).choose
  exact ⟨stats,by rwa [List.getElem?_append_left hlt],htext⟩

/-- So are clients that were served before. -/
theorem ServedWith.append {client : Client} {j : ℕ} (h : ServedWith past client j)
    (more : List Statistics) : ServedWith (past++more) client j := by
  obtain ⟨text,habout,hsent⟩ := h
  exact ⟨text,habout.append more,hsent⟩

/-- And the client that is served. -/
theorem PcInv.append {front : Statistics} {pc : ApiPc} (h : PcInv since past front seen pc)
    (more : List Statistics) : PcInv since (past++more) front seen pc := by
  cases pc with
  | unlocking text =>
    obtain ⟨j,hle,habout⟩ := h
    exact ⟨j,hle,habout.append more⟩
  | writing sent rest =>
    obtain ⟨j,hle,habout⟩ := h
    exact ⟨j,hle,habout.append more⟩
  | shutting sent failed =>
    obtain ⟨j,rest,hle,habout,hrest⟩ := h
    exact ⟨j,rest,hle,habout.append more,hrest⟩
  | closing sent failed =>
    obtain ⟨j,rest,hle,habout,hrest⟩ := h
    exact ⟨j,rest,hle,habout.append more,hrest⟩
  | _ => exact h

/-- A thread without the lock does not depend on what is in the frontend. -/
theorem PcInv.of_unlocked {front front' : Statistics} {pc : ApiPc} (hpc : pc.locked=false)
    (h : PcInv since past front seen pc) : PcInv since past front' seen pc := by
  cases pc with
  | averaging averages i acc => cases hpc
  | formatting averages => cases hpc
  | _ => exact h

/-- One more value is added to the sum. -/
theorem sumUpTo_succ (field : Fin statisticsNumAverages → UInt64) {i : ℕ}
    (h : i < statisticsNumAverages) : sumUpTo field (i+1)=sumUpTo field i+field ⟨i,h⟩ := by
  have hlength : i<(List.finRange statisticsNumAverages).length := by
    rw [List.length_finRange]
    exact h
  rw [sumUpTo,List.take_add_one,List.getElem?_eq_getElem hlength,List.foldl_append,
    List.getElem_finRange]
  rfl

/-- The sum of all of them, divided, is the average. -/
theorem sumUpTo_all (field : Fin statisticsNumAverages → UInt64) :
    sumUpTo field statisticsNumAverages/UInt64.ofNat statisticsNumAverages=getAverage field := by
  rw [sumUpTo,List.take_of_length_le (by rw [List.length_finRange]),getAverage]

/-- A step of `GET_AVERAGE`. -/
theorem averageStep_inv {front : Statistics} {averages : List UInt64} {i : ℕ} {acc : UInt64}
    (h : PcInv since past front seen (.averaging averages i acc)) :
    PcInv since past front seen (averageStep front averages i acc) ∧
      (averageStep front averages i acc).locked=true := by
  obtain ⟨haverages,hle,hacc⟩ := h
  rw [averageStep]
  cases hfield : (averaged front)[averages.length]? with
  | none =>
    refine ⟨?_,rfl⟩
    rw [List.take_of_length_le (List.getElem?_eq_none_iff.mp hfield)] at haverages
    exact haverages
  | some field =>
    dsimp only
    split
    · rename_i hlt
      refine ⟨⟨haverages,hlt,fun field' hfield' => ?_⟩,rfl⟩
      rw [hfield,Option.mem_some_iff] at hfield'
      rw [←hfield',sumUpTo_succ field hlt,hacc field hfield]
    · rename_i hge
      refine ⟨⟨?_,Nat.zero_le _,fun _ _ => rfl⟩,rfl⟩
      have hall : i=statisticsNumAverages := Nat.le_antisymm hle (not_lt.mp hge)
      rw [List.length_append,List.length_singleton,List.take_add_one,hfield,Option.toList_some,
        List.map_append,←haverages,hacc field hfield,hall,sumUpTo_all,List.map_singleton]

/-- The thread goes on without taking or releasing the lock. -/
theorem ApiInv.goOn (h : ApiInv since s past) {pc : ApiPc} (hlocked : pc.locked=s.apiPc.locked)
    (hended : s.apiPc≠.ended)
    (hpc : ∀ seen, (∀ k∈seen,k<past.length) → PcInv since past s.front seen s.apiPc →
      PcInv since past s.front seen pc) : ApiInv since {s with apiPc := pc} past := by
  obtain ⟨seen,hfresh,hlt,hserved,hold⟩ := h.answers
  exact {
    mainLock := h.mainLock
    apiLock := by rw [h.apiLock,hlocked]
    exit := h.exit
    copying := h.copying
    copied := h.copied
    closed := ⟨h.closed.1,fun _ => h.closed.2 hended⟩
    updates := h.updates
    answers := ⟨seen,hfresh,hlt,hserved,hpc seen hlt hold⟩ }

/-- The thread is done with its client, or it ends. -/
theorem ApiInv.finish (h : ApiInv since s past) {pc : ApiPc} (hpc : pc=.checking ∨ pc=.ended)
    (hlocked : s.apiPc.locked=false) (hended : s.apiPc≠.ended) {client : Client}
    (hclosed : pc=.checking → client.closed=true)
    (hclient : ∀ seen, PcInv since past s.front seen s.apiPc →
      ∃ j, Current since seen j ∧ ServedWith past client j) :
    ApiInv since {s with apiPc := pc, served := s.served++[client]} past := by
  obtain ⟨seen,hfresh,hlt,hserved,hold⟩ := h.answers
  obtain ⟨j,hcurrent,hwith⟩ := hclient seen hold
  have hj : j<past.length := by
    obtain ⟨text,⟨stats,hget,_⟩,_⟩ := hwith
    exact (List.getElem?_eq_some_iff.mp hget).choose
  have hall := h.closed.2 hended
  exact {
    mainLock := h.mainLock
    apiLock := by
      rw [h.apiLock,hlocked]
      rcases hpc with rfl | rfl <;> rfl
    exit := h.exit
    copying := h.copying
    copied := h.copied
    closed := by
      refine ⟨by rwa [List.dropLast_concat],fun hne client' hmem => ?_⟩
      rcases List.mem_append.mp hmem with hmem | hmem
      · exact hall client' hmem
      · rw [List.mem_singleton.mp hmem]
        exact hclosed (hpc.resolve_right hne)
    updates := h.updates
    answers := by
      refine ⟨seen++[j],hfresh.concat hcurrent,?_,?_,?_⟩
      · intro k hk
        rcases List.mem_append.mp hk with hk | hk
        · exact hlt k hk
        · rw [List.mem_singleton.mp hk]
          exact hj
      · exact List.rel_append hserved (List.Forall₂.cons hwith List.Forall₂.nil)
      · rcases hpc with rfl | rfl <;> trivial }

/-- The text in the buffer is about what was passed on last. -/
theorem ApiInv.format (h : ApiInv since s past) {bytes pixels frames : UInt64}
    (hpc : s.apiPc=.formatting [bytes,pixels,frames]) {text : List UInt8}
    (htext : answer ⟨s.front.numBytes,s.front.numPixels,bytes,pixels,s.front.numConnections,frames⟩=
      some text) : ApiInv since {s with apiPc := .unlocking text} past := by
  have hlock : s.lock=some .apiThread := h.apiLock.mpr (by rw [hpc]; rfl)
  have hlast := h.copied (by rw [hlock]; decide)
  refine h.goOn (by rw [hpc]; rfl) (by rw [hpc]; exact nofun) fun seen hlt hold => ?_
  rw [hpc] at hold
  have haverages : [bytes,pixels,frames]=(averaged s.front).map getAverage := hold
  rw [averaged,List.map_cons,List.map_cons,List.map_cons,List.map_nil,List.cons.injEq,
    List.cons.injEq,List.cons.injEq] at haverages
  obtain ⟨hbytes,hpixels,hframes,_⟩ := haverages
  refine ⟨past.length-1,current_last hlt h.updates,s.front,?_,?_⟩
  · rwa [←List.getLast?_eq_getElem?]
  · rw [answer_eq,hbytes,hpixels,hframes] at htext
    exact (Option.some.inj htext).symm

/-- A step of the thread that only depends on what it has. -/
theorem ApiInv.thread (h : ApiInv since s past) (hstep : threadStep s=some s') : ApiInv since s' past := by
  unfold threadStep at hstep
  split at hstep
  · rename_i hpc
    cases hstep
    refine h.goOn ?_ (by rw [hpc]; exact nofun) fun seen _ _ => ?_
    · rw [hpc]
      split <;> rfl
    · split <;> trivial
  · rename_i hpc
    split at hstep
    · rename_i hlock
      cases hstep
      obtain ⟨seen,hfresh,hlt,hserved,_⟩ := h.answers
      exact {
        mainLock := by
          refine ⟨nofun,fun hcopying => ?_⟩
          rw [h.mainLock.mpr hcopying] at hlock
          cases hlock
        apiLock := ⟨fun _ => rfl,fun _ => rfl⟩
        exit := h.exit
        copying := h.copying
        copied := fun _ => h.copied (by rw [hlock]; exact nofun)
        closed := ⟨h.closed.1,fun _ => h.closed.2 (by rw [hpc]; exact nofun)⟩
        updates := h.updates
        answers := ⟨seen,hfresh,hlt,hserved,rfl,Nat.zero_le _,fun _ _ => rfl⟩ }
    · cases hstep
  · rename_i averages i acc hpc
    cases hstep
    refine h.goOn ?_ (by rw [hpc]; exact nofun) fun seen _ hold => ?_
    · obtain ⟨seen,_,_,_,hold⟩ := h.answers
      rw [hpc] at hold ⊢
      exact (averageStep_inv hold).2
    · rw [hpc] at hold
      exact (averageStep_inv hold).1
  · rename_i bytes pixels frames hpc
    obtain ⟨text,htext,hs⟩ := Option.map_eq_some_iff.mp hstep
    rw [←hs]
    exact h.format hpc htext
  · rename_i text hpc
    cases hstep
    have hlock : s.lock=some .apiThread := h.apiLock.mpr (by rw [hpc]; rfl)
    have hnot : s.lock≠some .mainLoop := by rw [hlock]; decide
    obtain ⟨seen,hfresh,hlt,hserved,hold⟩ := h.answers
    rw [hpc] at hold
    exact {
      mainLock := ⟨nofun,fun hcopying => absurd (h.mainLock.mpr hcopying) hnot⟩
      apiLock := ⟨nofun,nofun⟩
      exit := h.exit
      copying := h.copying
      copied := fun _ => h.copied hnot
      closed := ⟨h.closed.1,fun _ => h.closed.2 (by rw [hpc]; exact nofun)⟩
      updates := h.updates
      answers := ⟨seen,hfresh,hlt,hserved,hold⟩ }
  · rename_i sent hpc
    cases hstep
    refine h.goOn (by rw [hpc]; rfl) (by rw [hpc]; exact nofun) fun seen _ hold => ?_
    rw [hpc] at hold
    obtain ⟨j,hle,habout⟩ := hold
    exact ⟨j,[],hle,habout,fun _ => rfl⟩
  · rename_i sent failed hpc
    cases hstep
    refine h.goOn (by rw [hpc]; rfl) (by rw [hpc]; exact nofun) fun seen _ hold => ?_
    rwa [hpc] at hold
  · rename_i sent failed hpc
    cases hstep
    refine h.finish (Or.inl rfl) (by rw [hpc]; rfl) (by rw [hpc]; exact nofun) (fun _ => rfl)
      fun seen hold => ?_
    rw [hpc] at hold
    obtain ⟨j,rest,hle,habout,hrest⟩ := hold
    refine ⟨j,hle,sent++rest,habout,List.prefix_append _ _,fun _ hfailed => ?_⟩
    rw [hrest hfailed,List.append_nil]
  · cases hstep

/-- The thread is somewhere else, with what it has. -/
theorem ApiInv.unlocked (h : ApiInv since s past) (hlock : s.lock≠some .apiThread) :
    s.apiPc.locked=false := by
  cases hlocked : s.apiPc.locked with
  | false => rfl
  | true => exact absurd (h.apiLock.mpr hlocked) hlock

/-- The main loop starts to pass its statistics on. -/
theorem ApiInv.lockStats (h : ApiInv since s past) (hlock : s.lock=none) :
    ApiInv since {s with lock := some .mainLoop, mainPc := .copying cells} (past++[s.traffic.stats]) := by
  obtain ⟨seen,hfresh,hlt,hserved,hold⟩ := h.answers
  have hunlocked := h.unlocked (by rw [hlock]; exact nofun)
  exact {
    mainLock := ⟨fun _ => ⟨cells,rfl⟩,fun _ => rfl⟩
    apiLock := ⟨nofun,fun hlocked => absurd hlocked (by rw [hunlocked]; exact nofun)⟩
    exit := nofun
    copying := fun todo htodo => by
      cases htodo
      exact ⟨List.getLast?_concat,fun cell => Or.inl (mem_cells cell)⟩
    copied := fun hne => absurd rfl hne
    closed := h.closed
    updates := by
      rw [List.length_append]
      exact h.updates.trans_le (Nat.le_add_right _ _)
    answers := by
      refine ⟨seen,hfresh,fun k hk => ?_,hserved.imp fun _ _ hwith => hwith.append _,hold.append _⟩
      rw [List.length_append]
      exact (hlt k hk).trans_le (Nat.le_add_right _ _) }

/-- It copies a part of them. -/
theorem ApiInv.copyStats (h : ApiInv since s past) {cell : Cell} {todo : List Cell}
    (hpc : s.mainPc=.copying (cell::todo)) :
    ApiInv since {s with front := copyCell s.traffic.stats s.front cell, mainPc := .copying todo} past := by
  obtain ⟨seen,hfresh,hlt,hserved,hold⟩ := h.answers
  obtain ⟨hlast,hsame⟩ := h.copying _ hpc
  have hlock := h.mainLock.mpr ⟨_,hpc⟩
  have hunlocked := h.unlocked (by rw [hlock]; decide)
  exact {
    mainLock := ⟨fun _ => ⟨todo,rfl⟩,fun _ => hlock⟩
    apiLock := h.apiLock
    exit := nofun
    copying := fun todo' htodo => by
      cases htodo
      refine ⟨hlast,fun cell' => ?_⟩
      rcases hsame cell' with hmem | hsame
      · rcases List.mem_cons.mp hmem with hcell | hmem
        · exact Or.inr (copyCell_same (Or.inl hcell))
        · exact Or.inl hmem
      · exact Or.inr (copyCell_same (Or.inr hsame))
    copied := fun hne => absurd hlock hne
    closed := h.closed
    updates := h.updates
    answers := ⟨seen,hfresh,hlt,hserved,hold.of_unlocked hunlocked⟩ }

/-- It has passed them on. -/
theorem ApiInv.unlockStats (h : ApiInv since s past) (hpc : s.mainPc=.copying []) :
    ApiInv since {s with lock := none, mainPc := .looping} past := by
  obtain ⟨hlast,hsame⟩ := h.copying _ hpc
  have hlock := h.mainLock.mpr ⟨_,hpc⟩
  have hunlocked := h.unlocked (by rw [hlock]; decide)
  have hfront : s.front=s.traffic.stats :=
    eq_of_same fun cell => (hsame cell).resolve_left List.not_mem_nil
  exact {
    mainLock := ⟨nofun,nofun⟩
    apiLock := ⟨nofun,fun hlocked => absurd hlocked (by rw [hunlocked]; exact nofun)⟩
    exit := nofun
    copying := nofun
    copied := fun _ => by rw [hlast,hfront]
    closed := h.closed
    updates := h.updates
    answers := h.answers }

/-- It does something else than copying. -/
theorem ApiInv.mainPc (h : ApiInv since s past) {pc : MainPc} {exit : Bool}
    (hold : ∀ todo, s.mainPc≠.copying todo) (hnew : ∀ todo, pc≠.copying todo)
    (hexit : pc=.joining → exit=true) : ApiInv since {s with mainPc := pc, exit := exit} past where
  mainLock := by
    rw [h.mainLock]
    exact ⟨fun ⟨todo,hpc⟩ => absurd hpc (hold todo),fun ⟨todo,hpc⟩ => absurd hpc (hnew todo)⟩
  apiLock := h.apiLock
  exit := hexit
  copying := fun todo hpc => absurd hpc (hnew todo)
  copied := h.copied
  closed := h.closed
  updates := h.updates
  answers := h.answers

/-- What other threads do to the traffic leaves the statistics alone. -/
theorem stats_of_other {t t' : NetTraffic} {e : TrafficEvent} {reply : Unit}
    (hother : ofMainLoop e=false) (hstep : trafficStep build t e=some (reply,t')) :
    t'.stats=t.stats := by
  cases e with
  | listen k =>
    simp only [trafficStep] at hstep
    split at hstep
    · cases hstep
      rfl
    · cases hstep
  | accept k =>
    obtain ⟨connections,_,hs⟩ := Option.map_eq_some_iff.mp hstep
    cases hs
    rfl
  | receive k i n =>
    obtain ⟨conn,_,hs⟩ := Option.map_eq_some_iff.mp hstep
    cases hs
    rfl
  | close k i =>
    obtain ⟨conn,_,hs⟩ := Option.map_eq_some_iff.mp hstep
    cases hs
    rfl
  | draw k =>
    obtain ⟨fb,_,hs⟩ := Option.map_eq_some_iff.mp hstep
    cases hs
    rfl
  | frame => cases hother
  | update now => cases hother

/-- The server goes on. -/
theorem ApiInv.serve (h : ApiInv since s past) {e : TrafficEvent} {reply : Unit} {t : NetTraffic}
    (hmain : s.mainPc=.looping ∨ ofMainLoop e=false)
    (hstep : trafficStep build s.traffic e=some (reply,t)) : ApiInv since {s with traffic := t} past where
  mainLock := h.mainLock
  apiLock := h.apiLock
  exit := h.exit
  copying := fun todo hpc => by
    have hother := hmain.resolve_left (by rw [show s.mainPc=.copying todo from hpc]; exact nofun)
    have hstats := stats_of_other hother hstep
    dsimp only
    rw [hstats]
    exact h.copying todo hpc
  copied := h.copied
  closed := h.closed
  updates := h.updates
  answers := h.answers

/-- A call of `write` returns. -/
theorem ApiInv.write (h : ApiInv since s past) {sent rest : List UInt8} (hpc : s.apiPc=.writing sent rest)
    (n : ℕ) : ApiInv since {s with apiPc := .writing (sent++rest.take n) (rest.drop n)} past := by
  refine h.goOn (by rw [hpc]; rfl) (by rw [hpc]; exact nofun) fun seen _ hold => ?_
  rw [hpc] at hold
  obtain ⟨j,hle,habout⟩ := hold
  refine ⟨j,hle,?_⟩
  rwa [List.append_assoc,List.take_append_drop]

/-- A call of `write` fails. -/
theorem ApiInv.failWrite (h : ApiInv since s past) {sent rest : List UInt8}
    (hpc : s.apiPc=.writing sent rest) : ApiInv since {s with apiPc := .shutting sent true} past := by
  refine h.goOn (by rw [hpc]; rfl) (by rw [hpc]; exact nofun) fun seen _ hold => ?_
  rw [hpc] at hold
  obtain ⟨j,hle,habout⟩ := hold
  exact ⟨j,rest,hle,habout,nofun⟩

/-- The thread is cancelled when it serves a client. -/
theorem ApiInv.cancel (h : ApiInv since s past) {sent : List UInt8}
    (hpc : (∃ rest, s.apiPc=.writing sent rest) ∨ ∃ failed, s.apiPc=.closing sent failed) :
    ApiInv since {s with apiPc := .ended, served := s.served++[⟨sent,true,false⟩]} past := by
  refine h.finish (Or.inr rfl) ?_ ?_ nofun fun seen hold => ?_
  · rcases hpc with ⟨rest,hpc⟩ | ⟨failed,hpc⟩ <;> rw [hpc] <;> rfl
  · rcases hpc with ⟨rest,hpc⟩ | ⟨failed,hpc⟩ <;> rw [hpc] <;> exact nofun
  · rcases hpc with ⟨rest,hpc⟩ | ⟨failed,hpc⟩
    · rw [hpc] at hold
      obtain ⟨j,hle,habout⟩ := hold
      exact ⟨j,hle,sent++rest,habout,List.prefix_append _ _,nofun⟩
    · rw [hpc] at hold
      obtain ⟨j,rest,hle,habout,_⟩ := hold
      exact ⟨j,hle,sent++rest,habout,List.prefix_append _ _,nofun⟩

/-- Every step keeps the state of the frontend. -/
theorem apiInv_step (s : StatsApi) (past : List Statistics) (e : ApiEvent) (reply : Unit)
    (s' : StatsApi) (h : ApiInv since s past) (hstep : apiStep build s e=some (reply,s')) :
    ApiInv since s' (past++passedOn s e) := by
  have hsilent : passedOn s e=[] → ApiInv since s' past → ApiInv since s' (past++passedOn s e) := by
    intro hnil hinv
    rwa [hnil,List.append_nil]
  cases e with
  | traffic e =>
    refine hsilent rfl ?_
    have hmap : ∀ {hmain : s.mainPc=.looping ∨ ofMainLoop e=false},
        (trafficStep build s.traffic e).map (fun out => ((),{s with traffic := out.2}))=
          some (reply,s') → ApiInv since s' past := by
      intro hmain hmap
      obtain ⟨out,hout,hs⟩ := Option.map_eq_some_iff.mp hmap
      cases hs
      exact h.serve hmain hout
    simp only [apiStep] at hstep
    split at hstep
    · rename_i hpc
      exact @hmap (Or.inl hpc) hstep
    · rename_i hother _
      exact @hmap (Or.inr hother) hstep
    · cases hstep
  | lockStats =>
    simp only [apiStep] at hstep
    split at hstep
    · split at hstep
      · rename_i hlock
        cases hstep
        exact h.lockStats hlock
      · cases hstep
    · cases hstep
  | copyStats =>
    simp only [apiStep] at hstep
    split at hstep
    · rename_i hpc
      cases hstep
      exact hsilent rfl (h.copyStats hpc)
    · cases hstep
  | unlockStats =>
    simp only [apiStep] at hstep
    split at hstep
    · rename_i hpc
      cases hstep
      exact hsilent rfl (h.unlockStats hpc)
    · cases hstep
  | free =>
    simp only [apiStep] at hstep
    split at hstep
    · rename_i hpc
      cases hstep
      exact hsilent rfl (h.mainPc (by rw [hpc]; exact nofun) nofun fun _ => rfl)
    · cases hstep
  | join =>
    simp only [apiStep] at hstep
    split at hstep
    · rename_i hpc _
      cases hstep
      exact hsilent rfl (h.mainPc (by rw [hpc]; exact nofun) nofun nofun)
    · cases hstep
  | thread =>
    obtain ⟨t,ht,hs⟩ := Option.map_eq_some_iff.mp hstep
    cases hs
    exact hsilent rfl (h.thread ht)
  | accepted ok =>
    simp only [apiStep] at hstep
    split at hstep
    · rename_i hpc
      cases hstep
      refine hsilent rfl (h.goOn ?_ (by rw [hpc]; exact nofun) fun seen _ _ => ?_)
      · rw [hpc]
        split <;> rfl
      · split <;> trivial
    · cases hstep
  | written result =>
    simp only [apiStep] at hstep
    split at hstep
    · rename_i hpc
      cases hstep
      exact hsilent rfl (h.write hpc _)
    · rename_i hpc
      cases hstep
      exact hsilent rfl (h.failWrite hpc)
    · cases hstep
  | cancelled =>
    simp only [apiStep] at hstep
    split at hstep
    · rename_i hpc
      cases hstep
      exact hsilent rfl (h.goOn (by rw [hpc]; rfl) (by rw [hpc]; exact nofun) fun _ _ _ => trivial)
    · rename_i hpc
      cases hstep
      exact hsilent rfl (h.cancel (Or.inl ⟨_,hpc⟩))
    · rename_i hpc
      cases hstep
      exact hsilent rfl (h.cancel (Or.inr ⟨_,hpc⟩))
    · cases hstep

/-- Behind its start the frontend has statistics of zero. -/
theorem apiInv_started (numThreads : ℕ) (fbs : List Fb) :
    ApiInv ⟨0,0⟩ (started numThreads fbs) [noStats] where
  mainLock := ⟨nofun,nofun⟩
  apiLock := ⟨nofun,nofun⟩
  exit := nofun
  copying := nofun
  copied := fun _ => rfl
  closed := ⟨nofun,nofun⟩
  updates := Nat.zero_lt_one
  answers := ⟨[],Fresh.nil,nofun,List.Forall₂.nil,trivial⟩

/-- A client of the interface was sent the beginning of the answer about statistics
that the main loop has passed on, those of number `j`. If its connection was closed
and nothing has failed, it can read the numbers of these statistics. -/
def Answered (past : List Statistics) (client : Client) (j : ℕ) : Prop :=
  ∃ stats, past[j]?=some stats ∧ client.sent<+:reportText (reportOf stats) ∧
    (client.closed=true → client.failed=false →
      readJson client.sent=some (reportJson (reportOf stats)))

/-- Clients that were served are answered. -/
theorem ServedWith.answered {client : Client} {j : ℕ} (h : ServedWith past client j) :
    Answered past client j := by
  obtain ⟨text,⟨stats,hget,htext⟩,hbegin,hall⟩ := h
  rw [htext] at hbegin hall
  refine ⟨stats,hget,hbegin,fun hclosed hfailed => ?_⟩
  rw [hall hclosed hfailed,readJson_reportText]

/-- The client that is served is answered, with statistics that are no older than
those of the clients before. -/
theorem ApiInv.current (h : ApiInv since s past) (hseen : ∀ k∈seen,k<past.length)
    (hpc : PcInv since past s.front seen s.apiPc) {client : Client} (hclient : s.apiPc.client=some client) :
    ∃ j, Current since seen j ∧ Answered past client j := by
  have hpast : past≠[] := by
    intro hnil
    cases hlock : s.lock with
    | none => exact absurd (h.copied (by rw [hlock]; exact nofun)) (by rw [hnil]; exact nofun)
    | some party =>
      cases party with
      | apiThread => exact absurd (h.copied (by rw [hlock]; decide)) (by rw [hnil]; exact nofun)
      | mainLoop =>
        obtain ⟨todo,htodo⟩ := h.mainLock.mp hlock
        exact absurd (h.copying todo htodo).1 (by rw [hnil]; exact nofun)
  have hnothing : some (⟨[],false,false⟩ : Client)=some client →
      ∃ j, Current since seen j ∧ Answered past client j := by
    intro he
    rw [←Option.some.inj he]
    exact ⟨past.length-1,current_last hseen h.updates,past.getLast hpast,
      by rw [←List.getLast?_eq_getElem?,List.getLast?_eq_some_getLast hpast],List.nil_prefix,nofun⟩
  have hbeginning : ∀ {sent rest : List UInt8} {failed : Bool} {j : ℕ},
      Current since seen j → About past j (sent++rest) → some ⟨sent,failed,false⟩=some client →
      ∃ j, Current since seen j ∧ Answered past client j := by
    intro sent rest failed j hle habout he
    rw [←Option.some.inj he]
    exact ⟨j,hle,ServedWith.answered ⟨sent++rest,habout,List.prefix_append _ _,nofun⟩⟩
  cases hat : s.apiPc with
  | checking | accepting | ended => rw [hat] at hclient; cases hclient
  | locking => exact hnothing (by rwa [hat] at hclient)
  | averaging averages i acc => exact hnothing (by rwa [hat] at hclient)
  | formatting averages => exact hnothing (by rwa [hat] at hclient)
  | unlocking text => exact hnothing (by rwa [hat] at hclient)
  | writing sent rest =>
    rw [hat] at hpc hclient
    obtain ⟨j,hle,habout⟩ := hpc
    exact hbeginning hle habout hclient
  | shutting sent failed =>
    rw [hat] at hpc hclient
    obtain ⟨j,rest,hle,habout,_⟩ := hpc
    exact hbeginning hle habout hclient
  | closing sent failed =>
    rw [hat] at hpc hclient
    obtain ⟨j,rest,hle,habout,_⟩ := hpc
    exact hbeginning hle habout hclient

/-- All clients so far have come before this moment. -/
theorem ApiInv.now (h : ApiInv since s past) :
    ApiInv ⟨s.clients.length,past.length-1⟩ s past := by
  obtain ⟨seen,hfresh,hlt,hserved,hold⟩ := h.answers
  have hlength : s.clients.length=seen.length+s.apiPc.client.toList.length := by
    rw [StatsApi.clients,List.length_append,hserved.length_eq]
  have hpc : PcInv ⟨s.clients.length,past.length-1⟩ past s.front seen s.apiPc := by
    have hserving : s.apiPc.client.toList.length=1 → seen.length < s.clients.length := by omega
    cases hat : s.apiPc with
    | unlocking text =>
      rw [hat] at hold hserving
      obtain ⟨j,hj,habout⟩ := hold
      exact ⟨j,hj.now (hserving rfl),habout⟩
    | writing sent rest =>
      rw [hat] at hold hserving
      obtain ⟨j,hj,habout⟩ := hold
      exact ⟨j,hj.now (hserving rfl),habout⟩
    | shutting sent failed =>
      rw [hat] at hold hserving
      obtain ⟨j,rest,hj,habout⟩ := hold
      exact ⟨j,rest,hj.now (hserving rfl),habout⟩
    | closing sent failed =>
      rw [hat] at hold hserving
      obtain ⟨j,rest,hj,habout⟩ := hold
      exact ⟨j,rest,hj.now (hserving rfl),habout⟩
    | averaging averages i acc => rwa [hat] at hold
    | formatting averages => rwa [hat] at hold
    | _ => trivial
  exact {
    mainLock := h.mainLock
    apiLock := h.apiLock
    exit := h.exit
    copying := h.copying
    copied := h.copied
    closed := h.closed
    updates := Nat.sub_lt ((Nat.zero_le _).trans_lt h.updates) Nat.zero_lt_one
    answers := ⟨seen,hfresh.now (by omega),hlt,hserved,hpc⟩ }

/-- Every run keeps the state of the frontend. -/
theorem apiInv_run {t : StatsApi} {events : List ApiEvent} {replies : List Unit}
    (h : ApiInv since s past) (hrun : run (apiStep build) s events=some (replies,t)) :
    ApiInv since t (past++trace passedOn (apiStep build) s events) :=
  run_trace (fun s past e r s' hinv _ hstep => apiInv_step s past e r s' hinv hstep) h
    (admitted_iff.mpr fun _ _ _ _ _ _ _ => trivial : Admitted (fun _ _ => True) _ _ _) hrun

/-- However the main loop, the thread of the frontend and its clients alternate, every
client is answered with the zeros from the start of the frontend or with statistics
that the main loop has passed on as a whole, and with none that are older than those
of a client before it. A client that comes behind some part of the run is answered
with what was passed on last in that part or with something later. -/
theorem clients_answered (build : Build) (numThreads : ℕ) (fbs : List Fb)
    {before after : List ApiEvent} {u : StatsApi} {replies replies' : List Unit}
    (hbefore : run (apiStep build) (started numThreads fbs) before=some (replies,u))
    (hafter : run (apiStep build) u after=some (replies',s)) :
    ∃ seen : List ℕ, seen.Pairwise (fun j k => j ≤ k) ∧
      List.Forall₂
        (Answered (noStats::trace passedOn (apiStep build) (started numThreads fbs) before++
          trace passedOn (apiStep build) u after)) s.clients seen ∧
      ∀ j∈seen.drop u.clients.length,
        (trace passedOn (apiStep build) (started numThreads fbs) before).length ≤ j := by
  have hnow := (apiInv_run (apiInv_started numThreads fbs) hbefore).now
  have h := apiInv_run hnow hafter
  rw [List.singleton_append,List.length_cons,Nat.add_sub_cancel] at h
  obtain ⟨seen,hfresh,hlt,hserved,hpc⟩ := h.answers
  have hanswered := hserved.imp fun _ _ hwith => hwith.answered
  cases hclient : s.apiPc.client with
  | none =>
    refine ⟨seen,hfresh.sorted,?_,hfresh.late⟩
    rwa [StatsApi.clients,hclient,Option.toList_none,List.append_nil]
  | some client =>
    obtain ⟨j,hcurrent,hlast⟩ := h.current hlt hpc hclient
    have hall := hfresh.concat hcurrent
    refine ⟨seen++[j],hall.sorted,?_,hall.late⟩
    rw [StatsApi.clients,hclient,Option.toList_some]
    exact List.rel_append hanswered (List.Forall₂.cons hlast List.Forall₂.nil)

/-- The server has counted 400 bytes, and the main loop passes its statistics on. -/
def oneUpdate : List ApiEvent :=
  [.traffic (.listen 0),.traffic (.accept 0),.traffic (.receive 0 0 400),.traffic (.update ⟨1,0⟩),
    .lockStats]++(List.replicate 67 .copyStats++[.unlockStats])

/-- Then a client connects, and reads its answer in two pieces. -/
def oneClient : List ApiEvent :=
  [.thread,.accepted true]++(List.replicate 67 .thread++
    ([.written (.ok 100),.written (.ok 31)]++List.replicate 3 .thread))

/-- It is answered with the numbers of this update. -/
theorem clients_answered_one :
    ∃ replies u replies' s seen,
      run (apiStep (plainEnv 4 4).build) (started 1 []) oneUpdate=some (replies,u) ∧
      run (apiStep (plainEnv 4 4).build) u oneClient=some (replies',s) ∧
      s.clients=[⟨reportText ⟨400,22,20,1,1,0⟩,false,true⟩] ∧
      List.Forall₂ (Answered (noStats::trace passedOn (apiStep (plainEnv 4 4).build) (started 1 [])
        oneUpdate++trace passedOn (apiStep (plainEnv 4 4).build) u oneClient)) s.clients seen ∧
      ∀ j∈seen,1 ≤ j := by
  have hall : (run (apiStep (plainEnv 4 4).build) (started 1 []) oneUpdate).map
      (fun out => (out.2.clients,(trace passedOn (apiStep (plainEnv 4 4).build) (started 1 [])
        oneUpdate).length))=some ([],1) ∧
      ((run (apiStep (plainEnv 4 4).build) (started 1 []) oneUpdate).bind fun out =>
        run (apiStep (plainEnv 4 4).build) out.2 oneClient).map (fun out => out.2.clients)=
        some [⟨reportText ⟨400,22,20,1,1,0⟩,false,true⟩] := by
    decide +kernel
  obtain ⟨hfirst,hsecond⟩ := hall
  obtain ⟨⟨replies,u⟩,hbefore,hu⟩ := Option.map_eq_some_iff.mp hfirst
  rw [hbefore,Option.bind_some] at hsecond
  obtain ⟨⟨replies',s⟩,hafter,hs⟩ := Option.map_eq_some_iff.mp hsecond
  obtain ⟨seen,_,hanswered,hfresh⟩ := clients_answered _ 1 [] hbefore hafter
  rw [Prod.mk.injEq] at hu
  rw [hu.1,hu.2,List.length_nil,List.drop_zero] at hfresh
  exact ⟨replies,u,replies',s,seen,hbefore,hafter,hs,hanswered,hfresh⟩

/-- How many steps the thread has before it ends, once it is cancelled. -/
def stepsLeft : ApiPc → ℕ
  | .ended => 0
  | .checking | .accepting | .closing _ _ => 1
  | .shutting _ _ => 2
  | .writing _ _ => 3
  | .unlocking _ => 4
  | .formatting _ => 5
  | .averaging averages i _ =>
    6+(3-averages.length)*(statisticsNumAverages+2)+(statisticsNumAverages-i)
  | .locking => 6+4*(statisticsNumAverages+2)

/-- A step of `GET_AVERAGE` comes closer to the end. -/
theorem stepsLeft_averageStep (front : Statistics) (averages : List UInt64) (i : ℕ) (acc : UInt64) :
    stepsLeft (averageStep front averages i acc) < stepsLeft (.averaging averages i acc) := by
  rw [averageStep]
  cases hfield : (averaged front)[averages.length]? with
  | none =>
    dsimp only [stepsLeft]
    omega
  | some field =>
    have hlt : averages.length<3 := (List.getElem?_eq_some_iff.mp hfield).choose
    dsimp only
    split
    · dsimp only [stepsLeft]
      omega
    · have hsucc : 3-averages.length=3-(averages.length+1)+1 := by omega
      dsimp only [stepsLeft]
      rw [List.length_append,List.length_singleton,hsucc,Nat.add_mul,Nat.one_mul]
      omega

/-- A thread that the main loop waits for has a step that nobody else has to take
part in, until it has ended. -/
theorem ApiInv.progress (h : ApiInv since s past) (hjoining : s.mainPc=.joining) (hended : s.apiPc≠.ended) :
    ∃ e s', (e=.thread ∨ e=.cancelled) ∧ apiStep build s e=some ((),s') ∧ s'.mainPc=.joining ∧
      stepsLeft s'.apiPc < stepsLeft s.apiPc := by
  have hthread : ∀ {t : StatsApi}, threadStep s=some t → t.mainPc=.joining →
      stepsLeft t.apiPc < stepsLeft s.apiPc → ∃ e s', (e=.thread ∨ e=.cancelled) ∧
        apiStep build s e=some ((),s') ∧ s'.mainPc=.joining ∧
        stepsLeft s'.apiPc < stepsLeft s.apiPc := by
    intro t ht hmain hlt
    refine ⟨.thread,t,Or.inl rfl,?_,hmain,hlt⟩
    rw [apiStep,ht,Option.map_some]
  have hfirst : stepsLeft (.averaging [] 0 0) < stepsLeft .locking := by decide
  cases hpc : s.apiPc with
  | checking =>
    refine hpc▸hthread (t := {s with apiPc := .ended}) ?_ hjoining
      (by rw [hpc]; exact Nat.zero_lt_succ _)
    rw [threadStep,hpc,h.exit hjoining]
    rfl
  | accepting =>
    refine ⟨.cancelled,{s with apiPc := .ended},Or.inr rfl,?_,hjoining,Nat.zero_lt_succ _⟩
    simp only [apiStep,hjoining,hpc]
  | locking =>
    have hfree : s.lock=none := by
      cases hlock : s.lock with
      | none => rfl
      | some party =>
        cases party with
        | mainLoop =>
          obtain ⟨todo,htodo⟩ := h.mainLock.mp hlock
          rw [hjoining] at htodo
          cases htodo
        | apiThread =>
          have hlocked := h.apiLock.mp hlock
          rw [hpc] at hlocked
          cases hlocked
    refine hpc▸hthread (t := {s with lock := some .apiThread, apiPc := .averaging [] 0 0}) ?_
      hjoining (by rw [hpc]; exact hfirst)
    rw [threadStep,hpc]
    exact if_pos hfree
  | averaging averages i acc =>
    refine hpc▸hthread (t := {s with apiPc := averageStep s.front averages i acc}) ?_ hjoining
      (by rw [hpc]; exact stepsLeft_averageStep s.front averages i acc)
    rw [threadStep,hpc]
  | formatting averages =>
    obtain ⟨seen,_,_,_,hold⟩ := h.answers
    rw [hpc] at hold
    have haverages : averages=(averaged s.front).map getAverage := hold
    refine hpc▸hthread (t := {s with apiPc := .unlocking (reportText (reportOf s.front))}) ?_ hjoining
      (by rw [hpc]; exact Nat.lt_succ_self _)
    rw [threadStep,hpc,haverages]
    exact congrArg (Option.map _) (answer_eq (reportOf s.front))
  | unlocking text =>
    refine hpc▸hthread (t := {s with lock := none, apiPc := .writing [] text}) ?_ hjoining
      (by rw [hpc]; exact Nat.lt_succ_self _)
    rw [threadStep,hpc]
  | writing sent rest =>
    cases rest with
    | nil =>
      refine hpc▸hthread (t := {s with apiPc := .shutting sent false}) ?_ hjoining
        (by rw [hpc]; exact Nat.lt_succ_self _)
      rw [threadStep,hpc]
    | cons c rest =>
      refine ⟨.cancelled,{s with apiPc := .ended, served := s.served++[⟨sent,true,false⟩]},
        Or.inr rfl,?_,hjoining,Nat.zero_lt_succ _⟩
      simp only [apiStep,hjoining,hpc]
  | shutting sent failed =>
    refine hpc▸hthread (t := {s with apiPc := .closing sent failed}) ?_ hjoining
      (by rw [hpc]; exact Nat.lt_succ_self _)
    rw [threadStep,hpc]
  | closing sent failed =>
    refine ⟨.cancelled,{s with apiPc := .ended, served := s.served++[⟨sent,true,false⟩]},
      Or.inr rfl,?_,hjoining,Nat.zero_lt_succ _⟩
    simp only [apiStep,hjoining,hpc]
  | ended => exact absurd hpc hended

/-- `statistics_frontend_free` returns, whatever the thread is at and without any
client doing anything: the thread has ended then, the lock is free, and all
connections are closed except for the one that was served last, at most. -/
theorem free_returns (build : Build) (numThreads : ℕ) (fbs : List Fb) {events : List ApiEvent}
    {replies : List Unit}
    (hrun : run (apiStep build) (started numThreads fbs) events=some (replies,s))
    (hjoining : s.mainPc=.joining) :
    ∃ events' replies' t, (∀ e∈events',e=.thread ∨ e=.cancelled) ∧
      run (apiStep build) s (events'++[.join])=some (replies',t) ∧ t.mainPc=.freed ∧
      t.apiPc=.ended ∧ t.lock=none ∧ ∀ client∈t.clients.dropLast,client.closed=true := by
  have h := apiInv_run (apiInv_started numThreads fbs) hrun
  obtain ⟨events',replies',t,hown,hcompletes,⟨⟨past,hinv⟩,hwaits⟩,hended⟩ :=
    @exists_completing _ _ _ (fun _ e => e=ApiEvent.thread ∨ e=.cancelled) (apiStep build)
      (fun s => (∃ past, ApiInv ⟨0,0⟩ s past) ∧ s.mainPc=.joining) (fun s => s.apiPc=.ended)
      (fun s => stepsLeft s.apiPc) (fun s hs hnot => by
        obtain ⟨⟨past,hinv⟩,hwaits⟩ := hs
        obtain ⟨e,s',he,hstep,hwaits',hlt⟩ := hinv.progress hwaits hnot
        exact ⟨e,(),s',he,hstep,⟨⟨_,apiInv_step s past e () s' hinv hstep⟩,hwaits'⟩,hlt⟩)
      s ⟨⟨_,h⟩,hjoining⟩
  have hjoin : apiStep build t .join=some ((),{t with mainPc := .freed}) := by
    simp only [apiStep,hwaits,hended]
  refine ⟨events',replies'++[()],{t with mainPc := .freed},?_,?_,rfl,hended,?_,?_⟩
  · intro e he
    obtain ⟨before,after,hsplit⟩ := List.append_of_mem he
    rw [hsplit] at hown
    obtain ⟨_,u,_,hbefore,_⟩ := run_append_split (hsplit▸hcompletes)
    exact (hown.append_right hbefore).1
  · rw [run_append hcompletes,run_cons [] hjoin]
    rfl
  · dsimp only
    cases hlock : t.lock with
    | none => rfl
    | some party =>
      cases party with
      | mainLoop =>
        obtain ⟨todo,htodo⟩ := hinv.mainLock.mp hlock
        rw [hwaits] at htodo
        cases htodo
      | apiThread =>
        have hlocked := hinv.apiLock.mp hlock
        rw [hended] at hlocked
        cases hlocked
  · have hclients : ({t with mainPc := .freed} : StatsApi).clients=t.served := by
      rw [StatsApi.clients,hended]
      exact List.append_nil _
    rw [hclients]
    exact hinv.closed.1

/-- A client is served when the frontend is freed. -/
theorem free_returns_serving :
    ∃ replies s, run (apiStep (plainEnv 4 4).build) (started 1 []) [.thread,.accepted true,.free]=
        some (replies,s) ∧
      ∃ events' replies' t, run (apiStep (plainEnv 4 4).build) s (events'++[.join])=
        some (replies',t) ∧ t.mainPc=.freed := by
  obtain ⟨replies,s,hrun,hjoining⟩ : ∃ replies s, run (apiStep (plainEnv 4 4).build) (started 1 [])
      [.thread,.accepted true,.free]=some (replies,s) ∧ s.mainPc=.joining := ⟨_,_,rfl,rfl⟩
  obtain ⟨events',replies',t,_,hfreed,hmain,_⟩ := free_returns _ 1 [] hrun hjoining
  exact ⟨replies,s,hrun,events',replies',t,hfreed,hmain⟩

end Shoreline.ApiThread
