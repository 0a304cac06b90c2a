import Shoreline.Library.SlidingWindow
import Shoreline.Units

/-!
# Averages of the statistics

Every update stores the rates of bytes, pixels and frames since the update
before in the next cell of a window, and the averages that are shown are those of
the whole window. In any run they are the means of the last updates.
-/

namespace Shoreline.RecentRates

open Framebuffer NetConnection StateMachine Traffic Shoreline.Units SlidingWindow

/-- What an update finds. -/
structure Sample where
  /-- Bytes that were received so far and not lost. -/
  bytes : ℕ
  /-- Pixels that the framebuffers have counted since the update before. -/
  counted : UInt64
  /-- Frames so far. -/
  frames : UInt64
  /-- The time. -/
  time : Timespec

/-- Before the first update. -/
def noSample : Sample := ⟨0,0,0,⟨0,0⟩⟩

/-- An update is observed with what it finds. -/
def sampleOf (s : NetTraffic) : TrafficEvent → List Sample
  | .update now => [⟨s.received-s.lost,
      (s.fbs.map Fb.pixelCount).foldl (fun acc n => acc+n.toUInt64) 0,s.stats.numFrames,now⟩]
  | _ => []

/-- The nanoseconds from one sample to another, as the rates are divided by. -/
def elapsed (before after : Sample) : UInt64 := UInt64.ofInt (getTimespecDiff after.time before.time)

/-- Bytes per second from one sample to another. -/
def byteRate (before after : Sample) : UInt64 :=
  (UInt64.ofNat after.bytes-UInt64.ofNat before.bytes)*1000000000/elapsed before after

/-- Pixels per second: those that were counted, or a pixel for every 18 bytes. -/
def pixelRate (build : Build) (before after : Sample) : UInt64 :=
  if build.featurePixelCount then after.counted*1000000000/elapsed before after
  else byteRate before after/18

/-- Frames per second. -/
def frameRate (before after : Sample) : UInt64 :=
  (after.frames-before.frames)*1000000000/elapsed before after

/-- The rates from each sample to the next one. -/
def ratesOf (rate : Sample → Sample → UInt64) (samples : List Sample) : List UInt64 :=
  List.zipWith rate (noSample::samples) samples

/-- One more sample adds the rate since the last one. -/
theorem ratesOf_concat (rate : Sample → Sample → UInt64) (samples : List Sample) (last : Sample) :
    ratesOf rate (samples++[last])=
      ratesOf rate samples++[rate (samples.getLastD noSample) last] := by
  unfold ratesOf
  generalize noSample=first
  induction samples generalizing first with
  | nil => rfl
  | cons next samples ih =>
    rw [List.cons_append,List.zipWith_cons_cons,List.zipWith_cons_cons,ih,List.cons_append,
      List.getLastD_cons]

variable {build : Build} {s s' : NetTraffic}

/-- The windows hold the last rates of the updates so far, and the totals are those
of the last one. -/
structure Recent (build : Build) (s : NetTraffic) (samples : List Sample) : Prop where
  accounted : Accounted s
  bytes : s.stats.numBytes=UInt64.ofNat (samples.getLastD noSample).bytes
  frames : s.stats.lastNumFrames=(samples.getLastD noSample).frames
  time : s.stats.lastUpdate=(samples.getLastD noSample).time
  byteRates : fromOldest s.stats.bytesPerSecond s.stats.averageIndex=
    lastOf statisticsNumAverages 0 (ratesOf byteRate samples)
  pixelRates : fromOldest s.stats.pixelsPerSecond s.stats.averageIndex=
    lastOf statisticsNumAverages 0 (ratesOf (pixelRate build) samples)
  frameRates : fromOldest s.stats.framesPerSecond s.stats.averageIndex=
    lastOf statisticsNumAverages 0 (ratesOf frameRate samples)

/-- A rate that does not divide by zero. -/
theorem perSecond_eq_some {count rate : UInt64} {diff : ℤ} (h : perSecond count diff=some rate) :
    rate=count*1000000000/UInt64.ofInt diff := by
  unfold perSecond at h
  split at h
  · cases h
  · exact (Option.some.inj h).symm

/-- The rates that an update stores, and the totals that it leaves. -/
theorem statisticsUpdate_rates {stats : Statistics} {threads : List NetThread} {fbs : List Fb}
    {now : Timespec} {out : Statistics×List NetThread×List Fb}
    (h : statisticsUpdate build stats threads fbs now=some out) :
    ∃ bytes pixels frames,
      out.1.averageIndex=stats.averageIndex+1 ∧
      out.1.bytesPerSecond=Function.update stats.bytesPerSecond stats.averageIndex bytes ∧
      out.1.pixelsPerSecond=Function.update stats.pixelsPerSecond stats.averageIndex pixels ∧
      out.1.framesPerSecond=Function.update stats.framesPerSecond stats.averageIndex frames ∧
      out.1.lastNumFrames=stats.numFrames ∧ out.1.lastUpdate=now ∧
      bytes=(out.1.numBytes-stats.numBytes)*1000000000/
        UInt64.ofInt (getTimespecDiff now stats.lastUpdate) ∧
      pixels=(if build.featurePixelCount then
          (fbs.map Fb.pixelCount).foldl (fun acc n => acc+n.toUInt64) 0*1000000000/
            UInt64.ofInt (getTimespecDiff now stats.lastUpdate)
        else bytes/18) ∧
      frames=(stats.numFrames-stats.lastNumFrames)*1000000000/
        UInt64.ofInt (getTimespecDiff now stats.lastUpdate) := by
  unfold statisticsUpdate at h
  dsimp only at h
  rw [Option.bind_eq_some_iff] at h
  obtain ⟨bytes,hbytes,h⟩ := h
  rw [Option.bind_eq_some_iff] at h
  obtain ⟨pixels,hpixels,h⟩ := h
  rw [Option.map_eq_some_iff] at h
  obtain ⟨frames,hframes,rfl⟩ := h
  refine ⟨bytes,pixels,frames,rfl,rfl,rfl,rfl,rfl,rfl,perSecond_eq_some hbytes,?_,
    perSecond_eq_some hframes⟩
  split at hpixels
  · rename_i hcount
    rw [if_pos hcount]
    exact perSecond_eq_some hpixels
  · rename_i hcount
    rw [if_neg hcount]
    exact (Option.some.inj hpixels).symm

/-- An update stores the rates since the last sample. -/
theorem Recent.update {samples : List Sample} (h : Recent build s samples) {now : Timespec}
    {out : Statistics×List NetThread×List Fb}
    (hupdate : statisticsUpdate build s.stats s.threads s.fbs now=some out)
    (haccounted : Accounted {s with stats := out.1, threads := out.2.1, fbs := out.2.2}) :
    Recent build {s with stats := out.1, threads := out.2.1, fbs := out.2.2}
      (samples++sampleOf s (.update now)) := by
  obtain ⟨bytes,pixels,frames,hindex,hbyteCells,hpixelCells,hframeCells,hlast,htime,hbytes,hpixels,
    hframes⟩ := statisticsUpdate_rates hupdate
  obtain ⟨sample,hsample⟩ : ∃ sample, sampleOf s (.update now)=[sample] := ⟨_,rfl⟩
  have hfields := List.singleton_inj.mp hsample
  have htotal : out.1.numBytes=UInt64.ofNat sample.bytes := by
    obtain ⟨collected,hcollected,hreceived⟩ := haccounted
    have hthreads := (statisticsUpdate_collects hupdate).2
    dsimp only at hcollected hreceived
    rw [hthreads,pending_reset] at hreceived
    rw [hcollected,←hfields]
    dsimp only
    rw [show s.received-s.lost=collected by omega]
  have hfound : sample.frames=s.stats.numFrames ∧ sample.time=now ∧
      sample.counted=(s.fbs.map Fb.pixelCount).foldl (fun acc n => acc+n.toUInt64) 0 := by
    rw [←hfields]
    exact ⟨rfl,rfl,rfl⟩
  have helapsed : UInt64.ofInt (getTimespecDiff now s.stats.lastUpdate)=
      elapsed (samples.getLastD noSample) sample := by
    rw [elapsed,hfound.2.1,h.time]
  have hbyteRate : bytes=byteRate (samples.getLastD noSample) sample := by
    rw [hbytes,htotal,h.bytes,helapsed,byteRate]
  rw [hsample]
  constructor
  · exact haccounted
  · rw [List.getLastD_concat,htotal]
  · rw [List.getLastD_concat,hlast,hfound.1]
  · rw [List.getLastD_concat,htime,hfound.2.1]
  · rw [hindex,hbyteCells,ratesOf_concat,hbyteRate]
    exact push h.byteRates rfl _
  · have hpixelRate : pixels=pixelRate build (samples.getLastD noSample) sample := by
      rw [hpixels,pixelRate,helapsed,hbyteRate,hfound.2.2]
    rw [hindex,hpixelCells,ratesOf_concat,hpixelRate]
    exact push h.pixelRates rfl _
  · have hframeRate : frames=frameRate (samples.getLastD noSample) sample := by
      rw [hframes,frameRate,helapsed,hfound.1,h.frames]
    rw [hindex,hframeCells,ratesOf_concat,hframeRate]
    exact push h.frameRates rfl _

/-- Anything but an update leaves the windows and the totals alone. -/
theorem Recent.of_stats {samples : List Sample} (h : Recent build s samples)
    (haccounted : Accounted s') (hstats : ∃ frames, s'.stats={s.stats with numFrames := frames}) :
    Recent build s' samples := by
  obtain ⟨frames,hstats⟩ := hstats
  constructor
  · exact haccounted
  all_goals rw [hstats]
  · exact h.bytes
  · exact h.frames
  · exact h.time
  · exact h.byteRates
  · exact h.pixelRates
  · exact h.frameRates

/-- Every step keeps the windows. -/
theorem recent_step (s : NetTraffic) (samples : List Sample) (e : TrafficEvent) (reply : Unit)
    (s' : NetTraffic) (h : Recent build s samples) (hpossible : Possible s e)
    (hstep : trafficStep build s e=some (reply,s')) : Recent build s' (samples++sampleOf s e) := by
  have haccounted := (accounted_step h.accounted hpossible hstep).1
  have hother : sampleOf s e=[] → (∃ frames, s'.stats={s.stats with numFrames := frames}) →
      Recent build s' (samples++sampleOf s e) := by
    intro hnil hstats
    rw [hnil,List.append_nil]
    exact h.of_stats haccounted hstats
  cases e with
  | listen k =>
    simp only [trafficStep] at hstep
    split at hstep
    · cases hstep
      exact hother rfl ⟨_,rfl⟩
    · cases hstep
  | accept k =>
    obtain ⟨connections,_,hs⟩ := Option.map_eq_some_iff.mp hstep
    cases hs
    exact hother rfl ⟨_,rfl⟩
  | receive k i n =>
    obtain ⟨conn,_,hs⟩ := Option.map_eq_some_iff.mp hstep
    cases hs
    exact hother rfl ⟨_,rfl⟩
  | close k i =>
    obtain ⟨conn,_,hs⟩ := Option.map_eq_some_iff.mp hstep
    cases hs
    exact hother rfl ⟨_,rfl⟩
  | draw k =>
    obtain ⟨fb,_,hs⟩ := Option.map_eq_some_iff.mp hstep
    cases hs
    exact hother rfl ⟨_,rfl⟩
  | frame =>
    cases hstep
    exact hother rfl ⟨_,rfl⟩
  | update now =>
    obtain ⟨out,hupdate,hs⟩ := Option.map_eq_some_iff.mp hstep
    cases hs
    exact h.update hupdate haccounted

/-- At the start of the server there are no updates. -/
theorem recent_quiet (build : Build) (numThreads : ℕ) (fbs : List Fb) :
    Recent build (quiet numThreads fbs) [] := by
  constructor
  · refine ⟨0,rfl,?_⟩
    simp [quiet,pending,NetThread.connections,counted]
  · rfl
  · rfl
  · rfl
  all_goals
    rw [show ∀ rate, ratesOf rate []=[] from fun _ => rfl,lastOf_nil]
    exact fromOldest_const 0 0

/-- The mean of the last values of a history: their sum in 64 bits, divided by
the size of the window. -/
def meanOf (rates : List UInt64) : ℕ :=
  ((lastOf statisticsNumAverages 0 rates).map UInt64.toNat).sum%18446744073709551616/
    statisticsNumAverages

/-- The average over a window is the mean of what it holds. -/
theorem getAverage_eq {field : Fin statisticsNumAverages → UInt64} {next : Fin statisticsNumAverages}
    {rates : List UInt64} (h : fromOldest field next=lastOf statisticsNumAverages 0 rates) :
    (getAverage field).toNat=meanOf rates := by
  have hfold : ∀ (l : List UInt64) (acc : UInt64),
      (l.foldl (fun acc x => acc+x) acc).toNat=(acc.toNat+(l.map UInt64.toNat).sum)%18446744073709551616 := by
    intro l
    induction l with
    | nil =>
      intro acc
      exact (Nat.mod_eq_of_lt acc.toNat_lt).symm
    | cons x l ih =>
      intro acc
      rw [List.foldl_cons,ih,UInt64.toNat_add,List.map_cons,List.sum_cons,Nat.mod_add_mod,Nat.add_assoc]
  have : RightCommutative fun acc x : UInt64 => acc+x :=
    ⟨fun a b c => by rw [UInt64.add_assoc,UInt64.add_comm b,UInt64.add_assoc]⟩
  rw [getAverage,foldl_cells field next,UInt64.toNat_div,h,hfold,meanOf,UInt64.toNat_zero,Nat.zero_add]
  rfl

/-- 400 bytes in the first second, and 600 in the next two. -/
def twoUpdates : List TrafficEvent :=
  [.listen 0,.accept 0,.receive 0 0 400,.update ⟨1,0⟩,.receive 0 0 600,.update ⟨3,0⟩]

end Shoreline.RecentRates
