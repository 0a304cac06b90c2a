import Shoreline.ServerRun
import Shoreline.Traffic

/-!
# Counting pixels

A framebuffer counts the sets that it takes, and `statistics_update` moves
these counts into the total. `fb_alloc` does not set the counter of a new
framebuffer, so what `malloc` left there is counted as well.
-/

namespace Shoreline.PixelCount

open Framebuffer NetConnection CommandScan StateMachine ServerRun Traffic

/-- The framebuffers of the nodes and the statistics. -/
structure PixelCounts where
  /-- `net->fb_list`. -/
  fbs : List Fb
  /-- `stats`. -/
  stats : Statistics
  /-- History: sets inside the surface. -/
  sets : ℕ
  /-- History: those since the last update, for each framebuffer. -/
  recent : ℕ → ℕ

/-- One step: a connection thread without a framebuffer on its node allocates
one, a command is executed, or the statistics are updated. -/
inductive PixelEvent where
  | alloc (node : Option UInt32) (block : Option (ℕ → FbPixel)) (numaNode : ℕ) (size : FbSize)
  | command (netFb : Fb) (socket : Socket) (session : Session) (k : ℕ) (c : Command)
  | update (threads : List NetThread) (now : Timespec)

/-- One step; `none` where there is no such framebuffer, at a failed assertion
and at a division by zero. A command is executed with the offset of its
connection. -/
def pixelStep (build : Build) : Step PixelEvent Unit PixelCounts
  | s,.alloc node block numaNode size =>
    match fbAlloc build.host node block numaNode size with
    | .error _ => some ((),s)
    | .ok fb => some ((),{s with fbs := s.fbs++[fb]})
  | s,.command netFb socket session k c =>
    match s.fbs[k]? with
    | none => none
    | some fb =>
      let entered : Session := {session with fb := fb}
      let out := exec ⟨build,netFb,socket⟩ entered c
      let drawn := (drawnBy entered c).length
      match out.1 with
      | .aborted _ => none
      | _ => some ((),{s with
          fbs := s.fbs.set k out.2.fb
          sets := s.sets+drawn
          recent := Function.update s.recent k (s.recent k+drawn)})
  | s,.update threads now =>
    (statisticsUpdate build s.stats threads s.fbs now).map fun out =>
      ((),{s with stats := out.1, fbs := out.2.2, recent := fun _ => 0})

/-- Between two updates a framebuffer takes fewer than 2^32 sets. -/
def FewSets (s : PixelCounts) : PixelEvent → Prop
  | .command _ _ session k c => ∀ fb∈s.fbs[k]?,
    s.recent k+(drawnBy {session with fb := fb} c).length<4294967296
  | _ => True

instance (s : PixelCounts) : ∀ e, Decidable (FewSets s e)
  | .command _ _ session k c => inferInstanceAs (Decidable (∀ fb∈s.fbs[k]?,
      s.recent k+(drawnBy {session with fb := fb} c).length<4294967296))
  | .alloc _ _ _ _ | .update _ _ => isTrue trivial

/-- What `malloc` leaves in the counter of a framebuffer that gets its pixels,
and so joins the list, is zero. -/
def CleanCounter : PixelEvent → Prop
  | .alloc node block _ _ => ∀ garbage∈node,block.isSome → garbage=0
  | _ => True

instance : ∀ e, Decidable (CleanCounter e)
  | .alloc none _ _ _ => isTrue fun _ h => (by cases h)
  | .alloc (some garbage) block _ _ => decidable_of_iff (block.isSome → garbage=0)
      ⟨fun h _ hg => Option.some.inj hg ▸ h,fun h => h garbage rfl⟩
  | .command _ _ _ _ _ | .update _ _ => isTrue trivial

/-- The server before the first connection. -/
def uncounted : PixelCounts :=
  ⟨[],⟨0,0,0,⟨0,by decide⟩,fun _ => 0,fun _ => 0,fun _ => 0,0,0,⟨0,0⟩⟩,0,fun _ => 0⟩

/-- Sets that the framebuffers have counted and no update has collected. -/
def waiting (fbs : List Fb) : ℕ := (fbs.map fun fb => fb.pixelCount.toNat).sum

/-- Every set was collected or is counted by its framebuffer, whose counter
has not wrapped around. -/
structure Counted (s : PixelCounts) : Prop where
  /-- The total, and what is still to be collected. -/
  total : ∃ collected, s.stats.numPixels=UInt64.ofNat collected ∧ s.sets=collected+waiting s.fbs
  /-- Every counter. -/
  counter : ∀ k fb, s.fbs[k]?=some fb → fb.pixelCount.toNat=s.recent k
  /-- There are no sets on framebuffers to come. -/
  future : ∀ k, s.fbs.length ≤ k → s.recent k=0

variable {build : Build} {s s' : PixelCounts}

/-- A set that draws is counted. -/
theorem netDraw_pixelCount (env : NetEnv) (hstat : env.build.featureStatistics=true)
    (hcount : env.build.featurePixelCount=true) {x y : UInt32} (pixel : FbPixel)
    {session : Session} (hin : session.fb.size.Contains x y) :
    (netDraw env x y pixel session).2.fb.pixelCount=session.fb.pixelCount+1 := by
  rw [Coordinates.netDraw_eq env pixel session hin]
  dsimp only
  rw [netCountPixel,hstat,hcount]
  rfl

/-- A command changes the counter by the set that it is. -/
theorem exec_pixelCount (env : NetEnv) (hstat : env.build.featureStatistics=true)
    (hcount : env.build.featurePixelCount=true) (session : Session) (c : Command) :
    (exec env session c).2.fb.pixelCount=
      session.fb.pixelCount+UInt32.ofNat (drawnBy session c).length := by
  cases c with
  | unknown => exact (UInt32.add_zero _).symm
  | get x y =>
    dsimp only [exec]
    rw [netGetPixel_fb]
    exact (UInt32.add_zero _).symm
  | set x y digits =>
    dsimp only [exec,drawnBy]
    by_cases hin : session.fb.size.Contains (x+session.offsetX) (y+session.offsetY)
    · rw [netDraw_pixelCount env hstat hcount _ hin,if_pos hin]
      rfl
    · rw [Coordinates.netDraw_outside env _ hin,if_neg hin]
      exact (UInt32.add_zero _).symm
  | size =>
    dsimp only [exec]
    split <;> exact (UInt32.add_zero _).symm
  | offset x y => exact (UInt32.add_zero _).symm

/-- The counters are added up. -/
theorem foldl_pixelCount (counts : List UInt32) (acc : UInt64) :
    counts.foldl (fun acc n => acc+n.toUInt64) acc=
      acc+UInt64.ofNat (counts.map UInt32.toNat).sum := by
  induction counts generalizing acc with
  | nil => simp
  | cons n counts ih =>
    have hn : n.toUInt64=UInt64.ofNat n.toNat := by simp
    rw [List.foldl_cons,ih,List.map_cons,List.sum_cons,UInt64.ofNat_add,hn,UInt64.add_assoc]

/-- An update collects all counters and sets them to zero. -/
theorem statisticsUpdate_pixels (hcount : build.featurePixelCount=true) {stats : Statistics}
    {threads : List NetThread} {fbs : List Fb} {now : Timespec}
    {out : Statistics×List NetThread×List Fb}
    (h : statisticsUpdate build stats threads fbs now=some out) :
    out.1.numPixels=stats.numPixels+UInt64.ofNat (waiting fbs) ∧
      out.2.2=fbs.map fun fb => {fb with pixelCount := 0} := by
  obtain ⟨-,hpixels,-,hfbs⟩ := statisticsUpdate_out h
  rw [hcount,if_pos rfl] at hpixels hfbs
  refine ⟨?_,hfbs⟩
  rw [hpixels,foldl_pixelCount,UInt64.zero_add,waiting,List.map_map]
  rfl

/-- Behind an update nothing waits. -/
theorem waiting_reset (fbs : List Fb) : waiting (fbs.map fun fb => {fb with pixelCount := 0})=0 := by
  refine List.sum_eq_zero fun n hn => ?_
  obtain ⟨fb,hfb,rfl⟩ := List.mem_map.mp hn
  obtain ⟨old,-,rfl⟩ := List.mem_map.mp hfb
  rfl

/-- The counter of a new framebuffer, which has got its pixels, is what `malloc`
left there. -/
theorem fbAlloc_pixelCount {host : Host} {node : Option UInt32}
    {block : Option (ℕ → FbPixel)} {numaNode : ℕ} {size : FbSize} {fb : Fb}
    (h : fbAlloc host node block numaNode size=.ok fb) :
    node=some fb.pixelCount ∧ block.isSome := by
  cases node with
  | none => cases h
  | some garbage =>
    cases block with
    | none => cases h
    | some heap =>
      injection h with h
      rw [←h]
      exact ⟨rfl,rfl⟩

/-- A framebuffer with a clean counter joins the list. -/
theorem Counted.alloc (h : Counted s) {fb : Fb} (hclean : fb.pixelCount=0) :
    Counted {s with fbs := s.fbs++[fb]} := by
  obtain ⟨collected,hpixels,hsets⟩ := h.total
  refine ⟨⟨collected,hpixels,?_⟩,fun k other hget => ?_,fun k hk => ?_⟩
  · dsimp only
    rw [hsets,waiting,waiting,List.map_append,List.sum_append]
    simp [hclean]
  · dsimp only at hget
    by_cases hk : k<s.fbs.length
    · rw [List.getElem?_append_left hk] at hget
      exact h.counter k other hget
    · obtain ⟨hlt,heq⟩ := List.getElem?_eq_some_iff.mp hget
      rw [List.length_append,List.length_singleton] at hlt
      have hlast : k=s.fbs.length := by omega
      rw [hlast,List.getElem?_concat_length] at hget
      rw [←Option.some.inj hget,hclean,h.future k (by omega)]
      rfl
  · dsimp only at hk
    rw [List.length_append] at hk
    exact h.future k (by omega)

/-- A framebuffer takes so many sets. -/
theorem Counted.draw (h : Counted s) {k n : ℕ} {fb fb' : Fb} (hget : s.fbs[k]?=some fb)
    (hcount : fb'.pixelCount=fb.pixelCount+UInt32.ofNat n) (hfew : s.recent k+n<4294967296) :
    Counted {s with
      fbs := s.fbs.set k fb'
      sets := s.sets+n
      recent := Function.update s.recent k (s.recent k+n)} := by
  obtain ⟨collected,hpixels,hsets⟩ := h.total
  have hold := h.counter k fb hget
  have hnew : fb'.pixelCount.toNat=fb.pixelCount.toNat+n := by
    rw [hcount,UInt32.toNat_add,UInt32.toNat_ofNat',Nat.add_mod_mod,Nat.mod_eq_of_lt]
    omega
  have hsum := @sum_map_set _ (fun fb => fb.pixelCount.toNat) _ _ _ hget fb'
  refine ⟨⟨collected,hpixels,?_⟩,fun i other hother => ?_,fun i hi => ?_⟩
  · dsimp only
    rw [waiting] at hsets ⊢
    omega
  · dsimp only at hother ⊢
    by_cases hik : i=k
    · rw [hik] at hother ⊢
      rw [Function.update_self,←hold,←hnew]
      rw [List.getElem?_set_self (List.getElem?_eq_some_iff.mp hget).1] at hother
      rw [Option.some.inj hother]
    · rw [Function.update_of_ne hik]
      rw [List.getElem?_set_ne (Ne.symm hik)] at hother
      exact h.counter i other hother
  · dsimp only at hi ⊢
    rw [List.length_set] at hi
    have hlt := (List.getElem?_eq_some_iff.mp hget).1
    rw [Function.update_of_ne (by omega)]
    exact h.future i hi

/-- An update collects everything. -/
theorem Counted.update (hcount : build.featurePixelCount=true) (h : Counted s)
    {threads : List NetThread} {now : Timespec} {out : Statistics×List NetThread×List Fb}
    (hupdate : statisticsUpdate build s.stats threads s.fbs now=some out) :
    Counted {s with stats := out.1, fbs := out.2.2, recent := fun _ => 0} := by
  obtain ⟨collected,hpixels,hsets⟩ := h.total
  obtain ⟨hcollects,hfbs⟩ := statisticsUpdate_pixels hcount hupdate
  refine ⟨⟨collected+waiting s.fbs,?_,?_⟩,fun k fb hget => ?_,fun _ _ => rfl⟩
  · dsimp only
    rw [hcollects,hpixels,UInt64.ofNat_add]
  · dsimp only
    rw [hfbs,waiting_reset,hsets]
    rfl
  · dsimp only at hget
    rw [hfbs,List.getElem?_map,Option.map_eq_some_iff] at hget
    obtain ⟨old,-,rfl⟩ := hget
    rfl

/-- Every step with a clean counter keeps the count. -/
theorem counted_step (hstat : build.featureStatistics=true)
    (hcount : build.featurePixelCount=true) {e : PixelEvent} {reply : Unit} (h : Counted s)
    (hstep' : CleanCounter e ∧ FewSets s e) (hstep : pixelStep build s e=some (reply,s')) :
    Counted s' := by
  obtain ⟨hclean,hfew⟩ := hstep'
  cases e with
  | alloc node block numaNode size =>
    simp only [pixelStep] at hstep
    split at hstep
    · cases hstep
      exact h
    · rename_i fb halloc
      cases hstep
      obtain ⟨hnode,hblock⟩ := fbAlloc_pixelCount halloc
      exact h.alloc (hclean _ hnode hblock)
  | command netFb socket session k c =>
    simp only [pixelStep] at hstep
    split at hstep
    · cases hstep
    · rename_i fb hget
      split at hstep
      · cases hstep
      · cases hstep
        exact h.draw hget (exec_pixelCount ⟨build,netFb,socket⟩ hstat hcount _ c) (hfew fb hget)
  | update threads now =>
    simp only [pixelStep] at hstep
    rw [Option.map_eq_some_iff] at hstep
    obtain ⟨out,hupdate,hs⟩ := hstep
    cases hs
    exact h.update hcount hupdate

/-- A state right behind an update. -/
theorem run_update {threads : List NetThread} {now : Timespec} {events : List PixelEvent}
    {replies : List Unit} {start : PixelCounts}
    (hrun : run (pixelStep build) start (events++[.update threads now])=some (replies,s)) :
    ∃ replies' u out, run (pixelStep build) start events=some (replies',u) ∧
      statisticsUpdate build u.stats threads u.fbs now=some out ∧
      s={u with stats := out.1, fbs := out.2.2, recent := fun _ => 0} := by
  obtain ⟨replies',u,_,hbefore,hlast⟩ := run_append_split hrun
  cases hupdate : statisticsUpdate build u.stats threads u.fbs now with
  | none => simp [run,pixelStep,hupdate] at hlast
  | some out =>
    simp only [run,pixelStep,hupdate,Option.map_some,Option.some.injEq,Prod.mk.injEq] at hlast
    exact ⟨replies',u,out,hbefore,hupdate,hlast.2.symm⟩

/-- Before the first connection nothing is counted. -/
theorem counted_uncounted : Counted uncounted := by
  refine ⟨⟨0,rfl,rfl⟩,fun k fb hget => ?_,fun _ _ => rfl⟩
  cases hget

/-- Right after an update, the total of a clean state is the number of sets. -/
theorem Counted.numPixels (hcount : build.featurePixelCount=true) (h : Counted s)
    {threads : List NetThread} {now : Timespec} {out : Statistics×List NetThread×List Fb}
    (hupdate : statisticsUpdate build s.stats threads s.fbs now=some out) :
    out.1.numPixels=UInt64.ofNat s.sets := by
  obtain ⟨collected,hpixels,hsets⟩ := h.total
  rw [(statisticsUpdate_pixels hcount hupdate).1,hpixels,hsets,UInt64.ofNat_add]

/-- In a build that counts pixels, and as long as `malloc` leaves a zero in
the counter of every framebuffer that joins the list, the total right after an
update is the number of sets inside the surface exactly if it can hold that number. -/
theorem numPixels_iff (hstat : build.featureStatistics=true)
    (hcount : build.featurePixelCount=true) {events : List PixelEvent}
    {threads : List NetThread} {now : Timespec}
    (hadm : Admitted FewSets (pixelStep build) uncounted events)
    (hclean : ∀ e∈events,CleanCounter e) {replies : List Unit}
    (hrun : run (pixelStep build) uncounted (events++[.update threads now])=some (replies,s)) :
    s.stats.numPixels.toNat=s.sets ↔ s.sets<18446744073709551616 := by
  obtain ⟨_,u,out,hbefore,hupdate,rfl⟩ := run_update hrun
  have hcounted : Counted u :=
    run_invariant (fun s e r s' h hp hs => counted_step hstat hcount h hp hs)
      counted_uncounted (hadm.and_forall hclean) hbefore
  dsimp only
  rw [hcounted.numPixels hcount hupdate,UInt64.toNat_ofNat']
  omega

/-- Where `malloc` leaves something else, the next update counts it. -/
theorem numPixels_garbage (hstat : build.featureStatistics=true)
    (hcount : build.featurePixelCount=true) {events : List PixelEvent} {garbage : UInt32}
    {heap : ℕ → FbPixel} {numaNode : ℕ} {size : FbSize} {threads : List NetThread}
    {now : Timespec} (hadm : Admitted FewSets (pixelStep build) uncounted events)
    (hclean : ∀ e∈events,CleanCounter e) {replies : List Unit}
    (hrun : run (pixelStep build) uncounted
      ((events++[.alloc (some garbage) (some heap) numaNode size])++[.update threads now])=
      some (replies,s)) :
    s.stats.numPixels=UInt64.ofNat (s.sets+garbage.toNat) := by
  obtain ⟨_,u,out,hbefore,hupdate,rfl⟩ := run_update hrun
  obtain ⟨_,v,_,hfirst,hlast⟩ := run_append_split hbefore
  have hcounted : Counted v :=
    run_invariant (fun s e r s' h hp hs => counted_step hstat hcount h hp hs)
      counted_uncounted (hadm.and_forall hclean) hfirst
  obtain ⟨collected,hpixels,hsets⟩ := hcounted.total
  cases hlast
  dsimp only
  rw [(statisticsUpdate_pixels hcount hupdate).1,hpixels,hsets,waiting,waiting,List.map_append,
    List.sum_append,←UInt64.ofNat_add]
  congr 1
  simp only [List.map_cons,List.map_nil,List.sum_cons,List.sum_nil]
  omega

/-- A build that counts pixels. -/
def countingBuild : Build := ⟨true,true,true,true,false,.littleEndian⟩

/-- A client of a surface of 4 by 4 pixels draws twice, once outside. -/
def drawingEvents (garbage : UInt32) : List PixelEvent :=
  [.alloc (some garbage) (some fun _ => ⟨0,0,0,0⟩) 0 ⟨4,4⟩,
    .command (blankFb 4 4) takingSocket (freshSession (blankFb 4 4)) 0 (.set 1 1 []),
    .command (blankFb 4 4) takingSocket (freshSession (blankFb 4 4)) 0 (.set 9 1 [])]

/-- With a clean counter one set is counted. -/
theorem numPixels_drawn :
    ∃ replies s, run (pixelStep countingBuild) uncounted
        (drawingEvents 0++[.update [] ⟨1,0⟩])=some (replies,s) ∧
      (s.stats.numPixels.toNat=s.sets ↔ s.sets<18446744073709551616) := by
  have hend : (run (pixelStep countingBuild) uncounted
      (drawingEvents 0++[.update [] ⟨1,0⟩])).map (fun out => out.2.sets)=some 1 := by
    decide +kernel
  rw [Option.map_eq_some_iff] at hend
  obtain ⟨⟨replies,s⟩,hrun,-⟩ := hend
  exact ⟨replies,s,hrun,numPixels_iff rfl rfl (by decide +kernel) (by decide +kernel) hrun⟩

/-- With 1000 in the counter, one set is counted as 1001. -/
theorem numPixels_not_sets :
    Admitted FewSets (pixelStep countingBuild) uncounted
        (drawingEvents 1000++[.update [] ⟨1,0⟩]) ∧
      (run (pixelStep countingBuild) uncounted (drawingEvents 1000++[.update [] ⟨1,0⟩])).map
        (fun out => (out.2.sets,out.2.stats.numPixels))=some (1,1001) :=
  ⟨by decide +kernel,by decide +kernel⟩

end Shoreline.PixelCount
