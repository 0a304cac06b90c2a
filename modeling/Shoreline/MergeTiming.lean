import Shoreline.DirectDrawing

/-!
# When the screen loop runs

Two schedules of the same pixel commands, with merges at different places,
show the same picture exactly when no pixel has a coloured set withdrawn by a
later one of zero alpha: such a set takes the pending colour back when it
comes before the merge, and does nothing when it comes after it.
-/

namespace Shoreline.MergeTiming

open Framebuffer NetConnection Coalesce StateMachine WriteBuffer Drawing DirectDrawing

/-- The red, green and blue of a pixel, where the host has them. -/
def colours (host : Host) (pixel : FbPixel) : UInt8×UInt8×UInt8 :=
  match host with
  | .littleEndian => (pixel.red,pixel.green,pixel.blue)
  | .bigEndian => (pixel.byte0,pixel.byte1,pixel.byte2)

/-- A pixel command with a colour. -/
structure SetCommand where
  /-- Column, offset included. -/
  x : UInt32
  /-- Row, offset included. -/
  y : UInt32
  /-- Colour, alpha included. -/
  pixel : FbPixel

/-- Blocks of commands, with a coalesce behind every block. -/
abbrev Schedule := List (List SetCommand×Rand)

/-- The commands of a schedule. -/
def commandsOf (schedule : Schedule) : List SetCommand := (schedule.map Prod.fst).flatten

/-- The operations of a schedule on a single node framebuffer. -/
def opsOf (schedule : Schedule) : List SurfaceOp :=
  schedule.flatMap fun block =>
    block.1.map (fun c => SurfaceOp.set 0 c.x c.y c.pixel)++[.coalesce block.2]

/-- All schedules of the commands show the same colours in the end. -/
def TimingFree (build : Build) (s : Surface) (commands : List SetCommand) : Prop :=
  ∀ one two, commandsOf one=commands → commandsOf two=commands →
    ∀ replies final replies' final',
      run (surfaceStep build) s (opsOf one)=some (replies,final) →
      run (surfaceStep build) s (opsOf two)=some (replies',final') →
      ∀ x y, s.main.size.Contains x y → ∀ pixel pixel', fbGetPixel final.main x y=some pixel →
        fbGetPixel final'.main x y=some pixel' → colours build.host pixel=colours build.host pixel'

/-- The commands that address a pixel. -/
def addressing (size : FbSize) (x y : UInt32) (commands : List SetCommand) : List SetCommand :=
  commands.filter fun c => target size c.x c.y=some (cell size x y)

/-- A pixel whose last set, if there is one, has a nonzero alpha, or all of
whose sets with a nonzero alpha have the colour that is shown already. -/
def Settled (build : Build) (s : Surface) (commands : List SetCommand) (x y : UInt32) : Prop :=
  (∀ c, (addressing s.main.size x y commands).getLast?=some c → c.pixel.alpha≠0) ∨
    ∀ c∈addressing s.main.size x y commands, c.pixel.alpha≠0 →
      colours build.host c.pixel=
        colours build.host (s.main.pixels (cell s.main.size x y))

variable {build : Build} {size : FbSize} {s : Surface}

/-- A command as a write to the single layer. -/
def write (size : FbSize) (c : SetCommand) : Option ℕ×Option FbPixel :=
  (target size c.x c.y,layerOf c.pixel)

/-- A schedule is a schedule of writes. -/
theorem map_opsOf (size : FbSize) (schedule : Schedule) :
    (opsOf schedule).map (bufferOp size 1)=
      blockOps 0 ((schedule.map Prod.fst).map (List.map (write size))) := by
  induction schedule with
  | nil => rfl
  | cons block schedule ih =>
    obtain ⟨order,hshuffle,hperm⟩ := arrayShuffle_perm block.2 (List.range 1)
    have hmerge : bufferOp size 1 (.coalesce block.2)=.merge [0] := by
      rw [bufferOp,hshuffle,Option.getD_some]
      exact congrArg Op.merge (List.perm_singleton.mp hperm)
    rw [opsOf,List.flatMap_cons,List.map_append,List.map_append,List.map_cons,List.map_nil,hmerge,
      List.map_map,List.map_cons,List.map_cons,blockOps,List.flatMap_cons,List.map_map]
    exact congrArg _ ih

/-- What commands leave pending at a pixel. -/
theorem lastPut_write (size : FbSize) (x y : UInt32) (commands : List SetCommand)
    (pending : Option FbPixel) :
    lastPut (some (cell size x y)) (commands.map (write size)) pending=
      ((addressing size x y commands).getLast?.map fun c => layerOf c.pixel).getD pending := by
  induction commands generalizing pending with
  | nil => rfl
  | cons c commands ih =>
    rw [List.map_cons,lastPut_cons,ih]
    by_cases hc : (write size c).1=some (cell size x y)
    · have hlist : addressing size x y (c::commands)=c::addressing size x y commands :=
        List.filter_cons_of_pos (decide_eq_true hc)
      rw [if_pos hc,hlist,List.getLast?_cons,Option.map_some,Option.getD_some]
      cases (addressing size x y commands).getLast? <;> rfl
    · have hlist : addressing size x y (c::commands)=addressing size x y commands :=
        List.filter_cons_of_neg (by rw [decide_eq_true_eq]; exact hc)
      rw [if_neg hc,hlist]

/-- A value that commands put is the colour of one of them. -/
theorem mem_write (size : FbSize) (x y : UInt32) (commands : List SetCommand) (pixel : FbPixel) :
    (some (cell size x y),some pixel)∈commands.map (write size) ↔
      ∃ c∈addressing size x y commands, c.pixel.alpha≠0 ∧ c.pixel=pixel := by
  have hlayer : ∀ p : FbPixel, layerOf p=some pixel ↔ p.alpha≠0 ∧ p=pixel := by
    intro p
    unfold layerOf
    split
    · rename_i h
      constructor
      · intro hc
        exact absurd hc.symm (Option.some_ne_none _)
      · intro hc
        exact absurd h hc.1
    · rename_i h
      rw [Option.some.injEq,and_iff_right h]
  simp only [List.mem_map,write,Prod.mk.injEq,hlayer,addressing,List.mem_filter,decide_eq_true_eq]
  constructor
  · rintro ⟨c,hmem,hcell,hp⟩
    exact ⟨c,⟨hmem,hcell⟩,hp⟩
  · rintro ⟨c,⟨hmem,hcell⟩,hp⟩
    exact ⟨c,hmem,hcell,hp⟩

/-- A pixel is settled when a value is pending there in the end, or every
value put there looks like what is shown. -/
theorem settled_iff (commands : List SetCommand) (x y : UInt32) :
    Settled build s commands x y ↔
      lastPut (some (cell s.main.size x y)) (commands.map (write s.main.size)) none≠none ∨
        ∀ pixel, (some (cell s.main.size x y),some pixel)∈commands.map (write s.main.size) →
          colours build.host pixel=colours build.host (s.main.pixels (cell s.main.size x y)) := by
  simp only [mem_write,lastPut_write,Settled]
  cases hlast : (addressing s.main.size x y commands).getLast? with
  | none =>
    rw [List.getLast?_eq_none_iff] at hlast
    simp only [hlast,List.not_mem_nil,false_and,exists_false,false_imp_iff,implies_true,or_true]
  | some c =>
    have hmarks : layerOf c.pixel≠none ↔ c.pixel.alpha≠0 :=
      ⟨fun h hz => h (if_pos hz),fun h => by rw [layerOf_of_alpha h]; exact Option.some_ne_none _⟩
    simp only [Option.some.injEq,forall_eq',Option.map_some,Option.getD_some,hmarks]
    refine or_congr_right ?_
    constructor
    · rintro h pixel ⟨c,hmem,halpha,rfl⟩
      exact h c hmem halpha
    · intro h c hmem halpha
      exact h c.pixel ⟨c,hmem,halpha,rfl⟩

/-- Blocks of writes of commands are blocks of commands. -/
theorem blocks_of_flatten {blocks : List (List (Option ℕ×Option FbPixel))}
    {commands : List SetCommand} (h : blocks.flatten=commands.map (write size)) :
    ∃ blocks' : List (List SetCommand), blocks'.flatten=commands ∧
      blocks'.map (List.map (write size))=blocks := by
  induction blocks generalizing commands with
  | nil => exact ⟨[],(List.map_eq_nil_iff.mp h.symm).symm,rfl⟩
  | cons ws blocks ih =>
    obtain ⟨first,rest,rfl,hfirst,hrest⟩ := List.map_eq_append_iff.mp h.symm
    obtain ⟨blocks',hflat,hmap⟩ := ih hrest.symm
    exact ⟨first::blocks',by rw [List.flatten_cons,hflat],by rw [List.map_cons,hfirst,hmap]⟩

/-- A schedule on a surface with one unmarked node framebuffer succeeds; the
main framebuffer shows in the end what its writes play. -/
theorem run_opsOf (hblend : build.featureAlphaBlending=false) (hs : s.Uniform size)
    (hone : s.fbs.length=1) (hclean : Undrawn size s.fbs) (schedule : Schedule) :
    ∃ replies final, run (surfaceStep build) s (opsOf schedule)=some (replies,final) ∧
      ∀ x y, size.Contains x y → fbGetPixel final.main x y=some
        (play (some (cell size x y)) (s.main.pixels (cell size x y))
          ((schedule.map Prod.fst).map (List.map (write size)))) := by
  have hops : ∀ op∈opsOf schedule,Allowed size s.fbs.length op := by
    intro op hop
    obtain ⟨block,_,hmem⟩ := List.mem_flatMap.mp hop
    rcases List.mem_append.mp hmem with hset | hlast
    · obtain ⟨c,_,rfl⟩ := List.mem_map.mp hset
      show 0<s.fbs.length
      omega
    · rw [List.mem_singleton.mp hlast]
      trivial
  obtain ⟨replies,final,hrun,_,hfinal⟩ := run_shows hblend (shows_bufferOf hs) hops
  refine ⟨replies,final,hrun,fun x y hin => ?_⟩
  rw [fbGetPixel_of_contains hfinal.uniform.main hin,hfinal.base,hone,map_opsOf,
    base_blockOps _ 0 _ _ (bufferOf_layer hs hclean hin (by omega))]
  rfl

/-- The picture shown in the end does not depend on the schedule exactly when
every pixel is settled by the commands. -/
theorem timingFree_iff (hblend : build.featureAlphaBlending=false)
    (hs : s.Uniform s.main.size) (hone : s.fbs.length=1) (hclean : Undrawn s.main.size s.fbs)
    (commands : List SetCommand) :
    TimingFree build s commands ↔ ∀ x y, s.main.size.Contains x y → Settled build s commands x y := by
  have hpixel : ∀ x y, Settled build s commands x y ↔
      ∀ one two : List (List (Option ℕ×Option FbPixel)),
        one.flatten=commands.map (write s.main.size) →
        two.flatten=commands.map (write s.main.size) →
        colours build.host (play (some (cell s.main.size x y))
            (s.main.pixels (cell s.main.size x y)) one)=
          colours build.host (play (some (cell s.main.size x y))
            (s.main.pixels (cell s.main.size x y)) two) := fun x y => by
    rw [schedules_agree_iff (colours build.host)]
    exact settled_iff commands x y
  constructor
  · intro h x y hin
    refine (hpixel x y).mpr fun one two hone' htwo' => ?_
    obtain ⟨one,hflat,rfl⟩ := blocks_of_flatten hone'
    obtain ⟨two,hflat',rfl⟩ := blocks_of_flatten htwo'
    have hfst : ∀ blocks : List (List SetCommand),
        (blocks.map fun block => (block,zeroRand)).map Prod.fst=blocks := fun blocks => by
      rw [List.map_map]
      exact List.map_id blocks
    obtain ⟨_,_,hrun,hget⟩ := run_opsOf hblend hs hone hclean (one.map fun block => (block,zeroRand))
    obtain ⟨_,_,hrun',hget'⟩ := run_opsOf hblend hs hone hclean (two.map fun block => (block,zeroRand))
    rw [hfst] at hget hget'
    exact h _ _ (by rw [commandsOf,hfst,hflat]) (by rw [commandsOf,hfst,hflat']) _ _ _ _ hrun hrun'
      x y hin _ _ (hget x y hin) (hget' x y hin)
  · intro h one two hone' htwo' replies final replies' final' hrun hrun' x y hin p p' hp hp'
    obtain ⟨_,_,hrun₁,hget⟩ := run_opsOf hblend hs hone hclean one
    obtain ⟨_,_,hrun₂,hget'⟩ := run_opsOf hblend hs hone hclean two
    rw [hrun] at hrun₁
    cases hrun₁
    rw [hrun'] at hrun₂
    cases hrun₂
    rw [hget x y hin] at hp
    cases hp
    rw [hget' x y hin] at hp'
    cases hp'
    refine (hpixel x y).mp (h x y hin) _ _ ?_ ?_
    · rw [←List.map_flatten,←hone',commandsOf]
    · rw [←List.map_flatten,←htwo',commandsOf]

/-- One visible set is settled. -/
theorem timingFree_visible :
    TimingFree (plainEnv 4 4).build smallSurface [⟨1,2,⟨0xff,0,0,0xff⟩⟩] := by
  have huniform : smallSurface.Uniform smallSurface.main.size := smallSurface_uniform
  refine (timingFree_iff rfl huniform rfl smallSurface_undrawn _).mpr fun x y _ =>
    Or.inl fun c hlast => ?_
  have hmem := List.mem_of_mem_filter (List.mem_of_getLast? hlast)
  rw [List.mem_singleton.mp hmem]
  exact show (0xff : UInt8)≠0 by decide

/-- The two commands of `PX 1 2 ff0000` and `PX 1 2 00000000`. -/
def redWithdrawn : List SetCommand := [⟨1,2,⟨0xff,0,0,0xff⟩⟩,⟨1,2,⟨0,0,0,0⟩⟩]

/-- Merging between them shows red, merging only behind them does not. -/
theorem timing_visible : ¬TimingFree (plainEnv 4 4).build smallSurface redWithdrawn := by
  intro h
  have hlate : (run (surfaceStep (plainEnv 4 4).build) smallSurface
      (opsOf [(redWithdrawn,zeroRand)])).map (fun out => fbGetPixel out.2.main 1 2)=
        some (some ⟨0,0,0,0⟩) := by decide +kernel
  have hearly : (run (surfaceStep (plainEnv 4 4).build) smallSurface
      (opsOf [(redWithdrawn.take 1,zeroRand),(redWithdrawn.drop 1,zeroRand)])).map
        (fun out => fbGetPixel out.2.main 1 2)=some (some ⟨0xff,0,0,0xff⟩) := by decide +kernel
  obtain ⟨out,hrun,hget⟩ := Option.map_eq_some_iff.mp hlate
  obtain ⟨out',hrun',hget'⟩ := Option.map_eq_some_iff.mp hearly
  have hsame := h _ _ rfl rfl out.1 out.2 out'.1 out'.2 hrun hrun' 1 2 (by decide) _ _ hget hget'
  exact absurd hsame (by decide)

end Shoreline.MergeTiming
