import Shoreline.Drawing

/-!
# Two framebuffer levels refine drawing on the screen

Without blending, what `fb_coalesce` shows is what was drawn: every pixel of
the main framebuffer becomes the last colour drawn there, since the previous
merge, on one of the node framebuffers that drew there. With a single node
framebuffer this is drawing on the main framebuffer at once.
-/

namespace Shoreline.DirectDrawing

open Framebuffer NetConnection Coalesce StateMachine WriteBuffer Drawing

/-- The colour of a draw marks its pixel as drawn. -/
def Marking : SurfaceOp → Prop
  | .draw _ _ _ pixel => pixel.alpha≠0
  | .set _ _ _ pixel => pixel.alpha≠0
  | .coalesce _ => True

/-- The colour last drawn on a node at a pixel, after one more operation. -/
def lastDrawnStep (node : ℕ) (x y : UInt32) (last : Option FbPixel) : SurfaceOp → Option FbPixel
  | .draw n x' y' pixel => if node=n ∧ x=x' ∧ y=y' then some pixel else last
  | .set n x' y' pixel => if node=n ∧ x=x' ∧ y=y' then some pixel else last
  | .coalesce _ => none

/-- The colour last drawn on a node at a pixel since the last coalesce. -/
def lastDrawn (node : ℕ) (x y : UInt32) (ops : List SurfaceOp) : Option FbPixel :=
  ops.foldl (lastDrawnStep node x y) none

/-- A draw, applied to one framebuffer. -/
def directDraw (fb : Fb) : SurfaceOp → Option Fb
  | .draw _ x y pixel => fbSetPixel fb x y pixel
  | .set _ x y pixel => if fb.size.Contains x y then fbSetPixel fb x y pixel else some fb
  | .coalesce _ => some fb

/-- All draws, applied to one framebuffer in order. -/
def drawDirectly (fb : Fb) (ops : List SurfaceOp) : Option Fb := ops.foldlM directDraw fb

/-- No pixel of a node framebuffer is marked as drawn. -/
def Undrawn (size : FbSize) (fbs : List Fb) : Prop :=
  ∀ fb∈fbs, ∀ x y, size.Contains x y → ∀ pixel, fbGetPixel fb x y=some pixel → pixel.alpha=0

variable {build : Build} {size : FbSize} {k : ℕ} {b : Buffer ℕ (Option ℕ) FbPixel} {s : Surface}

/-- A marking colour is pending once it is drawn. -/
theorem layerOf_of_alpha {pixel : FbPixel} (h : pixel.alpha≠0) : layerOf pixel=some pixel := if_neg h

/-- A pixel that nothing is pending for is not marked. -/
theorem alpha_of_layerOf {pixel : FbPixel} (h : layerOf pixel=none) : pixel.alpha=0 := by
  by_contra hne
  rw [layerOf_of_alpha hne] at h
  cases h

/-- The positions a merge goes through are all there are. -/
theorem mem_order (rand : Rand) {node : ℕ} :
    node∈(arrayShuffle rand (List.range k)).getD [] ↔ node<k := by
  obtain ⟨order,hshuffle,hperm⟩ := arrayShuffle_perm rand (List.range k)
  rw [hshuffle,Option.getD_some]
  exact hperm.mem_iff.trans List.mem_range

/-- What a write buffer has pending for a pixel is the colour last drawn. -/
theorem pending_eq (hfit : size.width.toNat*size.height.toNat<2^32) {node : ℕ} (hnode : node<k)
    {x y : UInt32} (hin : size.Contains x y) {ops : List SurfaceOp}
    (hops : ∀ op∈ops,Allowed size k op ∧ Marking op) (last : Option FbPixel) :
    (ops.map (bufferOp size k)).foldl (pendingStep node (some (cell size x y))) last=
      ops.foldl (lastDrawnStep node x y) last := by
  induction ops generalizing last with
  | nil => rfl
  | cons op ops ih =>
    obtain ⟨⟨hallowed,hmark⟩,hrest⟩ := List.forall_mem_cons.mp hops
    have hwrite : ∀ n x' y' pixel, FbPixel.alpha pixel≠0 →
        (if node=n ∧ some (cell size x y)=target size x' y' then layerOf pixel else last)=
          if node=n ∧ x=x' ∧ y=y' then some pixel else last := by
      intro n x' y' pixel hpixel
      rw [layerOf_of_alpha hpixel]
      have hiff : some (cell size x y)=target size x' y' ↔ x=x' ∧ y=y' := by
        rw [eq_comm,target_eq_some (cell_lt_product hfit hin),eq_comm]
        constructor
        · rintro ⟨hin',he⟩
          exact (cell_inj hfit hin hin').mp he
        · rintro ⟨rfl,rfl⟩
          exact ⟨hin,rfl⟩
      simp only [hiff]
    rw [List.map_cons,List.foldl_cons,List.foldl_cons,ih hrest]
    congr 1
    cases op with
    | draw n x' y' pixel => exact hwrite n x' y' pixel hmark
    | set n x' y' pixel => exact hwrite n x' y' pixel hmark
    | coalesce rand => exact if_pos ((mem_order rand).mpr hnode)

/-- An unmarked surface has nothing pending. -/
theorem bufferOf_layer (hs : s.Uniform size) (hclean : Undrawn size s.fbs) {x y : UInt32}
    (hin : size.Contains x y) {node : ℕ} (hnode : node<s.fbs.length) :
    (bufferOf s).layer node (some (cell size x y))=none := by
  have hmem : s.fbs[node]∈s.fbs := List.getElem_mem hnode
  have hlayer : layerOf (pixelOn s.fbs node (cell size x y))=none := by
    rw [pixelOn,List.getElem?_eq_getElem hnode,Option.map_some,Option.getD_some]
    exact if_pos (hclean _ hmem x y hin _ (fbGetPixel_of_contains (hs.fbs _ hmem) hin))
  dsimp only [bufferOf]
  split
  · exact hlayer
  · rfl

/-- After a coalesce no pixel is marked as drawn. -/
theorem undrawn_of_coalesce (hfit : size.width.toNat*size.height.toNat<2^32) {rand : Rand}
    (h : Shows size k (b.step (bufferOp size k (.coalesce rand))) s) : Undrawn size s.fbs := by
  intro fb hmem x y hin pixel hget
  obtain ⟨node,hlt,rfl⟩ := List.getElem_of_mem hmem
  rw [fbGetPixel_of_contains (h.uniform.fbs _ hmem) hin] at hget
  cases hget
  refine alpha_of_layerOf ?_
  rw [h.layer node _ (List.getElem?_eq_getElem hlt) _ (cell_lt_product hfit hin)]
  rw [h.length] at hlt
  exact merge_layer b ((mem_order rand).mpr hlt) _

/-- Drawing directly follows the write buffer's puts. -/
theorem drawDirectly_eq (hfit : size.width.toNat*size.height.toNat<2^32) {fb : Fb}
    (hfb : fb.size=size) {ops : List SurfaceOp}
    (hops : ∀ op∈ops,Allowed size k op ∧ Marking op) :
    ∃ fb', drawDirectly fb ops=some fb' ∧ fb'.size=size ∧
      ∀ i, fb'.pixels i=(ops.map (bufferOp size k)).foldl (directStep (some i)) (fb.pixels i) := by
  induction ops generalizing fb with
  | nil => exact ⟨fb,rfl,hfb,fun _ => rfl⟩
  | cons op ops ih =>
    obtain ⟨⟨hallowed,hmark⟩,hrest⟩ := List.forall_mem_cons.mp hops
    have hstep : ∃ mid, directDraw fb op=some mid ∧ mid.size=size ∧
        ∀ i, mid.pixels i=directStep (some i) (fb.pixels i) (bufferOp size k op) := by
      have hwrite : ∀ x y pixel, FbPixel.alpha pixel≠0 → size.Contains x y →
          ∃ mid, fbSetPixel fb x y pixel=some mid ∧ mid.size=size ∧ ∀ i, mid.pixels i=
            if some i=target size x y then (layerOf pixel).getD (fb.pixels i) else fb.pixels i := by
        intro x y pixel hpixel hin
        rw [fbSetPixel,hfb,if_pos hin,target,if_pos ⟨hin,cell_lt_product hfit hin⟩,
          layerOf_of_alpha hpixel,fbIndex,hfb]
        refine ⟨_,rfl,rfl,fun i => ?_⟩
        simp only [writePixel,Option.some.injEq,Option.getD_some,cell]
      cases op with
      | draw n x y pixel => exact hwrite x y pixel hmark hallowed.2
      | set n x y pixel =>
        by_cases hin : size.Contains x y
        · rw [directDraw,hfb,if_pos hin]
          exact hwrite x y pixel hmark hin
        · rw [directDraw,hfb,if_neg hin]
          refine ⟨fb,rfl,hfb,fun i => ?_⟩
          dsimp only [bufferOp,directStep]
          rw [target_eq_none hin,if_neg (Option.some_ne_none i)]
      | coalesce rand => exact ⟨fb,rfl,hfb,fun _ => rfl⟩
    obtain ⟨mid,hmid,hsize,hpixels⟩ := hstep
    obtain ⟨fb',hdraw,hsize',hpixels'⟩ := ih hsize hrest
    refine ⟨fb',?_,hsize',fun i => ?_⟩
    · rw [drawDirectly,List.foldlM_cons,hmid]
      exact hdraw
    · rw [hpixels' i,hpixels i,List.map_cons,List.foldl_cons]

/-- With one node framebuffer, operations are those of one writer. -/
theorem byWriter_bufferOp {op : SurfaceOp} (hop : Allowed size 1 op ∧ Marking op) :
    ByWriter 0 (bufferOp size 1 op) := by
  obtain ⟨hallowed,hmark⟩ := hop
  cases op with
  | draw node x y pixel =>
    refine ⟨by have h := hallowed.1; omega,?_⟩
    rw [layerOf_of_alpha hmark]
    exact Option.some_ne_none pixel
  | set node x y pixel =>
    refine ⟨by have h : node<1 := hallowed; omega,?_⟩
    rw [layerOf_of_alpha hmark]
    exact Option.some_ne_none pixel
  | coalesce rand =>
    obtain ⟨order,hshuffle,hperm⟩ := arrayShuffle_perm rand (List.range 1)
    dsimp only [bufferOp,ByWriter]
    rw [hshuffle,Option.getD_some]
    exact List.perm_singleton.mp hperm

/-- The result of one coalesce after the given operations: every pixel shows
the colour last drawn there on one of the nodes that drew there, or what it
showed before when none did, and nothing is marked as drawn any more. -/
def ShowsDrawn (size : FbSize) (k : ℕ) (before : List SurfaceOp) (old new : Surface) : Prop :=
  (∀ x y, size.Contains x y →
    (∃ node<k, ∃ pixel, lastDrawn node x y before=some pixel ∧
      fbGetPixel new.main x y=some pixel) ∨
    ((∀ node<k, lastDrawn node x y before=none) ∧
      fbGetPixel new.main x y=fbGetPixel old.main x y)) ∧
  Undrawn size new.fbs

/-- A coalesce in any run shows what was drawn since the previous one. -/
theorem coalesce_showsDrawn (hblend : build.featureAlphaBlending=false)
    (hfit : size.width.toNat*size.height.toNat<2^32) (hs : s.Uniform size)
    (hclean : Undrawn size s.fbs) {before : List SurfaceOp}
    (hops : ∀ op∈before,Allowed size s.fbs.length op ∧ Marking op) {rand : Rand}
    {replies : List ℤ} {old new : Surface} {ret : ℤ}
    (hrun : run (surfaceStep build) s before=some (replies,old))
    (hstep : surfaceStep build old (.coalesce rand)=some (ret,new)) :
    ShowsDrawn size s.fbs.length before old new := by
  obtain ⟨_,_,hrun',_,hold⟩ := run_shows hblend (shows_bufferOf hs) fun op hop => (hops op hop).1
  rw [hrun] at hrun'
  cases hrun'
  obtain ⟨_,hstep',hnew⟩ := hold.coalesce hblend rand
  rw [hstep] at hstep'
  cases hstep'
  refine ⟨?_,undrawn_of_coalesce hfit hnew⟩
  intro x y hin
  have hlast : ∀ node<s.fbs.length, Buffer.layer ((before.map (bufferOp size s.fbs.length)).foldl
      Buffer.step (bufferOf s)) node (some (cell size x y))=lastDrawn node x y before :=
    fun node hnode => by
      rw [layer_foldl,bufferOf_layer hs hclean hin hnode]
      exact pending_eq hfit hnode hin hops none
  rw [fbGetPixel_of_contains hnew.uniform.main hin,fbGetPixel_of_contains hold.uniform.main hin,
    hnew.base,hold.base]
  rcases merge_base ((before.map (bufferOp size s.fbs.length)).foldl Buffer.step (bufferOf s))
    ((arrayShuffle rand (List.range s.fbs.length)).getD []) (some (cell size x y))
    with ⟨node,hmem,hlayer⟩ | ⟨hnone,hbase⟩
  · have hnode := (mem_order rand).mp hmem
    exact Or.inl ⟨node,hnode,_,(hlast node hnode).symm.trans hlayer,rfl⟩
  · refine Or.inr ⟨fun node hnode => ?_,congrArg some hbase⟩
    rw [←hlast node hnode]
    exact hnone node ((mem_order rand).mpr hnode)

/-- With one node framebuffer, after a final coalesce the main framebuffer is
what drawing on it at once gives. -/
theorem single_drawDirectly (hblend : build.featureAlphaBlending=false)
    (hfit : size.width.toNat*size.height.toNat<2^32) (hs : s.Uniform size)
    (hone : s.fbs.length=1) (hclean : Undrawn size s.fbs) {before : List SurfaceOp} {rand : Rand}
    (hops : ∀ op∈before++[.coalesce rand],Allowed size s.fbs.length op ∧ Marking op)
    {replies : List ℤ} {final : Surface}
    (hrun : run (surfaceStep build) s (before++[.coalesce rand])=some (replies,final)) :
    ∃ direct, drawDirectly s.main (before++[.coalesce rand])=some direct ∧
      ∀ x y, size.Contains x y → fbGetPixel final.main x y=fbGetPixel direct x y := by
  obtain ⟨_,_,hrun',_,hfinal⟩ := run_shows hblend (shows_bufferOf hs) fun op hop => (hops op hop).1
  rw [hrun] at hrun'
  cases hrun'
  obtain ⟨direct,hdraw,hsize,hpixels⟩ := drawDirectly_eq hfit hs.main hops
  refine ⟨direct,hdraw,fun x y hin => ?_⟩
  have hnode : 0<s.fbs.length := by omega
  have hflat := direct_of_byWriter 0 (bufferOf s) (List.forall_mem_map.mpr fun op hop =>
    byWriter_bufferOp (hone ▸ hops op hop)) (some (cell size x y))
  rw [bufferOf_layer hs hclean hin hnode,Option.getD_none,←hone] at hflat
  have hempty : Buffer.layer (((before++[SurfaceOp.coalesce rand]).map
      (bufferOp size s.fbs.length)).foldl Buffer.step (bufferOf s)) 0 (some (cell size x y))=none := by
    rw [List.map_append,List.foldl_append]
    exact merge_layer _ ((mem_order rand).mpr hnode) _
  rw [hempty,Option.getD_none] at hflat
  rw [fbGetPixel_of_contains hfinal.uniform.main hin,fbGetPixel_of_contains hsize hin,
    hfinal.base,hpixels,hflat]
  rfl

/-- The two-level framebuffer refines drawing on the screen: runs of draws
and coalesces succeed, every coalesce shows what was drawn, and with a single
node a final coalesce shows what drawing directly gives. -/
theorem two_levels_refine_drawing (hblend : build.featureAlphaBlending=false)
    (hfit : size.width.toNat*size.height.toNat<2^32) (hs : s.Uniform size)
    (hclean : Undrawn size s.fbs) {ops : List SurfaceOp}
    (hops : ∀ op∈ops,Allowed size s.fbs.length op ∧ Marking op) :
    (∃ replies final, run (surfaceStep build) s ops=some (replies,final) ∧ ∀ ret∈replies,ret=0) ∧
    (∀ before rand after replies old ret new, ops=before++.coalesce rand::after →
      run (surfaceStep build) s before=some (replies,old) →
      surfaceStep build old (.coalesce rand)=some (ret,new) →
      ShowsDrawn size s.fbs.length before old new) ∧
    (s.fbs.length=1 → ∀ before rand replies final, ops=before++[.coalesce rand] →
      run (surfaceStep build) s ops=some (replies,final) →
      ∃ direct, drawDirectly s.main ops=some direct ∧
        ∀ x y, size.Contains x y → fbGetPixel final.main x y=fbGetPixel direct x y) := by
  refine ⟨?_,?_,?_⟩
  · obtain ⟨replies,final,hrun,hzero,_⟩ :=
      run_shows hblend (shows_bufferOf hs) fun op hop => (hops op hop).1
    exact ⟨replies,final,hrun,hzero⟩
  · rintro before rand after replies old ret new rfl hrun hstep
    exact coalesce_showsDrawn hblend hfit hs hclean
      (fun op hop => hops op (List.mem_append_left _ hop)) hrun hstep
  · rintro hone before rand replies final rfl hrun
    exact single_drawDirectly hblend hfit hs hone hclean hops hrun

/-- One node framebuffer of four by four pixels below an empty picture. -/
def smallSurface : Surface := ⟨blankFb 4 4,[blankFb 4 4]⟩

/-- Both have the same size. -/
theorem smallSurface_uniform : smallSurface.Uniform ⟨4,4⟩ := ⟨rfl,List.forall_mem_singleton.mpr rfl⟩

/-- Nothing is drawn on it. -/
theorem smallSurface_undrawn : Undrawn ⟨4,4⟩ smallSurface.fbs :=
  List.forall_mem_singleton.mpr fun x y hin pixel hget => by
    rw [fbGetPixel_of_contains rfl hin] at hget
    cases hget
    rfl

/-- Two draws of one pixel, with a coalesce in between and one at the end. -/
def smallDraws : List SurfaceOp :=
  [.draw 0 1 2 ⟨0xff,1,2,3⟩,.coalesce zeroRand,.draw 0 1 2 ⟨0x80,4,5,6⟩]++[.coalesce zeroRand]

/-- They show what drawing directly gives. -/
theorem two_levels_refine_drawing_small :
    ∃ replies final direct,
      run (surfaceStep (plainEnv 4 4).build) smallSurface smallDraws=some (replies,final) ∧
      drawDirectly smallSurface.main smallDraws=some direct ∧
      fbGetPixel final.main 1 2=fbGetPixel direct 1 2 := by
  have hops : ∀ op∈smallDraws,Allowed ⟨4,4⟩ smallSurface.fbs.length op ∧ Marking op := by
    simp only [smallDraws,List.cons_append,List.nil_append,List.forall_mem_cons]
    have hin : (⟨4,4⟩ : FbSize).Contains 1 2 := by decide
    exact ⟨⟨⟨Nat.one_pos,hin⟩,show (0xff : UInt8)≠0 by decide⟩,⟨trivial,trivial⟩,
      ⟨⟨Nat.one_pos,hin⟩,show (0x80 : UInt8)≠0 by decide⟩,⟨trivial,trivial⟩,
      fun op hop => absurd hop List.not_mem_nil⟩
  have hall := @two_levels_refine_drawing (plainEnv 4 4).build ⟨4,4⟩ smallSurface rfl (by decide)
    smallSurface_uniform smallSurface_undrawn _ hops
  obtain ⟨replies,final,hrun,_⟩ := hall.1
  obtain ⟨direct,hdraw,hsame⟩ := hall.2.2 rfl _ _ replies final rfl hrun
  exact ⟨replies,final,direct,hrun,hdraw,hsame 1 2 (by decide)⟩

end Shoreline.DirectDrawing
