import Shoreline.Coalesce
import Shoreline.Coordinates
import Shoreline.Library.StateMachine
import Shoreline.Library.WriteBuffer

/-!
# Drawing on node framebuffers

The main framebuffer with its node framebuffers is a write buffer: without
blending, a node framebuffer is a layer of pending pixels, namely those whose
alpha is not zero, and `fb_coalesce` merges the layers in a shuffled order.
-/

namespace Shoreline.Drawing

open Framebuffer NetConnection Coordinates Coalesce StateMachine WriteBuffer

/-- The main framebuffer and the list of node framebuffers. -/
structure Surface where
  /-- The main framebuffer. -/
  main : Fb
  /-- The node framebuffers. -/
  fbs : List Fb

/-- `fb_set_pixel` on a node framebuffer, the drawing part of a pixel command
there, or `fb_coalesce`. -/
inductive SurfaceOp where
  | draw (node : ℕ) (x y : UInt32) (pixel : FbPixel)
  | set (node : ℕ) (x y : UInt32) (pixel : FbPixel)
  | coalesce (rand : Rand)

/-- Perform one operation; `none` is a failed assertion. -/
def surfaceStep (build : Build) : Step SurfaceOp ℤ Surface
  | s,.draw node x y pixel =>
    match s.fbs[node]? with
    | none => none
    | some fb => (fbSetPixel fb x y pixel).map fun fb => (0,{s with fbs := s.fbs.set node fb})
  | s,.set node x y pixel =>
    match s.fbs[node]? with
    | none => none
    | some fb =>
      let out := netDraw ⟨build,s.main,takingSocket⟩ x y pixel (freshSession fb)
      if out.1=.done then some (0,{s with fbs := s.fbs.set node out.2.fb}) else none
  | s,.coalesce rand =>
    (fbCoalesce build rand s.main s.fbs).map fun out => (out.ret,⟨out.fb,out.fbs⟩)

/-- Operations on `k` node framebuffers; draws are in bounds. -/
def Allowed (size : FbSize) (k : ℕ) : SurfaceOp → Prop
  | .draw node x y _ => node<k ∧ size.Contains x y
  | .set node _ _ _ => node<k
  | .coalesce _ => True

/-- All framebuffers have one size. -/
structure Surface.Uniform (s : Surface) (size : FbSize) : Prop where
  /-- The main one has it. -/
  main : s.main.size=size
  /-- The others have it. -/
  fbs : ∀ fb∈s.fbs,fb.size=size

/-- The index of a pixel in a framebuffer of the given size. -/
def cell (size : FbSize) (x y : UInt32) : ℕ := (y*size.width+x).toNat

/-- The pixel that a command stores to, if it is in bounds and in the block. -/
def target (size : FbSize) (x y : UInt32) : Option ℕ :=
  if size.Contains x y ∧ cell size x y<size.product then some (cell size x y) else none

/-- What a node framebuffer's pixel has pending. -/
def layerOf (pixel : FbPixel) : Option FbPixel := if pixel.alpha=0 then none else some pixel

/-- An operation on `k` node framebuffers, as one on a write buffer. -/
def bufferOp (size : FbSize) (k : ℕ) : SurfaceOp → Op ℕ (Option ℕ) FbPixel
  | .draw node x y pixel => .put node (target size x y) (layerOf pixel)
  | .set node x y pixel => .put node (target size x y) (layerOf pixel)
  | .coalesce rand => .merge ((arrayShuffle rand (List.range k)).getD [])

/-- A surface shows a write buffer: the main framebuffer its base, the node
framebuffers its layers. -/
structure Shows (size : FbSize) (k : ℕ) (b : Buffer ℕ (Option ℕ) FbPixel) (s : Surface) : Prop where
  /-- All framebuffers have the size. -/
  uniform : s.Uniform size
  /-- There are `k` node framebuffers. -/
  length : s.fbs.length=k
  /-- The main framebuffer is the base. -/
  base : ∀ i,s.main.pixels i=b.base (some i)
  /-- Marked pixels of node framebuffers are the pending ones. -/
  layer : ∀ node fb, s.fbs[node]?=some fb → ∀ i<size.product,
    layerOf (fb.pixels i)=b.layer node (some i)
  /-- Nothing is pending behind the block. -/
  beyond : ∀ node i, size.product ≤ i → b.layer node (some i)=none

/-- The write buffer that a surface shows. -/
def bufferOf (s : Surface) : Buffer ℕ (Option ℕ) FbPixel where
  base i := s.main.pixels (i.getD 0)
  layer node i := if i.getD 0<s.main.size.product then layerOf (pixelOn s.fbs node (i.getD 0)) else none

variable {build : Build} {size : FbSize} {k : ℕ} {b : Buffer ℕ (Option ℕ) FbPixel} {s : Surface}

/-- Every surface of one size shows its write buffer. -/
theorem shows_bufferOf (h : s.Uniform size) : Shows size s.fbs.length (bufferOf s) s where
  uniform := h
  length := rfl
  base _ := rfl
  layer node fb hfb i hi := by
    dsimp only [bufferOf,pixelOn,Option.getD_some]
    rw [h.main,if_pos hi,hfb,Option.map_some,Option.getD_some]
  beyond node i hi := by
    dsimp only [bufferOf,Option.getD_some]
    rw [h.main,if_neg (Nat.not_lt.mpr hi)]

/-- Without blending a merge shows the pending pixel, if there is one. -/
theorem mergePixel_eq (hblend : build.featureAlphaBlending=false) (fb other : FbPixel) :
    mergePixel build fb other=(layerOf other).getD fb := by
  unfold mergePixel layerOf
  rw [hblend]
  split <;> rfl

/-- A cleared pixel is not pending. -/
theorem layerOf_setAlpha (pixel : FbPixel) : layerOf (pixel.setAlpha 0)=none := if_pos rfl

/-- A pixel of the block is a command's target when the command is in bounds
and has its index. -/
theorem target_eq_some {x y : UInt32} {i : ℕ} (hi : i<size.product) :
    target size x y=some i ↔ size.Contains x y ∧ cell size x y=i := by
  unfold target
  split
  · rename_i h
    rw [Option.some.injEq,and_iff_right h.1]
  · rename_i h
    constructor
    · intro hc
      exact absurd hc.symm (Option.some_ne_none i)
    · rintro ⟨hin,rfl⟩
      exact absurd ⟨hin,hi⟩ h

/-- No pixel behind the block is a target. -/
theorem target_ne_some {x y : UInt32} {i : ℕ} (hi : size.product ≤ i) : target size x y≠some i := by
  unfold target
  split
  · rename_i h
    intro hc
    have he := Option.some.inj hc
    have hlt := h.2
    omega
  · exact fun hc => Option.some_ne_none i hc.symm

/-- Out of bounds there is no target. -/
theorem target_eq_none {x y : UInt32} (h : ¬size.Contains x y) : target size x y=none :=
  if_neg fun hc => h hc.1

/-- A put keeps what lies behind the block. -/
theorem Shows.beyond_put (h : Shows size k b s) (node : ℕ) (x y : UInt32) (v : Option FbPixel)
    (node' i : ℕ) (hi : size.product ≤ i) :
    (b.step (.put node (target size x y) v)).layer node' (some i)=none :=
  (if_neg fun hc => target_ne_some hi hc.2.symm).trans (h.beyond node' i hi)

/-- Storing a pixel into a node framebuffer puts it into its layer. -/
theorem Shows.put (h : Shows size k b s) {node : ℕ} {fb out : Fb} {x y : UInt32} {pixel : FbPixel}
    (hfb : s.fbs[node]?=some fb) (hin : size.Contains x y) (hsize : out.size=fb.size)
    (hpixels : out.pixels=writePixel fb.pixels (cell size x y) pixel) :
    Shows size k (b.step (.put node (target size x y) (layerOf pixel)))
      {s with fbs := s.fbs.set node out} := by
  have hlt : node<s.fbs.length := (List.getElem?_eq_some_iff.mp hfb).1
  refine ⟨⟨h.uniform.main,fun other hmem => ?_⟩,?_,h.base,fun node' fb' hfb' i hi => ?_,
    h.beyond_put node x y _⟩
  · rcases List.mem_or_eq_of_mem_set hmem with hold | rfl
    · exact h.uniform.fbs other hold
    · rw [hsize]
      exact h.uniform.fbs fb (List.mem_of_getElem? hfb)
  · rw [←h.length]
    exact List.length_set
  · dsimp only at hfb'
    dsimp only [Buffer.step]
    have htarget := @target_eq_some size x y i hi
    by_cases hnode : node'=node
    · rw [hnode,List.getElem?_set_self hlt] at hfb'
      cases hfb'
      rw [hpixels,writePixel]
      by_cases hi' : i=cell size x y
      · rw [if_pos hi',if_pos ⟨hnode,(htarget.mpr ⟨hin,hi'.symm⟩).symm⟩]
      · rw [if_neg hi',if_neg fun hc => hi' (htarget.mp hc.2.symm).2.symm,hnode]
        exact h.layer node fb hfb i hi
    · rw [List.getElem?_set_ne fun hc => hnode hc.symm] at hfb'
      rw [if_neg fun hc => hnode hc.1]
      exact h.layer node' fb' hfb' i hi

/-- Storing nowhere puts a value that no pixel shows. -/
theorem Shows.put_nowhere (h : Shows size k b s) {node : ℕ} {x y : UInt32} {pixel : FbPixel}
    (hout : ¬size.Contains x y) :
    Shows size k (b.step (.put node (target size x y) (layerOf pixel))) s := by
  refine ⟨h.uniform,h.length,h.base,fun node' fb' hfb' i hi => ?_,h.beyond_put node x y _⟩
  dsimp only [Buffer.step]
  rw [if_neg fun hc => hout ((target_eq_some hi).mp hc.2.symm).1]
  exact h.layer node' fb' hfb' i hi

/-- Coalescing merges the layers. -/
theorem Shows.coalesce (hblend : build.featureAlphaBlending=false) (h : Shows size k b s)
    (rand : Rand) :
    ∃ s', surfaceStep build s (.coalesce rand)=some (0,s') ∧
      Shows size k (b.step (bufferOp size k (.coalesce rand))) s' := by
  obtain ⟨order,hshuffle,hperm,hrun⟩ := fbCoalesce_eq build rand h.uniform.main h.uniform.fbs
  rw [h.length] at hshuffle hperm
  have hop : bufferOp size k (.coalesce rand)=.merge order := by
    rw [bufferOp,hshuffle,Option.getD_some]
  rw [hop,surfaceStep,hrun]
  refine ⟨_,rfl,⟨h.uniform.main,fun other hmem => ?_⟩,?_,fun i => ?_,fun node fb hfb i hi => ?_,
    fun node i hi => ?_⟩
  · obtain ⟨fb,hfb,rfl⟩ := List.mem_map.mp hmem
    exact h.uniform.fbs fb hfb
  · rw [←h.length]
    exact List.length_map _
  · dsimp only [merged,Buffer.step]
    by_cases hi : i<size.product
    · rw [if_pos hi,mergeAll,h.base i,overlay,List.foldl_map]
      refine List.foldl_ext _ _ _ fun under node hnode => ?_
      have hlt : node<s.fbs.length := by
        rw [h.length]
        exact List.mem_range.mp (hperm.mem_iff.mp hnode)
      rw [mergePixel_eq hblend,←h.layer node _ (List.getElem?_eq_getElem hlt) i hi,pixelOn,
        List.getElem?_eq_getElem hlt,Option.map_some,Option.getD_some]
    · rw [if_neg hi,h.base i,overlay_of_none]
      intro v hv
      obtain ⟨node,_,rfl⟩ := List.mem_map.mp hv
      exact h.beyond node i (Nat.le_of_not_lt hi)
  · dsimp only at hfb
    rw [List.getElem?_map,Option.map_eq_some_iff] at hfb
    obtain ⟨old,hold,rfl⟩ := hfb
    have hmem : node∈order := hperm.mem_iff.mpr (List.mem_range.mpr (by
      rw [←h.length]
      exact (List.getElem?_eq_some_iff.mp hold).1))
    rw [merge_layer b hmem]
    dsimp only [cleared]
    rw [if_pos hi,layerOf_setAlpha]
  · dsimp only [Buffer.step]
    split
    · rfl
    · exact h.beyond node i hi

/-- Every allowed operation succeeds, and the write buffer follows it. -/
theorem surfaceStep_shows (hblend : build.featureAlphaBlending=false) (h : Shows size k b s)
    {op : SurfaceOp} (hop : Allowed size k op) :
    ∃ s', surfaceStep build s op=some (0,s') ∧ Shows size k (b.step (bufferOp size k op)) s' := by
  cases op with
  | draw node x y pixel =>
    obtain ⟨hnode,hin⟩ := hop
    rw [←h.length] at hnode
    have hget := List.getElem?_eq_getElem hnode
    have hsize : s.fbs[node].size=size := h.uniform.fbs _ (List.getElem_mem hnode)
    have hset : fbSetPixel s.fbs[node] x y pixel=some {s.fbs[node] with
        pixels := writePixel s.fbs[node].pixels (cell size x y) pixel} := by
      rw [←hsize] at hin ⊢
      exact if_pos hin
    rw [surfaceStep,hget]
    dsimp only
    rw [hset]
    exact ⟨_,rfl,h.put hget hin rfl rfl⟩
  | set node x y pixel =>
    have hnode : node<s.fbs.length := by rw [h.length]; exact hop
    have hget := List.getElem?_eq_getElem hnode
    have hsize : s.fbs[node].size=size := h.uniform.fbs _ (List.getElem_mem hnode)
    rw [surfaceStep,hget]
    dsimp only
    by_cases hin : size.Contains x y
    · obtain ⟨out,fb,hdraw,hsame,hpixels,hplain⟩ :=
        @netDraw_inside ⟨build,s.main,takingSocket⟩ x y pixel (freshSession s.fbs[node])
          (by rw [←hsize] at hin; exact hin)
      rw [hplain hblend] at hpixels
      rw [hdraw,if_pos rfl]
      refine ⟨_,rfl,h.put hget hin hsame (hpixels.trans ?_)⟩
      rw [←hsize]
      rfl
    · rw [netDraw_outside _ pixel (by rw [←hsize] at hin; exact hin),if_pos rfl]
      refine ⟨_,rfl,?_⟩
      dsimp only [freshSession]
      rw [List.set_getElem_self]
      exact h.put_nowhere hin
  | coalesce rand => exact h.coalesce hblend rand

/-- Every run of allowed operations succeeds, and the write buffer follows
it. -/
theorem run_shows (hblend : build.featureAlphaBlending=false) (h : Shows size k b s)
    {ops : List SurfaceOp} (hops : ∀ op∈ops,Allowed size k op) :
    ∃ replies s', run (surfaceStep build) s ops=some (replies,s') ∧ (∀ r∈replies,r=0) ∧
      Shows size k ((ops.map (bufferOp size k)).foldl Buffer.step b) s' := by
  induction ops generalizing b s with
  | nil => exact ⟨[],s,rfl,fun r hr => absurd hr List.not_mem_nil,h⟩
  | cons op ops ih =>
    obtain ⟨hop,hrest⟩ := List.forall_mem_cons.mp hops
    obtain ⟨mid,hstep,hmid⟩ := surfaceStep_shows hblend h hop
    obtain ⟨replies,s',hrun,hzero,hend⟩ := ih hmid hrest
    refine ⟨0::replies,s',?_,List.forall_mem_cons.mpr ⟨rfl,hzero⟩,hend⟩
    rw [run_cons ops hstep,hrun,Option.map_some]

/-- Reading a pixel on the surface. -/
theorem fbGetPixel_of_contains {fb : Fb} (hfb : fb.size=size) {x y : UInt32}
    (hin : size.Contains x y) : fbGetPixel fb x y=some (fb.pixels (cell size x y)) := by
  rw [←hfb] at hin ⊢
  exact if_pos hin

/-- Indices of pixels on a surface of moderate size. -/
theorem cell_eq (hfit : size.width.toNat*size.height.toNat<2^32) {x y : UInt32}
    (h : size.Contains x y) : cell size x y=y.toNat*size.width.toNat+x.toNat :=
  @fbIndex_eq ⟨size,0,fun _ => default,0,0⟩ hfit x y h

/-- They are inside the block. -/
theorem cell_lt_product (hfit : size.width.toNat*size.height.toNat<2^32) {x y : UInt32}
    (h : size.Contains x y) : cell size x y<size.product := by
  have hx : x.toNat<size.width.toNat := UInt32.lt_iff_toNat_lt.mp h.1
  have hy : y.toNat<size.height.toNat := UInt32.lt_iff_toNat_lt.mp h.2
  rw [cell_eq hfit h,FbSize.product,UInt32.toNat_mul,Nat.mod_eq_of_lt hfit]
  nlinarith

/-- Different pixels have different indices. -/
theorem cell_inj (hfit : size.width.toNat*size.height.toNat<2^32) {x y x' y' : UInt32}
    (h : size.Contains x y) (h' : size.Contains x' y') :
    cell size x y=cell size x' y' ↔ x=x' ∧ y=y' := by
  have hx : x.toNat<size.width.toNat := UInt32.lt_iff_toNat_lt.mp h.1
  have hx' : x'.toNat<size.width.toNat := UInt32.lt_iff_toNat_lt.mp h'.1
  rw [cell_eq hfit h,cell_eq hfit h',←UInt32.toNat_inj,←UInt32.toNat_inj]
  constructor
  · intro heq
    have hpos : 0<size.width.toNat := by omega
    have hdiv := congrArg (·/size.width.toNat) heq
    have hmod := congrArg (·%size.width.toNat) heq
    simp only [Nat.mul_comm _ size.width.toNat,Nat.mul_add_div hpos,Nat.mul_add_mod,
      Nat.div_eq_of_lt hx,Nat.div_eq_of_lt hx',Nat.mod_eq_of_lt hx,Nat.mod_eq_of_lt hx'] at hdiv hmod
    exact ⟨hmod,by omega⟩
  · rintro ⟨hxx,hyy⟩
    rw [hxx,hyy]

end Shoreline.Drawing
