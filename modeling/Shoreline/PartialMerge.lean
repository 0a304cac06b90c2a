import Shoreline.Addressing
import Shoreline.Coalesce

/-!
# Merging framebuffers of different sizes

`fb_coalesce` stops at the first framebuffer that does not have the size of
the main one. Until then it has taken the others in turn, each of them as a
whole, and it does not touch those that are left: what was drawn on them is
merged another time.
-/

namespace Shoreline.PartialMerge

open Framebuffer NetConnection Coalesce

/-- A pixel that something was drawn on. -/
def Drawn (host : Host) (p : FbPixel) : Prop := (channels host p).alpha≠0

instance (host : Host) (p : FbPixel) : Decidable (Drawn host p) :=
  inferInstanceAs (Decidable (_≠_))

/-- The first pixels of a framebuffer that are drawn, copied over another. -/
def copyDrawn (host : Host) (n : ℕ) (fb other : Fb) : Fb :=
  {fb with pixels := fun i =>
    if i<n ∧ Drawn host (other.pixels i) then other.pixels i else fb.pixels i}

/-- Framebuffers of the list copied over the main one, in turn. -/
def copiedInTurn (host : Host) (n : ℕ) (fbs : List Fb) (order : List ℕ) (fb : Fb) : Fb :=
  order.foldl (fun fb k => (fbs[k]?.map (copyDrawn host n fb)).getD fb) fb

/-- The number of pixels of a framebuffer. -/
def pixelTotal (size : FbSize) : ℕ := size.width.toNat*size.height.toNat

/-- A call of `fb_coalesce` merged the listed positions in turn, each as a
whole, and left everything else alone. -/
structure Merged (host : Host) (fb : Fb) (fbs : List Fb) (out : CoalesceReport) (order : List ℕ) :
    Prop where
  /-- No position occurs twice. -/
  nodup : order.Nodup
  /-- All of them are in the list and have the main size. -/
  sizes : ∀ k∈order, ∃ other, fbs[k]?=some other ∧ other.size=fb.size
  /-- Their drawn pixels are copied to the main framebuffer. -/
  main : out.fb=copiedInTurn host (pixelTotal fb.size) fbs order fb
  /-- Of their pixels only the alpha is reset, of the others nothing changes. -/
  list : ∀ k, out.fbs[k]?=
    if k∈order then fbs[k]?.map (cleared (pixelTotal fb.size)) else fbs[k]?
  /-- The size of the main framebuffer is the same. -/
  mainSize : out.fb.size=fb.size
  /-- The list has the same sizes in the same order. -/
  listSizes : out.fbs.map Fb.size=fbs.map Fb.size

/-- On a little-endian host, without blending, a merge copies drawn pixels. -/
theorem mergePixel_eq_ite {build : Build} (hblend : build.featureAlphaBlending=false)
    (hhost : build.host=.littleEndian) (fb other : FbPixel) :
    mergePixel build fb other=if Drawn build.host other then other else fb := by
  have hdrawn : Drawn build.host other ↔ other.alpha≠0 := by
    rw [hhost]
    exact Iff.rfl
  rw [mergePixel,hblend]
  by_cases hzero : other.alpha=0
  · rw [if_pos hzero,if_neg fun h => hdrawn.mp h hzero]
  · rw [if_neg hzero,if_pos (hdrawn.mpr hzero)]
    rfl

/-- Merging pixel by pixel is copying framebuffer by framebuffer. -/
theorem merged_eq_copiedInTurn {build : Build} (hblend : build.featureAlphaBlending=false)
    (hhost : build.host=.littleEndian) (n : ℕ) (fbs : List Fb) {order : List ℕ}
    (hin : ∀ k∈order,k<fbs.length) (fb : Fb) :
    merged build n fbs order fb=copiedInTurn build.host n fbs order fb := by
  induction order generalizing fb with
  | nil => simp only [merged,mergeAll,copiedInTurn,List.foldl_nil,ite_self]
  | cons k order ih =>
    obtain ⟨hk,hrest⟩ := List.forall_mem_cons.mp hin
    have hget := List.getElem?_eq_getElem hk
    rw [copiedInTurn,List.foldl_cons,hget,Option.map_some,Option.getD_some,←copiedInTurn,
      ←ih hrest]
    refine congrArg (fun pixels => {fb with pixels := pixels}) (funext fun i => ?_)
    by_cases hi : i<n
    · rw [if_pos hi,if_pos hi,mergeAll,mergeAll,List.foldl_cons,pixelOn,hget,Option.map_some,
        Option.getD_some,mergePixel_eq_ite hblend hhost]
      simp only [copyDrawn,hi,true_and]
    · simp only [copyDrawn,hi,false_and,if_false]

/-- A mismatch of sizes loses no drawn pixel: `fb_coalesce` succeeds exactly if
all framebuffers of the list have the main size, and then each of them is
merged once; otherwise it has merged some of them completely and not touched
the others. -/
theorem coalesce_mismatch {build : Build} (hblend : build.featureAlphaBlending=false)
    (hhost : build.host=.littleEndian) (rand : Rand) {fb : Fb} {fbs : List Fb}
    (hfit : ∀ other∈fb::fbs,pixelTotal other.size<2^32) :
    ∃ out order, fbCoalesce build rand fb fbs=some out ∧ Merged build.host fb fbs out order ∧
      (out.ret=0 ∨ out.ret=-EINVAL) ∧ (out.ret=0 ↔ ∀ other∈fbs,other.size=fb.size) ∧
      (out.ret=0 → order.Perm (List.range fbs.length)) := by
  have htotal : fb.size.product=pixelTotal fb.size := by
    rw [Addressing.product_eq]
    exact Nat.mod_eq_of_lt (hfit fb List.mem_cons_self)
  obtain ⟨order,ret,fbs',_,hnodup,hmem,hrun,hfbs,hret⟩ := fbCoalesce_merges build rand fb fbs
  obtain ⟨out,hshape,_,hlist⟩ := fbCoalesce_shape build rand fb fbs
  rw [hrun] at hshape
  cases hshape
  have hfitting : fitting fb.size fbs order<+:order := List.takeWhile_prefix _
  have hin : ∀ k∈fitting fb.size fbs order,k<fbs.length := fun k hk =>
    (hmem k).mp (hfitting.subset hk)
  have hfailed : (-EINVAL : ℤ)≠0 := by decide
  rw [htotal] at hrun hfbs
  refine ⟨_,fitting fb.size fbs order,hrun,⟨hnodup.sublist hfitting.sublist,
    fun k => size_of_mem_fitting,?_,hfbs,rfl,?_⟩,?_,?_,fun hzero => ?_⟩
  · exact merged_eq_copiedInTurn hblend hhost _ fbs hin fb
  · have hmap := congrArg (List.map Prod.fst) hlist
    rw [List.map_map,List.map_map] at hmap
    exact hmap
  · exact hret.imp And.left And.left
  · rcases hret with ⟨rfl,hall⟩ | ⟨rfl,other,hother,hwrong⟩
    · refine iff_of_true rfl fun other hother => ?_
      obtain ⟨k,hk,rfl⟩ := List.getElem_of_mem hother
      have hk' := (hmem k).mpr hk
      rw [←hall] at hk'
      obtain ⟨other,hget,hsize⟩ := size_of_mem_fitting hk'
      rw [List.getElem?_eq_getElem hk] at hget
      rw [Option.some.inj hget]
      exact hsize
    · exact iff_of_false hfailed fun h => hwrong (h other hother)
  · rcases hret with ⟨_,hall⟩ | ⟨rfl,_⟩
    · rw [hall]
      exact (List.perm_ext_iff_of_nodup hnodup List.nodup_range).mpr fun k => by
        rw [hmem,List.mem_range]
    · exact absurd hzero hfailed

/-- A main and two node framebuffers, the second of another size. -/
theorem coalesce_mismatch_two :
    let fbs := [blankFb 4 4,blankFb 5 4]
    ∃ out order, fbCoalesce (plainEnv 4 4).build zeroRand (blankFb 4 4) fbs=some out ∧
      Merged (plainEnv 4 4).build.host (blankFb 4 4) fbs out order ∧ (out.ret=0 ∨ out.ret=-EINVAL) ∧
      (out.ret=0 ↔ ∀ other∈fbs,other.size=⟨4,4⟩) ∧
      (out.ret=0 → order.Perm (List.range 2)) :=
  coalesce_mismatch rfl rfl zeroRand (by decide)

/-- Behind a copy in turn, a pixel is that of a framebuffer on which it was
drawn, or no framebuffer has it drawn. -/
theorem copiedInTurn_pixel (host : Host) {n i : ℕ} (hi : i<n) (fbs : List Fb) (order : List ℕ)
    (fb : Fb) :
    (∃ k∈order, ∃ other, fbs[k]?=some other ∧ Drawn host (other.pixels i) ∧
        (copiedInTurn host n fbs order fb).pixels i=other.pixels i) ∨
      ((∀ k∈order, ∀ other, fbs[k]?=some other → ¬Drawn host (other.pixels i)) ∧
        (copiedInTurn host n fbs order fb).pixels i=fb.pixels i) := by
  induction order generalizing fb with
  | nil => exact Or.inr ⟨fun k hk => absurd hk List.not_mem_nil,rfl⟩
  | cons k order ih =>
    rw [copiedInTurn,List.foldl_cons,←copiedInTurn]
    rcases ih ((fbs[k]?.map (copyDrawn host n fb)).getD fb) with ⟨l,hl,h⟩ | ⟨hnone,hpixel⟩
    · exact Or.inl ⟨l,List.mem_cons_of_mem k hl,h⟩
    · rw [hpixel]
      cases hget : fbs[k]? with
      | none =>
        refine Or.inr ⟨List.forall_mem_cons.mpr ⟨fun other h => ?_,hnone⟩,rfl⟩
        rw [hget] at h
        cases h
      | some other =>
        rw [Option.map_some,Option.getD_some]
        by_cases hdrawn : Drawn host (other.pixels i)
        · exact Or.inl ⟨k,List.mem_cons_self,other,hget,hdrawn,if_pos ⟨hi,hdrawn⟩⟩
        · refine Or.inr ⟨List.forall_mem_cons.mpr ⟨fun other' h => ?_,hnone⟩,
            if_neg fun h => hdrawn h.2⟩
          rw [hget] at h
          cases h
          exact hdrawn

/-- A drawn pixel is still where it was drawn, or the main framebuffer shows it
or another one that was drawn in its place. -/
theorem Merged.not_lost {host : Host} {fb other : Fb} {fbs : List Fb} {out : CoalesceReport}
    {order : List ℕ} (h : Merged host fb fbs out order) {k i : ℕ} (hget : fbs[k]?=some other)
    (hi : i<pixelTotal fb.size) (hdrawn : Drawn host (other.pixels i)) :
    out.fbs[k]?=some other ∨ ∃ l∈order, ∃ top, fbs[l]?=some top ∧ Drawn host (top.pixels i) ∧
      out.fb.pixels i=top.pixels i := by
  by_cases hk : k∈order
  · rw [h.main]
    rcases copiedInTurn_pixel host hi fbs order fb with hshown | ⟨hnone,_⟩
    · exact Or.inr hshown
    · exact absurd hdrawn (hnone k hk other hget)
  · refine Or.inl ?_
    rw [h.list,if_neg hk,hget]

end Shoreline.PartialMerge
