import Mathlib.Data.List.Perm.Basic
import Mathlib.Data.List.Nodup
import Mathlib.Data.List.TakeWhile
import Shoreline.Framebuffer
import Shoreline.Library.SwapShuffle

/-!
# Merging node framebuffers into the main one

`fb_coalesce` with the shuffle of the list positions, for every outcome of
`rand`. Its effect is stated once: on framebuffers of one size it merges
every pixel through all node framebuffers, in some order of them, and leaves
no pixel of theirs marked as drawn.
-/

namespace Shoreline.Coalesce

open Framebuffer SwapShuffle

/-- `rand`, as the outcomes of its successive calls. -/
structure Rand where
  /-- `RAND_MAX`. -/
  max : ℕ
  /-- One call. -/
  value : ℕ → ℕ
  /-- No call exceeds the maximum. -/
  value_le : ∀ call, value call ≤ max

/-- A `rand` that always returns zero. -/
def zeroRand : Rand := ⟨2147483647,fun _ => 0,fun _ => Nat.zero_le _⟩

/-- One round of `ARRAY_SHUFFLE`: swap position `i` with a random one from
there on. `none` is an access outside the array. -/
def arrayShuffleRound (rand : Rand) (arr : List ℕ) (i : ℕ) : Option (List ℕ) :=
  let j := i+rand.value i/(rand.max/(arr.length-i)+1)
  match arr[i]?,arr[j]? with
  | some a,some b => some ((arr.set j a).set i b)
  | _,_ => none

/-- `ARRAY_SHUFFLE`. -/
def arrayShuffle (rand : Rand) (arr : List ℕ) : Option (List ℕ) :=
  (List.range (arr.length-1)).foldlM (arrayShuffleRound rand) arr

/-- What becomes of a pixel of the main framebuffer below a pixel of another. -/
def mergePixel (build : Build) (fb other : FbPixel) : FbPixel :=
  if other.alpha=0 then fb
  else if build.featureAlphaBlending then
    if other.alpha=0xff then other else fbAlphaBlendPixel build.host other fb
  else other

/-- The pixel loop of `fb_coalesce` over the first `n` pixels. -/
def coalescePixels (build : Build) (fb other : Fb) : ℕ → Fb×Fb
  | 0 => (fb,other)
  | j+1 =>
    let out := coalescePixels build fb other j
    if (out.2.pixels j).alpha=0 then out
    else
      let pixel := mergePixel build (out.1.pixels j) (out.2.pixels j)
      ({out.1 with pixels := writePixel out.1.pixels j pixel},
        {out.2 with pixels := writePixel out.2.pixels j ((out.2.pixels j).setAlpha 0)})

/-- Result of `fb_coalesce`. -/
structure CoalesceReport where
  /-- Zero, or a negated error number. -/
  ret : ℤ
  /-- The main framebuffer. -/
  fb : Fb
  /-- The list. -/
  fbs : List Fb

/-- The loop of `fb_coalesce` over shuffled list positions. `none` is a
position outside the list. -/
def coalesceLoop (build : Build) : List ℕ → Fb → List Fb → Option CoalesceReport
  | [],fb,fbs => some ⟨0,fb,fbs⟩
  | i::indices,fb,fbs =>
    match fbs[i]? with
    | none => none
    | some other =>
      if fb.size.width≠other.size.width ∨ fb.size.height≠other.size.height then
        some ⟨-EINVAL,fb,fbs⟩
      else
        let out := coalescePixels build fb other fb.size.product
        coalesceLoop build indices out.1 (fbs.set i out.2)

/-- `fb_coalesce`. -/
def fbCoalesce (build : Build) (rand : Rand) (fb : Fb) (fbs : List Fb) : Option CoalesceReport :=
  (arrayShuffle rand (List.range fbs.length)).bind fun indices => coalesceLoop build indices fb fbs

/-- The random position is inside the array. -/
theorem shuffle_index_lt (rand : Rand) {n i : ℕ} (h : i<n) :
    i+rand.value i/(rand.max/(n-i)+1)<n := by
  have hle := rand.value_le i
  have hpos : 0<n-i := by omega
  have hlt : rand.value i/(rand.max/(n-i)+1)<n-i := by
    rw [Nat.div_lt_iff_lt_mul (Nat.succ_pos _),Nat.mul_comm]
    exact lt_of_le_of_lt hle (Nat.lt_mul_of_div_lt (Nat.lt_succ_self _) hpos)
  omega

/-- The index that a round of the shuffle computes. -/
def pickOf (rand : Rand) (n i : ℕ) : ℕ := i+rand.value i/(rand.max/(n-i)+1)

/-- It is inside the rest of the array. -/
theorem pickOf_bounds (rand : Rand) {n i : ℕ} (h : i<n) :
    i ≤ pickOf rand n i ∧ pickOf rand n i<n :=
  ⟨Nat.le_add_right _ _,shuffle_index_lt rand h⟩

/-- A round of the shuffle is a swap with the picked position. -/
theorem arrayShuffleRound_eq (rand : Rand) (arr : List ℕ) (i : ℕ) :
    arrayShuffleRound rand arr i=swapAt arr i (pickOf rand arr.length i) := by
  rw [arrayShuffleRound,swapAt,pickOf]
  cases arr[i]? <;> cases arr[i+rand.value i/(rand.max/(arr.length-i)+1)]? <;> rfl

/-- `ARRAY_SHUFFLE` is a shuffle by swaps with these picks. -/
theorem arrayShuffle_eq_shuffle (rand : Rand) (arr : List ℕ) :
    arrayShuffle rand arr=shuffle (pickOf rand arr.length) (List.range (arr.length-1)) arr := by
  have hrounds : ∀ rounds mid : List ℕ, mid.length=arr.length → (∀ i∈rounds,i<arr.length) →
      rounds.foldlM (arrayShuffleRound rand) mid=shuffle (pickOf rand arr.length) rounds mid := by
    intro rounds
    induction rounds with
    | nil => exact fun _ _ _ => rfl
    | cons i rounds ih =>
      intro mid hlength hin
      obtain ⟨hi,hrest⟩ := List.forall_mem_cons.mp hin
      obtain ⟨next,hswap,hperm⟩ := @swapAt_perm _ mid i (pickOf rand arr.length i)
        (by omega) (by rw [hlength]; exact (pickOf_bounds rand hi).2)
      rw [List.foldlM_cons,shuffle,List.foldlM_cons,arrayShuffleRound_eq,hlength,hswap]
      exact ih next (hperm.length_eq.trans hlength) hrest
  refine hrounds _ arr rfl fun i hi => ?_
  have hlt := List.mem_range.mp hi
  omega

/-- The picks of all rounds are inside the array. -/
theorem picks_inside (rand : Rand) (n : ℕ) :
    ∀ i∈List.range (n-1),i<n ∧ pickOf rand n i<n := by
  intro i hi
  have hlt := List.mem_range.mp hi
  have hin : i<n := by omega
  exact ⟨hin,(pickOf_bounds rand hin).2⟩

/-- The shuffle stays inside the array and permutes it. -/
theorem arrayShuffle_perm (rand : Rand) (arr : List ℕ) :
    ∃ arr', arrayShuffle rand arr=some arr' ∧ arr'.Perm arr := by
  rw [arrayShuffle_eq_shuffle]
  exact shuffle_perm (picks_inside rand arr.length)

/-- A framebuffer none of whose first pixels is marked as drawn any more. -/
def cleared (n : ℕ) (fb : Fb) : Fb :=
  {fb with pixels := fun i => if i<n then (fb.pixels i).setAlpha 0 else fb.pixels i}

/-- Storing a zero alpha over a zero alpha changes nothing. -/
theorem setAlpha_of_alpha {p : FbPixel} (h : p.alpha=0) : p.setAlpha 0=p := by
  rw [←h]
  rfl

/-- What holds below a bound holds below the next one after one more store. -/
theorem ite_lt_succ (n : ℕ) (new old : ℕ → FbPixel) :
    (fun i => if i<n+1 then new i else old i)=
      writePixel (fun i => if i<n then new i else old i) n (new n) := by
  funext i
  by_cases hi : i=n
  · rw [hi,if_pos (Nat.lt_succ_self n),writePixel,if_pos rfl]
  · have hlt : i<n+1 ↔ i<n := by omega
    simp only [hlt,writePixel,if_neg hi]

/-- Storing what is there changes nothing. -/
theorem writePixel_same {pixels : ℕ → FbPixel} {n : ℕ} {p : FbPixel} (h : pixels n=p) :
    writePixel pixels n p=pixels := by
  funext i
  rw [writePixel]
  split
  · rename_i hi
    rw [hi,h]
  · rfl

/-- The pixel loop merges every pixel up to its bound and clears its mark. -/
theorem coalescePixels_eq (build : Build) (fb other : Fb) (n : ℕ) :
    coalescePixels build fb other n=
      ({fb with pixels := fun i =>
          if i<n then mergePixel build (fb.pixels i) (other.pixels i) else fb.pixels i},
        cleared n other) := by
  induction n with
  | zero =>
    simp only [coalescePixels,cleared,Nat.not_lt_zero,if_false]
  | succ n ih =>
    rw [coalescePixels,ih,ite_lt_succ]
    simp only [cleared,lt_irrefl,if_false]
    rw [ite_lt_succ]
    by_cases hzero : (other.pixels n).alpha=0
    · -- an unmarked pixel is skipped, which is as good as storing what is there
      have hmerge : mergePixel build (fb.pixels n) (other.pixels n)=fb.pixels n := if_pos hzero
      rw [if_pos hzero,hmerge,setAlpha_of_alpha hzero,writePixel_same (if_neg (lt_irrefl n)),
        writePixel_same (if_neg (lt_irrefl n))]
    · rw [if_neg hzero]

/-- Pixel `i` of the framebuffer at a list position. -/
def pixelOn (fbs : List Fb) (k i : ℕ) : FbPixel := (fbs[k]?.map fun fb => fb.pixels i).getD default

/-- A pixel of the main framebuffer after merging list positions in order. -/
def mergeAll (build : Build) (fbs : List Fb) (order : List ℕ) (i : ℕ) (pixel : FbPixel) : FbPixel :=
  order.foldl (fun under k => mergePixel build under (pixelOn fbs k i)) pixel

/-- The main framebuffer after merging list positions in order. -/
def merged (build : Build) (n : ℕ) (fbs : List Fb) (order : List ℕ) (fb : Fb) : Fb :=
  {fb with pixels := fun i => if i<n then mergeAll build fbs order i (fb.pixels i) else fb.pixels i}

/-- Replacing one framebuffer does not concern the others. -/
theorem mergeAll_set (build : Build) (fbs : List Fb) {k : ℕ} (fb : Fb) {order : List ℕ}
    (hk : k∉order) (i : ℕ) (pixel : FbPixel) :
    mergeAll build (fbs.set k fb) order i pixel=mergeAll build fbs order i pixel := by
  induction order generalizing pixel with
  | nil => rfl
  | cons l order ih =>
    have hl : k≠l := fun h => hk (h ▸ List.mem_cons_self)
    have hrest : k∉order := fun h => hk (List.mem_cons_of_mem l h)
    rw [mergeAll,List.foldl_cons,mergeAll,List.foldl_cons,pixelOn,List.getElem?_set_ne hl]
    exact ih hrest _

/-- Where every pixel is unmarked or one that covers all others, and there is
such a one, it is left. -/
theorem mergeAll_of_only (build : Build) (fbs : List Fb) {order : List ℕ} {i : ℕ} {top : FbPixel}
    (htop : ∀ under,mergePixel build under top=top) (pixel : FbPixel)
    (h : ∀ k∈order,(pixelOn fbs k i).alpha=0 ∨ pixelOn fbs k i=top)
    (hsome : pixel=top ∨ ∃ k∈order,pixelOn fbs k i=top) :
    mergeAll build fbs order i pixel=top := by
  induction order generalizing pixel with
  | nil =>
    rcases hsome with hpixel | ⟨_,hk,_⟩
    · exact hpixel
    · exact absurd hk List.not_mem_nil
  | cons k order ih =>
    obtain ⟨hk,hrest⟩ := List.forall_mem_cons.mp h
    rw [mergeAll,List.foldl_cons]
    refine ih _ hrest ?_
    by_cases hnew : pixelOn fbs k i=top
    · rw [hnew,htop]
      exact Or.inl rfl
    · rw [mergePixel,if_pos (hk.resolve_right hnew)]
      rcases hsome with hpixel | ⟨l,hl,he⟩
      · exact Or.inl hpixel
      · have hlk : l≠k := by
          intro hlk
          rw [hlk] at he
          exact hnew he
        exact Or.inr ⟨l,(List.mem_cons.mp hl).resolve_left hlk,he⟩

/-- The comparison of both dimensions. -/
theorem sizes_differ {a b : FbSize} : (a.width≠b.width ∨ a.height≠b.height) ↔ a≠b := by
  cases a
  cases b
  simp only [ne_eq,FbSize.mk.injEq,not_and_or]

/-- The list positions in front of the first framebuffer of another size. -/
def fitting (size : FbSize) (fbs : List Fb) (order : List ℕ) : List ℕ :=
  order.takeWhile fun k => fbs[k]?.map Fb.size=some size

/-- They are positions of framebuffers of that size. -/
theorem size_of_mem_fitting {size : FbSize} {fbs : List Fb} {order : List ℕ} {k : ℕ}
    (h : k∈fitting size fbs order) : ∃ other, fbs[k]?=some other ∧ other.size=size := by
  have hsize := List.mem_takeWhile_imp h
  exact Option.map_eq_some_iff.mp (of_decide_eq_true hsize)

/-- Only the sizes at the positions matter. -/
theorem fitting_congr (size : FbSize) {fbs fbs' : List Fb} {order : List ℕ}
    (h : ∀ k∈order,fbs[k]?=fbs'[k]?) : fitting size fbs order=fitting size fbs' order := by
  induction order with
  | nil => rfl
  | cons k order ih =>
    obtain ⟨hk,hrest⟩ := List.forall_mem_cons.mp h
    have hrec := ih hrest
    rw [fitting,fitting] at hrec ⊢
    rw [List.takeWhile_cons,List.takeWhile_cons,hk,hrec]

/-- A framebuffer of the size in front of others. -/
theorem fitting_cons_of_eq {size : FbSize} {fbs : List Fb} {k : ℕ} {other : Fb}
    (hget : fbs[k]?=some other) (hsize : other.size=size) (order : List ℕ) :
    fitting size fbs (k::order)=k::fitting size fbs order := by
  rw [fitting,List.takeWhile_cons,hget,Option.map_some,hsize,decide_eq_true rfl,if_pos rfl,
    ←fitting]

/-- A framebuffer of another size in front of others. -/
theorem fitting_cons_of_ne {size : FbSize} {fbs : List Fb} {k : ℕ} {other : Fb}
    (hget : fbs[k]?=some other) (hsize : other.size≠size) (order : List ℕ) :
    fitting size fbs (k::order)=[] := by
  rw [fitting,List.takeWhile_cons,hget,Option.map_some]
  exact if_neg fun h => hsize (Option.some.inj (of_decide_eq_true h))

/-- Merging one framebuffer, and then others that are not touched by that. -/
theorem merged_cons (build : Build) (n : ℕ) {fbs : List Fb} {k : ℕ} {other : Fb}
    (hget : fbs[k]?=some other) {order : List ℕ} (hfresh : k∉order) (fb : Fb) :
    merged build n (fbs.set k (cleared n other)) order
        {fb with pixels := fun i => if i<n then
          mergePixel build (fb.pixels i) (other.pixels i) else fb.pixels i}=
      merged build n fbs (k::order) fb := by
  refine congrArg (fun pixels => {fb with pixels := pixels}) (funext fun i => ?_)
  by_cases hi : i<n
  · simp only [if_pos hi,mergeAll_set build fbs _ hfresh]
    rw [mergeAll,mergeAll,List.foldl_cons,pixelOn,hget,Option.map_some,Option.getD_some]
  · simp only [if_neg hi]

/-- The loop over distinct list positions merges the framebuffers of the size of
the main one in turn, up to the first of another size. -/
theorem coalesceLoop_merges (build : Build) {order : List ℕ} (hnodup : order.Nodup) (fb : Fb)
    {fbs : List Fb} (hin : ∀ k∈order,k<fbs.length) :
    ∃ ret fbs', coalesceLoop build order fb fbs=
        some ⟨ret,merged build fb.size.product fbs (fitting fb.size fbs order) fb,fbs'⟩ ∧
      (∀ k, fbs'[k]?=if k∈fitting fb.size fbs order then fbs[k]?.map (cleared fb.size.product)
        else fbs[k]?) ∧
      (ret=0 ∧ fitting fb.size fbs order=order ∨
        ret=-EINVAL ∧ ∃ k∈order, ∃ other, fbs[k]?=some other ∧ other.size≠fb.size) := by
  induction order generalizing fb fbs with
  | nil =>
    refine ⟨0,fbs,?_,fun k => (if_neg List.not_mem_nil).symm,Or.inl ⟨rfl,rfl⟩⟩
    simp only [coalesceLoop,merged,mergeAll,fitting,List.takeWhile_nil,List.foldl_nil,ite_self]
  | cons k order ih =>
    obtain ⟨hk,hin'⟩ := List.forall_mem_cons.mp hin
    obtain ⟨hfresh,hrest⟩ := List.nodup_cons.mp hnodup
    have hget := List.getElem?_eq_getElem hk
    by_cases hsize : fbs[k].size=fb.size
    · have hne : ∀ l∈order,(fbs.set k (cleared fb.size.product fbs[k]))[l]?=fbs[l]? :=
        fun l hl => List.getElem?_set_ne fun (h : k=l) => hfresh (h ▸ hl)
      have hinSet : ∀ l∈order,l<(fbs.set k (cleared fb.size.product fbs[k])).length := by
        intro l hl
        rw [List.length_set]
        exact hin' l hl
      obtain ⟨ret,fbs',hloop,hfbs,hret⟩ := ih hrest
        {fb with pixels := fun i => if i<fb.size.product then
          mergePixel build (fb.pixels i) (fbs[k].pixels i) else fb.pixels i} hinSet
      have hsub : k∉fitting fb.size fbs order := fun h =>
        hfresh ((List.takeWhile_prefix _).subset h)
      rw [fitting_congr fb.size hne] at hloop hfbs hret
      rw [fitting_cons_of_eq hget hsize]
      refine ⟨ret,fbs',?_,fun l => ?_,?_⟩
      · rw [coalesceLoop,hget]
        dsimp only
        rw [if_neg fun h => sizes_differ.mp h hsize.symm,coalescePixels_eq,hloop,
          merged_cons build fb.size.product hget hsub fb]
      · rw [hfbs l]
        by_cases hl : l=k
        · rw [hl,if_neg hsub,if_pos List.mem_cons_self,List.getElem?_set_self hk,hget,
            Option.map_some]
        · have hmem : l∈k::fitting fb.size fbs order ↔ l∈fitting fb.size fbs order := by
            rw [List.mem_cons,or_iff_right hl]
          simp only [hmem,List.getElem?_set_ne (fun h => hl h.symm)]
      · rcases hret with ⟨hzero,hall⟩ | ⟨herr,l,hl,other,hother,hwrong⟩
        · exact Or.inl ⟨hzero,congrArg (List.cons k) hall⟩
        · rw [hne l hl] at hother
          exact Or.inr ⟨herr,l,List.mem_cons_of_mem k hl,other,hother,hwrong⟩
    · rw [fitting_cons_of_ne hget hsize]
      refine ⟨-EINVAL,fbs,?_,fun l => (if_neg List.not_mem_nil).symm,
        Or.inr ⟨rfl,k,List.mem_cons_self,_,hget,hsize⟩⟩
      rw [coalesceLoop,hget]
      dsimp only
      rw [if_pos (sizes_differ.mpr (Ne.symm hsize))]
      simp only [merged,mergeAll,List.foldl_nil,ite_self]

/-- The loop over distinct list positions of framebuffers of one size. -/
theorem coalesceLoop_eq (build : Build) {size : FbSize} {order : List ℕ} (hnodup : order.Nodup)
    {fb : Fb} (hfb : fb.size=size) {fbs : List Fb} (hin : ∀ k∈order,k<fbs.length)
    (hsizes : ∀ other∈fbs,other.size=size) :
    ∃ fbs', coalesceLoop build order fb fbs=some ⟨0,merged build size.product fbs order fb,fbs'⟩ ∧
      ∀ k, fbs'[k]?=if k∈order then fbs[k]?.map (cleared size.product) else fbs[k]? := by
  subst hfb
  obtain ⟨ret,fbs',hloop,hfbs,hret⟩ := coalesceLoop_merges build hnodup fb hin
  rcases hret with ⟨rfl,hall⟩ | ⟨_,k,_,other,hother,hwrong⟩
  · rw [hall] at hloop hfbs
    exact ⟨fbs',hloop,hfbs⟩
  · exact absurd (hsizes other (List.mem_of_getElem? hother)) hwrong

/-- On framebuffers of one size `fb_coalesce` succeeds: every pixel of the
main one is merged through all of the list in some order, and all of theirs
are cleared. -/
theorem fbCoalesce_eq (build : Build) (rand : Rand) {size : FbSize} {fb : Fb} (hfb : fb.size=size)
    {fbs : List Fb} (hsizes : ∀ other∈fbs,other.size=size) :
    ∃ order : List ℕ, arrayShuffle rand (List.range fbs.length)=some order ∧
      order.Perm (List.range fbs.length) ∧
      fbCoalesce build rand fb fbs=
        some ⟨0,merged build size.product fbs order fb,fbs.map (cleared size.product)⟩ := by
  obtain ⟨order,hshuffle,hperm⟩ := arrayShuffle_perm rand (List.range fbs.length)
  have hmem : ∀ k, k∈order ↔ k<fbs.length := fun k => hperm.mem_iff.trans List.mem_range
  obtain ⟨fbs',hloop,hget⟩ := coalesceLoop_eq build (hperm.nodup_iff.mpr List.nodup_range) hfb
    (fun k hk => (hmem k).mp hk) hsizes
  have hfbs : fbs'=fbs.map (cleared size.product) := by
    refine List.ext_getElem? fun k => ?_
    rw [hget k,List.getElem?_map]
    split
    · rfl
    · rename_i hk
      rw [List.getElem?_eq_none (Nat.le_of_not_lt fun h => hk ((hmem k).mpr h)),Option.map_none]
  refine ⟨order,hshuffle,hperm,?_⟩
  rw [fbCoalesce,hshuffle,Option.bind_some,hloop,hfbs]

/-- Whatever the sizes are, `fb_coalesce` merges distinct list positions of the
size of the main framebuffer in turn: all of the list, or as many as come
before one of another size. -/
theorem fbCoalesce_merges (build : Build) (rand : Rand) (fb : Fb) (fbs : List Fb) :
    ∃ order ret fbs', arrayShuffle rand (List.range fbs.length)=some order ∧ order.Nodup ∧
      (∀ k, k∈order ↔ k<fbs.length) ∧
      fbCoalesce build rand fb fbs=
        some ⟨ret,merged build fb.size.product fbs (fitting fb.size fbs order) fb,fbs'⟩ ∧
      (∀ k, fbs'[k]?=if k∈fitting fb.size fbs order then fbs[k]?.map (cleared fb.size.product)
        else fbs[k]?) ∧
      (ret=0 ∧ fitting fb.size fbs order=order ∨
        ret=-EINVAL ∧ ∃ other∈fbs,other.size≠fb.size) := by
  obtain ⟨order,hshuffle,hperm⟩ := arrayShuffle_perm rand (List.range fbs.length)
  have hnodup : order.Nodup := hperm.nodup_iff.mpr List.nodup_range
  have hmem : ∀ k, k∈order ↔ k<fbs.length := fun k => hperm.mem_iff.trans List.mem_range
  obtain ⟨ret,fbs',hloop,hfbs,hret⟩ :=
    coalesceLoop_merges build hnodup fb fun k hk => (hmem k).mp hk
  refine ⟨order,ret,fbs',hshuffle,hnodup,hmem,?_,hfbs,hret.imp_right ?_⟩
  · rw [fbCoalesce,hshuffle,Option.bind_some,hloop]
  · rintro ⟨herr,k,_,other,hother,hwrong⟩
    exact ⟨herr,other,List.mem_of_getElem? hother,hwrong⟩

/-- What merging does not change about a framebuffer. -/
def shape (fb : Fb) : FbSize×ℕ := (fb.size,fb.numaNode)

/-- Replacing an element by one with the same value keeps all values. -/
theorem map_set_same {α β : Type} (f : α → β) {xs : List α} {k : ℕ} {x x' : α} (hget : xs[k]?=some x)
    (h : f x'=f x) : (xs.set k x').map f=xs.map f := by
  have hk : k<xs.length := (List.getElem?_eq_some_iff.mp hget).1
  refine List.ext_getElem? fun j => ?_
  rw [List.getElem?_map,List.getElem?_map]
  by_cases hj : j=k
  · rw [hj,List.getElem?_set_self hk,hget,Option.map_some,Option.map_some,h]
  · rw [List.getElem?_set_ne fun hc => hj hc.symm]

/-- Replacing a framebuffer by one of the same shape keeps all shapes. -/
theorem map_shape_set {fbs : List Fb} {k : ℕ} {fb fb' : Fb} (hget : fbs[k]?=some fb)
    (h : shape fb'=shape fb) : (fbs.set k fb').map shape=fbs.map shape :=
  map_set_same shape hget h

/-- The loop over list positions keeps all shapes, whatever the sizes are. -/
theorem coalesceLoop_shape (build : Build) (order : List ℕ) (fb : Fb) {fbs : List Fb}
    (hin : ∀ k∈order,k<fbs.length) :
    ∃ out, coalesceLoop build order fb fbs=some out ∧ shape out.fb=shape fb ∧
      out.fbs.map shape=fbs.map shape := by
  induction order generalizing fb fbs with
  | nil => exact ⟨_,rfl,rfl,rfl⟩
  | cons k order ih =>
    obtain ⟨hk,hrest⟩ := List.forall_mem_cons.mp hin
    have hget := List.getElem?_eq_getElem hk
    rw [coalesceLoop,hget]
    dsimp only
    split
    · exact ⟨_,rfl,rfl,rfl⟩
    · rw [coalescePixels_eq]
      obtain ⟨out,hloop,hfb,hfbs⟩ := @ih _ (fbs.set k (cleared fb.size.product fbs[k]))
        fun l hl => by rw [List.length_set]; exact hrest l hl
      exact ⟨out,hloop,hfb,hfbs.trans (map_shape_set hget rfl)⟩

/-- `fb_coalesce` stays inside the list and keeps all shapes. -/
theorem fbCoalesce_shape (build : Build) (rand : Rand) (fb : Fb) (fbs : List Fb) :
    ∃ out, fbCoalesce build rand fb fbs=some out ∧ shape out.fb=shape fb ∧
      out.fbs.map shape=fbs.map shape := by
  obtain ⟨order,hshuffle,hperm⟩ := arrayShuffle_perm rand (List.range fbs.length)
  rw [fbCoalesce,hshuffle,Option.bind_some]
  exact coalesceLoop_shape build order fb fun k hk => List.mem_range.mp (hperm.mem_iff.mp hk)

end Shoreline.Coalesce
