import Mathlib.Tactic.Linarith
import Shoreline.Coalesce
import Shoreline.Library.SwapShuffle

/-!
# The random order

`ARRAY_SHUFFLE` in the arithmetic of `size_t`, for arrays of any entries. No
wrap around and no division by zero can occur, every index lies between the
current position and the end, and as long as the array is not too long for
`RAND_MAX` every order comes out for some outcomes of `rand`.
-/

namespace Shoreline.Shuffle

open Coalesce SwapShuffle

/-- `i + rand() / (RAND_MAX / ((len) - i) + 1)`, where the two `int` values
meet a `size_t`. A division by zero is `none`. -/
def shuffleIndex (randMax rand len i : UInt64) : Option UInt64 :=
  let left := len-i
  if left=0 then none
  else
    let divisor := randMax/left+1
    if divisor=0 then none else some (i+rand/divisor)

/-- The array and the indices computed so far, with the positions they were
computed for. -/
structure Shuffled (α : Type*) where
  arr : List α
  indices : List (UInt64×UInt64)

variable {α : Type*}

/-- The loop of `ARRAY_SHUFFLE`; one unit of fuel per test of its condition.
`none` is a division by zero, an access outside the array, or too little
fuel. -/
def shuffleLoop (rand : Rand) (len : UInt64) : ℕ → UInt64 → Shuffled α → Option (Shuffled α)
  | 0,_,_ => none
  | fuel+1,i,s =>
    if i+1<len then
      match shuffleIndex (UInt64.ofNat rand.max) (UInt64.ofNat (rand.value i.toNat)) len i with
      | none => none
      | some j =>
        match swapAt s.arr i.toNat j.toNat with
        | none => none
        | some arr => shuffleLoop rand len fuel (i+1) ⟨arr,s.indices++[(i,j)]⟩
    else some s

/-- `ARRAY_SHUFFLE` on an array of the given length. -/
def arrayShuffleSize (rand : Rand) (arr : List α) : Option (Shuffled α) :=
  shuffleLoop rand (UInt64.ofNat arr.length) (arr.length+1) 0 ⟨arr,[]⟩

/-- Numbers below 2^64 are their own `size_t` values. -/
theorem toNat_size {n : ℕ} (h : n<2^64) : (UInt64.ofNat n).toNat=n := UInt64.toNat_ofNat_of_lt' h

/-- The arithmetic of `size_t` computes it without wrapping around. -/
theorem shuffleIndex_eq (rand : Rand) (hint : rand.max<2^31) {n i : ℕ} (hi : i<n) (hn : n<2^64) :
    shuffleIndex (UInt64.ofNat rand.max) (UInt64.ofNat (rand.value i)) (UInt64.ofNat n)
      (UInt64.ofNat i)=some (UInt64.ofNat (pickOf rand n i)) := by
  have hvalue := rand.value_le i
  have hpick := (pickOf_bounds rand hi).2
  have hleft : (UInt64.ofNat n-UInt64.ofNat i).toNat=n-i := by
    rw [UInt64.toNat_sub_of_le _ _ (by
      rw [UInt64.le_iff_toNat_le,toNat_size (hi.trans hn),
        toNat_size hn]
      exact hi.le),toNat_size hn,toNat_size (hi.trans hn)]
  have hquot : rand.max/(n-i) ≤ rand.max := Nat.div_le_self _ _
  have hdivisor : (UInt64.ofNat rand.max/(UInt64.ofNat n-UInt64.ofNat i)+1).toNat=
      rand.max/(n-i)+1 := by
    rw [UInt64.toNat_add,UInt64.toNat_div,hleft,toNat_size (by omega)]
    exact Nat.mod_eq_of_lt (by change rand.max/(n-i)+1<2^64; omega)
  unfold shuffleIndex
  dsimp only
  rw [if_neg,if_neg]
  · refine congrArg some (UInt64.toNat_inj.mp ?_)
    rw [UInt64.toNat_add,UInt64.toNat_div,hdivisor,toNat_size (hi.trans hn),
      toNat_size (by omega),toNat_size (hpick.trans hn)]
    exact Nat.mod_eq_of_lt (hpick.trans hn)
  · intro h
    rw [h] at hdivisor
    exact absurd hdivisor (by simp)
  · intro h
    rw [h] at hleft
    simp only [UInt64.toNat_zero] at hleft
    omega

/-- Sums of positions and one, inside a `size_t`. -/
theorem ofNat_add_one_lt {n i : ℕ} (hi : i<n) (hn : n<2^64) :
    UInt64.ofNat i+1<UInt64.ofNat n ↔ i+1<n := by
  rw [UInt64.lt_iff_toNat_lt,UInt64.toNat_add,toNat_size hn,
    toNat_size (hi.trans hn)]
  change (i+1)%2^64<n ↔ i+1<n
  rw [Nat.mod_eq_of_lt (by omega)]

/-- The loop runs the rounds that are left, in order, and computes an index for
each of them. -/
theorem shuffleLoop_eq (rand : Rand) (hint : rand.max<2^31) {n : ℕ} (hn : n<2^64) (fuel i : ℕ)
    (hi : i<n) (hfuel : n ≤ i+fuel) {s : Shuffled α} (hlength : s.arr.length=n) :
    ∃ out, shuffleLoop rand (UInt64.ofNat n) fuel (UInt64.ofNat i) s=some out ∧
      shuffle (pickOf rand n) (List.range' i (n-1-i)) s.arr=some out.arr ∧
      out.indices=s.indices++(List.range' i (n-1-i)).map
        fun k => (UInt64.ofNat k,UInt64.ofNat (pickOf rand n k)) := by
  induction fuel generalizing i s with
  | zero => omega
  | succ fuel ih =>
    rw [shuffleLoop]
    by_cases hlast : i+1<n
    · have hbounds := pickOf_bounds rand hi
      obtain ⟨arr,hswap,hperm⟩ := @swapAt_perm _ s.arr i (pickOf rand n i) (by omega) (by omega)
      obtain ⟨out,hrun,harr,hindices⟩ := @ih (i+1) hlast (by omega)
        ⟨arr,s.indices++[(UInt64.ofNat i,UInt64.ofNat (pickOf rand n i))]⟩
        (hperm.length_eq.trans hlength)
      have hrounds : List.range' i (n-1-i)=i::List.range' (i+1) (n-1-(i+1)) := by
        rw [←List.range'_succ]
        congr 1
        omega
      have hnext : UInt64.ofNat i+1=UInt64.ofNat (i+1) := (UInt64.ofNat_add i 1).symm
      refine ⟨out,?_,?_,?_⟩
      · rw [if_pos ((ofNat_add_one_lt hi hn).mpr hlast),
          toNat_size (hi.trans hn),shuffleIndex_eq rand hint hi hn]
        dsimp only
        rw [toNat_size (hbounds.2.trans hn),hswap,hnext]
        exact hrun
      · rw [hrounds,shuffle,List.foldlM_cons,hswap]
        exact harr
      · rw [hindices,hrounds,List.map_cons,List.append_assoc,List.singleton_append]
    · have hdone : n-1-i=0 := by omega
      refine ⟨s,if_neg fun h => hlast ((ofNat_add_one_lt hi hn).mp h),?_,?_⟩
      · rw [hdone]
        rfl
      · rw [hdone]
        simp

/-- `ARRAY_SHUFFLE` runs one round for each position but the last. -/
theorem arrayShuffleSize_eq (rand : Rand) (hint : rand.max<2^31) {arr : List α}
    (hn : arr.length<2^64) :
    ∃ out, arrayShuffleSize rand arr=some out ∧
      shuffle (pickOf rand arr.length) (List.range (arr.length-1)) arr=some out.arr ∧
      out.indices=(List.range (arr.length-1)).map
        fun k => (UInt64.ofNat k,UInt64.ofNat (pickOf rand arr.length k)) := by
  rw [List.range_eq_range']
  rcases Nat.eq_zero_or_pos arr.length with hzero | hpos
  · refine ⟨⟨arr,[]⟩,?_,?_,?_⟩
    · rw [arrayShuffleSize,hzero,shuffleLoop]
      rfl
    · rw [hzero]
      rfl
    · rw [hzero]
      rfl
  · exact @shuffleLoop_eq _ rand hint _ hn (arr.length+1) 0 hpos (by omega) ⟨arr,[]⟩ rfl

/-- The shuffle of list positions in `fb_coalesce` is the same one. -/
theorem arrayShuffleSize_positions (rand : Rand) (hint : rand.max<2^31) {arr : List ℕ}
    (hn : arr.length<2^64) :
    (arrayShuffleSize rand arr).map Shuffled.arr=arrayShuffle rand arr := by
  obtain ⟨out,hrun,hshuffle,_⟩ := arrayShuffleSize_eq rand hint hn
  rw [hrun,Option.map_some,arrayShuffle_eq_shuffle,hshuffle]

/-- A value of `rand` that makes the quotient a given one. -/
theorem exists_quotient {randMax m v : ℕ} (hv : v < m) (hm : m*(m-1) ≤ randMax) :
    v*(randMax/m+1) ≤ randMax ∧ v*(randMax/m+1)/(randMax/m+1)=v := by
  refine ⟨?_,Nat.mul_div_cancel v (Nat.succ_pos _)⟩
  have hpos : 0 < m := by omega
  have hquot : m-1 ≤ randMax/m := (Nat.le_div_iff_mul_le hpos).mpr (by rw [Nat.mul_comm]; exact hm)
  have hmul : m*(randMax/m) ≤ randMax := Nat.mul_div_le randMax m
  calc
    v*(randMax/m+1)≤(m-1)*(randMax/m+1) := Nat.mul_le_mul_right _ (by omega)
    _=(m-1)*(randMax/m)+(m-1) := by rw [Nat.mul_add,Nat.mul_one]
    _≤(m-1)*(randMax/m)+randMax/m := Nat.add_le_add_left hquot _
    _=m*(randMax/m) := by
      rw [←Nat.succ_mul]
      congr 1
      omega
    _ ≤ randMax := hmul

/-- Where the array is not too long for `RAND_MAX`, any picks can be made. -/
theorem exists_rand {randMax n : ℕ} (hmax : n*(n-1) ≤ randMax) {pick : ℕ → ℕ}
    (hpick : ∀ i<n, i ≤ pick i ∧ pick i<n) :
    ∃ rand : Rand, rand.max=randMax ∧ ∀ i<n,pickOf rand n i=pick i := by
  have hround : ∀ i<n, (pick i-i)*(randMax/(n-i)+1) ≤ randMax ∧
      (pick i-i)*(randMax/(n-i)+1)/(randMax/(n-i)+1)=pick i-i := by
    intro i hi
    have hbounds := hpick i hi
    exact exists_quotient (by omega)
      ((Nat.mul_le_mul (Nat.sub_le n i) (by omega)).trans hmax)
  refine ⟨⟨randMax,fun i => if i<n then (pick i-i)*(randMax/(n-i)+1) else 0,fun i => ?_⟩,rfl,
    fun i hi => ?_⟩
  · split
    · exact (hround i ‹_›).1
    · exact Nat.zero_le _
  · have hbounds := hpick i hi
    rw [pickOf]
    dsimp only
    rw [if_pos hi,(hround i hi).2]
    omega

/-- For every array whose length is a `size_t` and all outcomes of `rand`, the
shuffle divides by no zero and stays inside the array, every index it computes
is between the current position and the end, and it permutes the array; where
the array is not too long for `RAND_MAX`, every permutation is one of the
results. -/
theorem shuffle_permutes_and_reaches {randMax : ℕ} (hint : randMax<2^31) (arr : List α)
    (hn : arr.length<2^64) :
    (∀ rand : Rand, rand.max=randMax → ∃ out, arrayShuffleSize rand arr=some out ∧
        (∀ index∈out.indices, index.1 ≤ index.2 ∧ index.2.toNat<arr.length) ∧ out.arr.Perm arr) ∧
      (arr.length*(arr.length-1) ≤ randMax → ∀ target : List α, target.Perm arr →
        ∃ rand : Rand, rand.max=randMax ∧
          (arrayShuffleSize rand arr).map Shuffled.arr=some target) := by
  constructor
  · rintro rand rfl
    obtain ⟨out,hrun,hshuffle,hindices⟩ := arrayShuffleSize_eq rand hint hn
    refine ⟨out,hrun,fun index hindex => ?_,?_⟩
    · rw [hindices,List.mem_map] at hindex
      obtain ⟨i,hi,rfl⟩ := hindex
      have hlt := List.mem_range.mp hi
      obtain ⟨hle,hpick⟩ := pickOf_bounds rand (by omega : i<arr.length)
      dsimp only
      rw [UInt64.le_iff_toNat_le,toNat_size (by omega),
        toNat_size (by omega)]
      exact ⟨hle,hpick⟩
    · obtain ⟨arr',hsome,hperm⟩ := shuffle_perm (picks_inside rand arr.length)
      rw [hshuffle] at hsome
      rw [Option.some.inj hsome]
      exact hperm
  · intro hmax target htarget
    obtain ⟨pick,hpick,hreach⟩ := exists_picks htarget
    obtain ⟨rand,rfl,hrand⟩ := exists_rand hmax hpick
    obtain ⟨out,hrun,hshuffle,_⟩ := arrayShuffleSize_eq rand hint hn
    refine ⟨rand,rfl,?_⟩
    rw [hrun,Option.map_some,←hshuffle,←hreach]
    exact shuffle_congr (fun i hi => hrand i (picks_inside rand _ i hi).1) arr

/-- Three entries, with the `RAND_MAX` of the C library. -/
theorem shuffle_permutes_and_reaches_three :
    (∀ rand : Rand, rand.max=2147483647 → ∃ out, arrayShuffleSize rand [7,8,9]=some out ∧
        (∀ index∈out.indices, index.1 ≤ index.2 ∧ index.2.toNat<3) ∧ out.arr.Perm [7,8,9]) ∧
      (6≤2147483647 → ∀ target : List ℕ, target.Perm [7,8,9] →
        ∃ rand : Rand, rand.max=2147483647 ∧
          (arrayShuffleSize rand [7,8,9]).map Shuffled.arr=some target) :=
  shuffle_permutes_and_reaches (by decide) [7,8,9] (by decide)

/-- No order of the node framebuffers is left out by `fb_coalesce`. -/
theorem fbCoalesce_order {randMax : ℕ} {fbs : List Framebuffer.Fb}
    (hmax : fbs.length*(fbs.length-1) ≤ randMax) {order : List ℕ}
    (horder : order.Perm (List.range fbs.length)) (build : Framebuffer.Build)
    (fb : Framebuffer.Fb) :
    ∃ rand : Rand, rand.max=randMax ∧
      fbCoalesce build rand fb fbs=coalesceLoop build order fb fbs := by
  obtain ⟨pick,hpick,hreach⟩ := exists_picks horder
  rw [List.length_range] at hpick hreach
  obtain ⟨rand,hrand,hpicks⟩ := exists_rand hmax hpick
  refine ⟨rand,hrand,?_⟩
  rw [fbCoalesce,arrayShuffle_eq_shuffle,List.length_range,
    shuffle_congr (fun i hi => hpicks i (picks_inside rand _ i hi).1),hreach]
  rfl

end Shoreline.Shuffle
