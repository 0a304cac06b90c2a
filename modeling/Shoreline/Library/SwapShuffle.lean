import Mathlib.Data.List.Perm.Basic
import Mathlib.Data.List.Range
import Mathlib.Tactic.Common

/-!
# Shuffling by swaps

An array is shuffled from the front: each position in turn is swapped with a
picked one. As long as every pick is inside the array the result is a
permutation, and if the picks range over all positions from the current one
on, every permutation is the result of some of them.
-/

namespace SwapShuffle

variable {α : Type*}

/-- Two entries exchanged; `none` is an access outside the array. -/
def swapAt (arr : List α) (i j : ℕ) : Option (List α) :=
  match arr[i]?,arr[j]? with
  | some a,some b => some ((arr.set j a).set i b)
  | _,_ => none

/-- In each round, a position is swapped with the one picked for it. -/
def shuffle (pick : ℕ → ℕ) (rounds : List ℕ) (arr : List α) : Option (List α) :=
  rounds.foldlM (fun arr i => swapAt arr i (pick i)) arr

/-- Swapping inside the array permutes it. -/
theorem swapAt_perm {arr : List α} {i j : ℕ} (hi : i<arr.length) (hj : j<arr.length) :
    ∃ arr', swapAt arr i j=some arr' ∧ arr'.Perm arr := by
  rw [swapAt,List.getElem?_eq_getElem hi,List.getElem?_eq_getElem hj]
  exact ⟨_,rfl,List.set_set_perm hj hi⟩

/-- Picks inside the array permute it. -/
theorem shuffle_perm {pick : ℕ → ℕ} {rounds : List ℕ} {arr : List α}
    (h : ∀ i∈rounds,i<arr.length ∧ pick i<arr.length) :
    ∃ arr', shuffle pick rounds arr=some arr' ∧ arr'.Perm arr := by
  induction rounds generalizing arr with
  | nil => exact ⟨arr,rfl,List.Perm.refl arr⟩
  | cons i rounds ih =>
    obtain ⟨⟨hi,hj⟩,hrest⟩ := List.forall_mem_cons.mp h
    obtain ⟨mid,hswap,hmid⟩ := swapAt_perm hi hj
    obtain ⟨arr',hrun,hperm⟩ := @ih mid fun k hk => by
      rw [hmid.length_eq]
      exact hrest k hk
    refine ⟨arr',?_,hperm.trans hmid⟩
    rw [shuffle,List.foldlM_cons,hswap]
    exact hrun

/-- Picks matter only in the rounds that are run. -/
theorem shuffle_congr {pick pick' : ℕ → ℕ} {rounds : List ℕ} (h : ∀ i∈rounds,pick i=pick' i)
    (arr : List α) : shuffle pick rounds arr=shuffle pick' rounds arr := by
  induction rounds generalizing arr with
  | nil => rfl
  | cons i rounds ih =>
    obtain ⟨hi,hrest⟩ := List.forall_mem_cons.mp h
    rw [shuffle,shuffle,List.foldlM_cons,List.foldlM_cons,hi]
    exact bind_congr fun mid => ih hrest mid

/-- An entry behind a prefix is brought to its end by one swap. -/
theorem swapAt_append (front : List α) {rest : List α} {a : α} (h : a∈rest) :
    ∃ k < rest.length, ∃ rest', swapAt (front++rest) front.length (front.length+k)=
      some (front++a::rest') ∧ (a::rest').Perm rest := by
  obtain ⟨k,hk,hget⟩ := List.getElem_of_mem h
  refine ⟨k,hk,?_⟩
  cases rest with
  | nil => cases h
  | cons b rest =>
    have hi : front.length<(front++b::rest).length := by simp
    have hj : front.length+k<(front++b::rest).length := by
      rw [List.length_append]
      omega
    obtain ⟨arr',hswap,hperm⟩ := swapAt_perm hi hj
    have harr : arr'=front++a::((b::rest).set k b).tail := by
      rw [swapAt,List.getElem?_eq_getElem hi,List.getElem?_eq_getElem hj] at hswap
      have hb : (front++b::rest)[front.length]=b := by simp
      have ha : (front++b::rest)[front.length+k]=a := by
        rw [List.getElem_append_right (Nat.le_add_right _ _)]
        simpa using hget
      rw [ha,hb] at hswap
      rw [←Option.some.inj hswap,List.set_append_right _ _ (Nat.le_add_right _ _),
        List.set_append_right _ _ (Nat.le_refl _),Nat.add_sub_cancel_left,Nat.sub_self]
      cases k <;> rfl
    rw [harr] at hswap hperm
    exact ⟨_,hswap,(List.perm_append_left_iff front).mp hperm⟩

/-- Behind a prefix, every permutation of the rest is the result of some picks
that range over the rest. -/
theorem exists_picks_append (front : List α) {rest target : List α} (h : target.Perm rest) :
    ∃ pick : ℕ → ℕ, (∀ i, front.length ≤ i → i<front.length+rest.length →
        i ≤ pick i ∧ pick i<front.length+rest.length) ∧
      shuffle pick (List.range' front.length (rest.length-1)) (front++rest)=
        some (front++target) := by
  induction target generalizing front rest with
  | nil =>
    rw [List.nil_perm.mp h]
    exact ⟨id,fun i _ hi => ⟨Nat.le_refl i,hi⟩,rfl⟩
  | cons a target ih =>
    obtain ⟨k,hk,rest',hswap,hperm⟩ := swapAt_append front (h.mem_iff.mp List.mem_cons_self)
    obtain ⟨pick,hpick,hrun⟩ := ih (front++[a]) ((h.trans hperm.symm).cons_inv)
    have hlength : rest.length=rest'.length+1 := by rw [←hperm.length_eq,List.length_cons]
    rw [List.length_append,List.length_singleton] at hpick hrun
    refine ⟨fun i => if i=front.length then front.length+k else pick i,fun i hi hlt => ?_,?_⟩
    · dsimp only
      split
      · omega
      · have hbounds := hpick i (by omega) (by omega)
        omega
    · -- the last entry has no round of its own, it is where it belongs
      cases rest' with
      | nil =>
        have htarget : target=[] := List.perm_nil.mp ((h.trans hperm.symm).cons_inv)
        rw [htarget,hlength]
        have hrest : rest=[a] := List.perm_singleton.mp hperm.symm
        rw [hrest]
        rfl
      | cons b rest' =>
        rw [hlength,List.length_cons,Nat.add_sub_cancel,List.range'_succ,shuffle,List.foldlM_cons,
          if_pos rfl,hswap]
        rw [List.append_assoc,List.append_assoc,List.singleton_append,List.singleton_append] at hrun
        refine Eq.trans ?_ hrun
        refine shuffle_congr (fun i hi => if_neg ?_) _
        have hlo := (List.mem_range'_1.mp hi).1
        omega

/-- Every permutation is the result of some picks. -/
theorem exists_picks {arr target : List α} (h : target.Perm arr) :
    ∃ pick : ℕ → ℕ, (∀ i<arr.length, i ≤ pick i ∧ pick i<arr.length) ∧
      shuffle pick (List.range (arr.length-1)) arr=some target := by
  obtain ⟨pick,hpick,hrun⟩ := exists_picks_append [] h
  rw [List.length_nil,Nat.zero_add] at hpick
  refine ⟨pick,fun i hi => hpick i (Nat.zero_le i) hi,?_⟩
  rw [List.range_eq_range']
  exact hrun

end SwapShuffle
