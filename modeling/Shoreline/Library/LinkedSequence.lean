import Mathlib.Data.List.Nodup
import Mathlib.Tactic.Common

/-!
# Sequences of linked nodes

Nodes that name their successor and their predecessor form a sequence when
every one of them names the nodes beside it. What is read at a node may be
missing, as it is for memory that is not there. Appending and removing a node
change the links of at most two others.
-/

namespace LinkedSequence

variable {α : Type*}

/-- What is read as the link of a node: missing, no node, or a node. -/
abbrev Links (α : Type*) := α → Option (Option α)

/-- Every node of the sequence names the nodes beside it. -/
structure Linked (next prev : Links α) (xs : List α) : Prop where
  /-- No node occurs twice. -/
  nodup : xs.Nodup
  /-- The successor is the next one. -/
  next : ∀ (i : ℕ) a, xs[i]?=some a → next a=some xs[i+1]?
  /-- The first node has no predecessor. -/
  first : ∀ a, xs[0]?=some a → prev a=some none
  /-- The predecessor is the one before. -/
  prev : ∀ (i : ℕ) a, xs[i+1]?=some a → prev a=some xs[i]?

/-- Follow links, one unit of fuel per node; `none` is a missing link or too
little fuel. -/
def follow (links : Links α) : ℕ → Option α → Option (List α)
  | _,none => some []
  | 0,some _ => none
  | fuel+1,some a => (links a).bind fun b => (follow links fuel b).map (a::·)

variable {next prev next' prev' : Links α} {xs : List α}

/-- The empty sequence is linked. -/
theorem linked_nil (next prev : Links α) : Linked next prev [] where
  nodup := List.nodup_nil
  next _ _ h := by simp at h
  first _ h := by simp at h
  prev _ _ h := by simp at h

/-- Only the links of the nodes in it matter. -/
theorem Linked.congr (h : Linked next prev xs) (hnext : ∀ a∈xs,next' a=next a)
    (hprev : ∀ a∈xs,prev' a=prev a) : Linked next' prev' xs where
  nodup := h.nodup
  next i a hi := (hnext a (List.mem_of_getElem? hi)).trans (h.next i a hi)
  first a hi := (hprev a (List.mem_of_getElem? hi)).trans (h.first a hi)
  prev i a hi := (hprev a (List.mem_of_getElem? hi)).trans (h.prev i a hi)

/-- Following the successors from a position enumerates the rest. -/
theorem Linked.follow_drop (h : Linked next prev xs) {fuel i : ℕ} (hfuel : xs.length ≤ i+fuel) :
    follow next fuel xs[i]?=some (xs.drop i) := by
  induction fuel generalizing i with
  | zero =>
    rw [List.getElem?_eq_none (by omega),List.drop_eq_nil_of_le (by omega)]
    rfl
  | succ fuel ih =>
    cases hi : xs[i]? with
    | none =>
      rw [List.drop_eq_nil_of_le (List.getElem?_eq_none_iff.mp hi)]
      rfl
    | some a =>
      obtain ⟨hlt,ha⟩ := List.getElem?_eq_some_iff.mp hi
      rw [follow,h.next i a hi,Option.bind_some,ih (by omega),Option.map_some,←ha,
        List.getElem_cons_drop]

/-- Following the successors from the first node enumerates the sequence. -/
theorem Linked.follow_next (h : Linked next prev xs) {fuel : ℕ} (hfuel : xs.length≤fuel) :
    follow next fuel xs.head?=some xs := by
  rw [List.head?_eq_getElem?]
  simpa using @Linked.follow_drop α next prev xs h fuel 0 (by omega)

/-- Seen from its end the sequence is linked by the predecessors. -/
theorem Linked.reverse (h : Linked next prev xs) : Linked prev next xs.reverse := by
  have hlast : ∀ (i : ℕ) a, xs.reverse[i]?=some a → xs[xs.length-1-i]?=some a ∧ i<xs.length := by
    intro i a hi
    have hlt := (List.getElem?_eq_some_iff.mp hi).1
    rw [List.length_reverse] at hlt
    rw [List.getElem?_reverse hlt] at hi
    exact ⟨hi,hlt⟩
  refine ⟨List.nodup_reverse.mpr h.nodup,fun i a hi => ?_,fun a hi => ?_,fun i a hi => ?_⟩
  · obtain ⟨ha,hlt⟩ := hlast i a hi
    by_cases hend : i+1<xs.length
    · rw [List.getElem?_reverse hend]
      refine h.prev _ a ?_
      rwa [show xs.length-1-(i+1)+1=xs.length-1-i by omega]
    · rw [List.getElem?_eq_none (by rw [List.length_reverse]; omega)]
      rw [show xs.length-1-i=0 by omega] at ha
      exact h.first a ha
  · obtain ⟨ha,hlt⟩ := hlast 0 a hi
    have hnext := h.next _ a ha
    rwa [List.getElem?_eq_none (by omega)] at hnext
  · obtain ⟨ha,hlt⟩ := hlast (i+1) a hi
    rw [List.getElem?_reverse (by omega)]
    have hnext := h.next _ a ha
    rwa [show xs.length-1-(i+1)+1=xs.length-1-i by omega] at hnext

/-- Following the predecessors from the last node enumerates the sequence
backwards. -/
theorem Linked.follow_prev (h : Linked next prev xs) {fuel : ℕ} (hfuel : xs.length≤fuel) :
    follow prev fuel xs.getLast?=some xs.reverse := by
  have hrev := @Linked.follow_next α prev next xs.reverse h.reverse fuel
    (by rwa [List.length_reverse])
  rwa [List.head?_reverse] at hrev

/-- Which node a successor is. -/
theorem Linked.next_eq_iff (h : Linked next prev xs) {i j : ℕ} {a b : α} (hi : xs[i]?=some a)
    (hj : xs[j]?=some b) : next a=some (some b) ↔ i+1=j := by
  rw [h.next i a hi,Option.some.injEq,←hj]
  have hlt := (List.getElem?_eq_some_iff.mp hj).1
  constructor
  · intro he
    exact ((List.getElem?_inj hlt h.nodup).mp he.symm).symm
  · rintro rfl
    rfl

/-- Which node a predecessor is. -/
theorem Linked.prev_eq_iff (h : Linked next prev xs) {i j : ℕ} {a b : α} (hi : xs[i]?=some a)
    (hj : xs[j]?=some b) : prev a=some (some b) ↔ j+1=i := by
  cases i with
  | zero => simp [h.first a hi]
  | succ i =>
    have hlt := (List.getElem?_eq_some_iff.mp hj).1
    rw [h.prev i a hi,Option.some.injEq,←hj]
    constructor
    · intro he
      rw [(List.getElem?_inj hlt h.nodup).mp he.symm]
    · intro he
      rw [Nat.succ.inj he]

/-- A new node behind the last one: the old last node gets a successor. -/
theorem Linked.append (h : Linked next prev xs) {a : α} (ha : a∉xs)
    (hlast : ∀ b, xs.getLast?=some b → next' b=some (some a))
    (hnext : ∀ b∈xs,xs.getLast?≠some b → next' b=next b) (hprev : ∀ b∈xs,prev' b=prev b)
    (hend : next' a=some none) (hback : prev' a=some xs.getLast?) :
    Linked next' prev' (xs++[a]) := by
  have hget : ∀ (i : ℕ) b, (xs++[a])[i]?=some b → xs[i]?=some b ∨ i=xs.length ∧ b=a := by
    intro i b hi
    rcases Nat.lt_or_ge i xs.length with hlt | hge
    · rw [List.getElem?_append_left hlt] at hi
      exact Or.inl hi
    · have hlen := (List.getElem?_eq_some_iff.mp hi).1
      rw [List.length_append,List.length_singleton] at hlen
      rw [List.getElem?_append_right hge,show i-xs.length=0 by omega] at hi
      exact Or.inr ⟨by omega,(Option.some.inj hi).symm⟩
  refine ⟨List.nodup_append_comm.mp (List.nodup_cons.mpr ⟨ha,h.nodup⟩),fun i b hi => ?_,
    fun b hi => ?_,fun i b hi => ?_⟩
  · rcases hget i b hi with hold | ⟨rfl,rfl⟩
    · have hlt := (List.getElem?_eq_some_iff.mp hold).1
      have hmem := List.mem_of_getElem? hold
      by_cases hi' : i+1=xs.length
      · rw [hlast b (by rw [List.getLast?_eq_getElem?,←hi',Nat.add_sub_cancel,hold]),hi',
          List.getElem?_append_right (Nat.le_refl _),Nat.sub_self]
        rfl
      · rw [hnext b hmem fun hc => hi' ?_,h.next i b hold,List.getElem?_append_left (by omega)]
        rw [List.getLast?_eq_getElem?,←hold] at hc
        have hinj := (List.getElem?_inj (by omega) h.nodup).mp hc
        omega
    · rw [hend,List.getElem?_eq_none (by simp)]
  · rcases hget 0 b hi with hold | ⟨hlen,rfl⟩
    · rw [hprev b (List.mem_of_getElem? hold),h.first b hold]
    · rw [hback,List.eq_nil_of_length_eq_zero hlen.symm]
      rfl
  · rcases hget (i+1) b hi with hold | ⟨hlen,rfl⟩
    · have hlt := (List.getElem?_eq_some_iff.mp hold).1
      rw [hprev b (List.mem_of_getElem? hold),h.prev i b hold,List.getElem?_append_left (by omega)]
    · rw [hback,List.getLast?_eq_getElem?,←hlen,Nat.add_sub_cancel,
        List.getElem?_append_left (by omega)]

/-- A node leaves, wherever it stands: those beside it are linked to each
other. -/
theorem Linked.eraseIdx [DecidableEq α] (h : Linked next prev xs) {i : ℕ} {a : α}
    (hi : xs[i]?=some a)
    (hnext : ∀ b∈xs,b≠a → next' b=if prev a=some (some b) then next a else next b)
    (hprev : ∀ b∈xs,b≠a → prev' b=if next a=some (some b) then prev a else prev b) :
    Linked next' prev' (xs.eraseIdx i) := by
  have hne : ∀ (j : ℕ) b, xs[j]?=some b → j≠i → b≠a := by
    rintro j b hj hji rfl
    have hlt := (List.getElem?_eq_some_iff.mp hj).1
    exact hji ((List.getElem?_inj hlt h.nodup).mp (hj.trans hi.symm))
  refine ⟨h.nodup.eraseIdx i,fun j b hj => ?_,fun b hj => ?_,fun j b hj => ?_⟩
  · rw [List.getElem?_eraseIdx] at hj ⊢
    split at hj
    · rw [hnext b (List.mem_of_getElem? hj) (hne j b hj (by omega)),h.next i a hi,h.next j b hj]
      simp only [h.prev_eq_iff hi hj]
      split
      · rw [if_neg (by omega),show i+1=j+1+1 by omega]
      · rw [if_pos (by omega)]
    · rw [hnext b (List.mem_of_getElem? hj) (hne (j+1) b hj (by omega)),h.next (j+1) b hj]
      simp only [h.prev_eq_iff hi hj]
      rw [if_neg (by omega),if_neg (by omega)]
  · rw [List.getElem?_eraseIdx] at hj
    split at hj
    · rw [hprev b (List.mem_of_getElem? hj) (hne 0 b hj (by omega)),h.first b hj]
      simp only [h.next_eq_iff hi hj]
      rw [if_neg (by omega)]
    · have hi0 : i=0 := by omega
      subst hi0
      rw [hprev b (List.mem_of_getElem? hj) (hne 1 b hj (by omega)),h.first a hi]
      simp [h.next_eq_iff hi hj]
  · rw [List.getElem?_eraseIdx] at hj ⊢
    split at hj
    · rw [hprev b (List.mem_of_getElem? hj) (hne (j+1) b hj (by omega)),h.prev j b hj]
      simp only [h.next_eq_iff hi hj]
      rw [if_neg (by omega),if_pos (by omega)]
    · rw [hprev b (List.mem_of_getElem? hj) (hne (j+1+1) b hj (by omega)),h.prev (j+1) b hj]
      simp only [h.next_eq_iff hi hj]
      by_cases hji : i=j+1
      · subst hji
        rw [if_pos rfl,h.prev j a hi,if_pos (by omega)]
      · rw [if_neg (by omega),if_neg (by omega)]

/-- The first node once a node has left. -/
theorem Linked.head_eraseIdx [DecidableEq α] (h : Linked next prev xs) {i : ℕ} {a : α}
    {b : Option α} (hi : xs[i]?=some a) (hb : next a=some b) :
    (xs.eraseIdx i).head?=if xs.head?=some a then b else xs.head? := by
  rw [h.next i a hi,Option.some.injEq] at hb
  have hlt := (List.getElem?_eq_some_iff.mp hi).1
  have hfirst : xs[0]?=some a ↔ i=0 := by
    rw [←hi,List.getElem?_inj (by omega) h.nodup,eq_comm]
  rw [List.head?_eq_getElem?,List.head?_eq_getElem?,List.getElem?_eraseIdx]
  simp only [hfirst]
  by_cases hi0 : i=0
  · rw [if_neg (by omega),if_pos hi0,←hb,hi0]
  · rw [if_pos (by omega),if_neg hi0]

/-- The last node once a node has left. -/
theorem Linked.last_eraseIdx [DecidableEq α] (h : Linked next prev xs) {i : ℕ} {a : α}
    {b : Option α} (hi : xs[i]?=some a) (hb : prev a=some b) :
    (xs.eraseIdx i).getLast?=if xs.getLast?=some a then b else xs.getLast? := by
  have hlt := (List.getElem?_eq_some_iff.mp hi).1
  have hlast : xs[xs.length-1]?=some a ↔ i+1=xs.length := by
    rw [←hi,List.getElem?_inj (by omega) h.nodup]
    omega
  rw [List.getLast?_eq_getElem?,List.getLast?_eq_getElem?,List.getElem?_eraseIdx,
    List.length_eraseIdx_of_lt hlt]
  simp only [hlast]
  by_cases hend : i+1=xs.length
  · rw [if_pos hend]
    cases i with
    | zero =>
      rw [h.first a hi,Option.some.injEq] at hb
      rw [if_neg (by omega),←hb,List.getElem?_eq_none (by omega)]
    | succ i =>
      rw [h.prev i a hi,Option.some.injEq] at hb
      rw [if_pos (by omega),←hb,show xs.length-1-1=i by omega]
  · rw [if_neg (by omega),if_neg hend,show xs.length-1-1+1=xs.length-1 by omega]

end LinkedSequence
