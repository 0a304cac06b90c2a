import Mathlib.Data.List.Basic
import Mathlib.Tactic.Common

/-!
# Strings in a block of memory

A string begins at a position of a block and ends before the next terminator.
Its length and the first position of a character are found by reading it, and
a terminator written over a character cuts it in two.
-/

namespace StringBlock

variable {α : Type*} [DecidableEq α] {stop : α}

/-- The string at a position; `none` where no terminator follows. -/
def textAt (stop : α) (block : List α) (p : ℕ) : Option (List α) :=
  if stop∈block.drop p then some ((block.drop p).takeWhile (·≠stop)) else none

/-- Its length. -/
def length (stop : α) (block : List α) (p : ℕ) : Option ℕ := (textAt stop block p).map List.length

/-- The first position of a character in it, if there is one. -/
def position (stop : α) (block : List α) (p : ℕ) (c : α) : Option (Option ℕ) :=
  (textAt stop block p).map fun text => if c∈text then some (p+text.idxOf c) else none

/-- A text without terminators is read up to the terminator behind it. -/
theorem textAt_append (before after : List α) {text : List α} (htext : stop∉text) :
    textAt stop (before++(text++stop::after)) before.length=some text := by
  have hread : (text++stop::after).takeWhile (·≠stop)=text := by
    rw [List.takeWhile_append_of_pos]
    · rw [List.takeWhile_cons_of_neg (by simp),List.append_nil]
    · intro c hc
      exact decide_eq_true (ne_of_mem_of_not_mem hc htext)
  rw [textAt,List.drop_left,if_pos (List.mem_append_right text List.mem_cons_self),hread]

/-- The length of such a text. -/
theorem length_append (before after : List α) {text : List α} (htext : stop∉text) :
    length stop (before++(text++stop::after)) before.length=some text.length := by
  rw [length,textAt_append before after htext,Option.map_some]

/-- A character that is not in it is not found. -/
theorem position_of_notMem (before after : List α) {text : List α} {c : α} (htext : stop∉text)
    (hc : c∉text) : position stop (before++(text++stop::after)) before.length c=some none := by
  rw [position,textAt_append before after htext,Option.map_some,if_neg hc]

/-- The first occurrence of a character is found. -/
theorem position_of_cons (before after : List α) {left right : List α} {c : α}
    (htext : stop∉left++c::right) (hleft : c∉left) :
    position stop (before++(left++c::right++stop::after)) before.length c=
      some (some (before.length+left.length)) := by
  have hmem : c∈left++c::right := List.mem_append_right left List.mem_cons_self
  rw [position,textAt_append before after htext,Option.map_some,if_pos hmem,
    List.idxOf_append_of_notMem hleft,List.idxOf_cons_self,Nat.add_zero]

/-- What is found is not before the beginning of the string. -/
theorem le_of_position {block : List α} {p q : ℕ} {c : α}
    (h : position stop block p c=some (some q)) : p≤q := by
  rw [position,Option.map_eq_some_iff] at h
  obtain ⟨text,-,hq⟩ := h
  split at hq
  · cases hq
    exact Nat.le_add_right p _
  · cases hq

omit [DecidableEq α] in
/-- A character written over another one. -/
theorem set_append (before after : List α) (c d : α) :
    (before++c::after).set before.length d=before++d::after := by
  rw [List.set_append_right _ _ (Nat.le_refl _),Nat.sub_self,List.set_cons_zero]

/-- A string in a block is a text with a terminator behind it. -/
theorem eq_append_of_textAt {block text : List α} {p : ℕ} (h : textAt stop block p=some text) :
    stop∉text ∧ ∃ before after,before.length=p ∧ block=before++(text++stop::after) := by
  rw [textAt] at h
  split at h
  · next hmem =>
      obtain ⟨left,after,hdrop,hleft⟩ := List.eq_append_cons_of_mem hmem
      have hp : p≤block.length := by
        by_contra hgt
        rw [List.drop_eq_nil_of_le (by omega)] at hmem
        exact List.not_mem_nil hmem
      have hread := textAt_append [] after hleft
      rw [textAt,List.nil_append,List.length_nil,List.drop_zero,
        if_pos (List.mem_append_right left List.mem_cons_self)] at hread
      rw [hdrop,hread] at h
      cases h
      refine ⟨hleft,block.take p,after,?_,?_⟩
      · rw [List.length_take,Nat.min_eq_left hp]
      · rw [←hdrop,List.take_append_drop]
  · cases h

end StringBlock
