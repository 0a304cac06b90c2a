import Mathlib.Data.List.Basic

/-!
# Readers of numbered versions

A value is replaced now and then, and every reader notes the number of the version
that it has read. Readers that come one after the other never go back, and those
that come behind a moment have read what was there at that moment or something later.
-/

namespace Versions

/-- A moment: so many readers have come, and the value was replaced so many times. -/
structure Moment where
  readers : ℕ
  updates : ℕ

variable {since : Moment} {seen : List ℕ} {j n m : ℕ}

/-- What the readers have read, one after the other, is in order and not older than
what was there at the moment they come behind. -/
structure Fresh (since : Moment) (seen : List ℕ) : Prop where
  sorted : seen.Pairwise fun j k => j ≤ k
  late : ∀ j∈seen.drop since.readers,since.updates ≤ j

/-- The next reader may read this version. -/
structure Current (since : Moment) (seen : List ℕ) (j : ℕ) : Prop where
  sorted : ∀ k∈seen,k ≤ j
  late : since.readers ≤ seen.length → since.updates ≤ j

/-- There are no readers yet. -/
theorem Fresh.nil : Fresh since [] := ⟨List.Pairwise.nil,by simp⟩

/-- The next reader reads. -/
theorem Fresh.concat (h : Fresh since seen) (hj : Current since seen j) :
    Fresh since (seen++[j]) where
  sorted := by
    refine List.pairwise_append.mpr ⟨h.sorted,List.pairwise_singleton _ _,fun k hk i hi => ?_⟩
    rw [List.mem_singleton.mp hi]
    exact hj.sorted k hk
  late := by
    intro k hk
    by_cases hle : since.readers ≤ seen.length
    · rw [List.drop_append_of_le_length hle] at hk
      rcases List.mem_append.mp hk with hk | hk
      · exact h.late k hk
      · rw [List.mem_singleton.mp hk]
        exact hj.late hle
    · have hlength : (seen++[j]).length ≤ since.readers := by
        rw [List.length_append,List.length_singleton]
        omega
      rw [List.drop_eq_nil_of_le hlength] at hk
      cases hk

/-- The last one of so many versions may be read, if all that was read and all that
was there at the moment is among them. -/
theorem current_last (hseen : ∀ k∈seen,k < n) (hsince : since.updates < n) :
    Current since seen (n-1) :=
  ⟨fun k hk => Nat.le_sub_one_of_lt (hseen k hk),fun _ => Nat.le_sub_one_of_lt hsince⟩

/-- At a moment that all readers so far have come before. -/
theorem Fresh.now (h : Fresh since seen) (hn : seen.length ≤ n) : Fresh ⟨n,m⟩ seen where
  sorted := h.sorted
  late := by
    rw [List.drop_eq_nil_of_le hn]
    exact nofun

/-- And the next one has too. -/
theorem Current.now (h : Current since seen j) (hn : seen.length < n) : Current ⟨n,m⟩ seen j :=
  ⟨h.sorted,fun hle => absurd hn (Nat.not_lt.mpr hle)⟩

end Versions
