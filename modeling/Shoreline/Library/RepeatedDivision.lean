import Mathlib.Algebra.Order.Field.Rat
import Mathlib.Data.Rat.Cast.Order
import Mathlib.Tactic.Ring

/-!
# Repeated division by a base

A number is divided by a base while the quotient is above the base, at most a
fixed number of times. The division with truncation and the exact division
are both here, each as a predicate on the number of divisions, and the numbers
for which the two predicates differ.
-/

namespace RepeatedDivision

/-- With truncation the divisions stop after `n` of at most `limit`. -/
structure StopsTruncated (base limit value n : ℕ) : Prop where
  /-- The quotient is not above the base, or no division is left. -/
  stop : value/base^n≤base ∨ n=limit
  /-- The limit is kept. -/
  le : n≤limit
  /-- Every quotient before is above the base. -/
  before : ∀ m<n,base<value/base^m

/-- With exact quotients the divisions stop after `n` of at most `limit`. -/
structure StopsExact (base limit : ℕ) (value : ℚ) (n : ℕ) : Prop where
  /-- The quotient is not above the base, or no division is left. -/
  stop : value/(base : ℚ)^n≤base ∨ n=limit
  /-- The limit is kept. -/
  le : n≤limit
  /-- Every quotient before is above the base. -/
  before : ∀ m<n,(base : ℚ)<value/(base : ℚ)^m

/-- A truncated division stops at once when the number is not above the base. -/
theorem StopsTruncated.zero {base limit value : ℕ} (h : value≤base ∨ limit=0) :
    StopsTruncated base limit value 0 := by
  refine ⟨?_,Nat.zero_le limit,fun m hm => absurd hm (Nat.not_lt_zero m)⟩
  rw [pow_zero,Nat.div_one]
  exact h.imp_right Eq.symm

/-- One truncated division before the others. -/
theorem StopsTruncated.succ {base limit value n : ℕ} (habove : base<value)
    (h : StopsTruncated base limit (value/base) n) :
    StopsTruncated base (limit+1) value (n+1) := by
  have hquot : ∀ m,value/base/base^m=value/base^(m+1) := by
    intro m
    rw [Nat.div_div_eq_div_mul,pow_succ,Nat.mul_comm]
  refine ⟨?_,Nat.succ_le_succ h.le,fun m hm => ?_⟩
  · rw [←hquot]
    exact h.stop.imp_right fun heq => by rw [heq]
  · cases m with
    | zero =>
      rw [pow_zero,Nat.div_one]
      exact habove
    | succ m =>
      rw [←hquot]
      exact h.before m (Nat.lt_of_succ_lt_succ hm)

/-- An exact division stops at once when the number is not above the base. -/
theorem StopsExact.zero {base limit : ℕ} {value : ℚ} (h : value≤base ∨ limit=0) :
    StopsExact base limit value 0 := by
  refine ⟨?_,Nat.zero_le limit,fun m hm => absurd hm (Nat.not_lt_zero m)⟩
  rw [pow_zero,div_one]
  exact h.imp_right Eq.symm

/-- One exact division before the others. -/
theorem StopsExact.succ {base limit : ℕ} {value : ℚ} {n : ℕ} (habove : (base : ℚ)<value)
    (h : StopsExact base limit (value/base) n) : StopsExact base (limit+1) value (n+1) := by
  have hquot : ∀ m,value/(base : ℚ)/(base : ℚ)^m=value/(base : ℚ)^(m+1) := by
    intro m
    rw [div_div,pow_succ,mul_comm]
  refine ⟨?_,Nat.succ_le_succ h.le,fun m hm => ?_⟩
  · rw [←hquot]
    exact h.stop.imp_right fun heq => by rw [heq]
  · cases m with
    | zero =>
      rw [pow_zero,div_one]
      exact habove
    | succ m =>
      rw [←hquot]
      exact h.before m (Nat.lt_of_succ_lt_succ hm)

/-- A number that is not above the base is not divided. -/
theorem StopsExact.eq_zero {base limit : ℕ} {value : ℚ} {n : ℕ}
    (h : StopsExact base limit value n) (hle : value≤base) : n=0 := by
  by_contra hn
  have habove := h.before 0 (Nat.pos_of_ne_zero hn)
  rw [pow_zero,div_one] at habove
  exact absurd hle (not_le.mpr habove)

section Compared

variable {base limit value n : ℕ}

/-- The truncated quotient is not above the base below the next multiple of the power. -/
theorem truncated_le_iff (hbase : 0<base) :
    value/base^n≤base ↔ value<base^(n+1)+base^n := by
  rw [←Nat.lt_succ_iff,Nat.div_lt_iff_lt_mul (pow_pos hbase n),Nat.succ_mul,pow_succ,
    Nat.mul_comm base]

/-- The exact quotient is not above the base up to the next power. -/
theorem exact_le_iff (hbase : 0<base) :
    (value : ℚ)/(base : ℚ)^n≤base ↔ value≤base^(n+1) := by
  have hpow : (0 : ℚ)<(base : ℚ)^n := pow_pos (Nat.cast_pos.mpr hbase) n
  rw [div_le_iff₀ hpow,←pow_succ',←Nat.cast_pow,Nat.cast_le]

/-- The truncated divisions stop no later than the exact ones. -/
theorem StopsTruncated.le_exact (hbase : 0<base) {t s : ℕ}
    (ht : StopsTruncated base limit value t) (hs : StopsExact base limit value s) : t ≤ s := by
  by_contra hlt
  have habove := ht.before s (by omega)
  rw [←not_le,truncated_le_iff hbase,not_lt] at habove
  have hpos := pow_pos hbase s
  cases hs.stop with
  | inl hstop =>
    rw [exact_le_iff hbase] at hstop
    omega
  | inr hlast =>
    have := ht.le
    omega

/-- The truncated divisions stop earlier than the exact ones exactly when the
number is above a power of the base by less than the power below. -/
theorem StopsTruncated.lt_exact_iff (hbase : 0<base) {t s : ℕ}
    (ht : StopsTruncated base limit value t) (hs : StopsExact base limit value s) :
    t<s ↔ ∃ m<limit,base^(m+1)<value ∧ value<base^(m+1)+base^m := by
  constructor
  · intro hlt
    have hle := hs.le
    refine ⟨t,by omega,?_,?_⟩
    · have habove := hs.before t hlt
      rwa [←not_le,exact_le_iff hbase,not_le] at habove
    · rw [←truncated_le_iff hbase]
      exact ht.stop.resolve_right (by omega)
  · rintro ⟨m,hm,hlow,hhigh⟩
    have htm : t ≤ m := by
      by_contra hmt
      have habove := ht.before m (by omega)
      rw [←not_le,truncated_le_iff hbase] at habove
      exact habove hhigh
    have hms : m<s := by
      by_contra hsm
      have hpow : base^(s+1)≤base^(m+1) := Nat.pow_le_pow_right hbase (by omega)
      have hstop := hs.stop.resolve_right (by omega)
      rw [exact_le_iff hbase] at hstop
      omega
    omega

/-- The numbers of divisions agree otherwise. -/
theorem StopsTruncated.eq_exact_iff (hbase : 0<base) {t s : ℕ}
    (ht : StopsTruncated base limit value t) (hs : StopsExact base limit value s) :
    t=s ↔ ¬∃ m<limit,base^(m+1)<value ∧ value<base^(m+1)+base^m := by
  rw [←StopsTruncated.lt_exact_iff hbase ht hs]
  have := ht.le_exact hbase hs
  omega

end Compared

end RepeatedDivision
