import Mathlib.Data.Nat.Basic
import Mathlib.Tactic.Common
import Mathlib.Tactic.Ring

/-!
# Means with a truncated weight

A weighted mean of two numbers in which one weight is a fraction that is cut
off, once where it is multiplied and once where the weights are summed. The
mean is never below both numbers, but it may exceed them: by how much depends
on what the second cut loses.
-/

namespace TruncatedMean

/-- The sum of the weights `w` and `t/d`. -/
def total (d w t : ℕ) : ℕ := w+t/d

/-- The mean of `a` with weight `w` and `b` with weight `t/d`. -/
def mean (d w t a b : ℕ) : ℕ := (a*w+b*t/d)/total d w t

variable {d w t a b : ℕ}

/-- The cut product is a product of the cut weight and what that has lost. -/
theorem mul_div_eq (hd : 0<d) (b t : ℕ) : b*t/d=b*(t/d)+b*(t%d)/d := by
  have hsplit : b*t=b*(t%d)+d*(b*(t/d)) := by
    calc
      b*t=b*(t%d+d*(t/d)) := by rw [Nat.mod_add_div]
      _=b*(t%d)+d*(b*(t/d)) := by ring
  rw [hsplit,Nat.add_mul_div_left _ _ hd,Nat.add_comm]

/-- The mean is not below the smaller number. -/
theorem min_le_mean (hd : 0<d) (ht : 0<total d w t) : min a b ≤ mean d w t a b := by
  rw [mean,Nat.le_div_iff_mul_le ht,total,Nat.mul_add,mul_div_eq hd]
  have ha := Nat.mul_le_mul_right w (Nat.min_le_left a b)
  have hb := Nat.mul_le_mul_right (t/d) (Nat.min_le_right a b)
  generalize b*(t%d)/d=lost
  omega

/-- It is not above the larger number exactly if what was lost is less than
the weights and the distance from the larger number make up for. -/
theorem mean_le_max_iff (hd : 0<d) (ht : 0<total d w t) :
    mean d w t a b ≤ max a b ↔ b*(t%d)/d<total d w t+(b-a)*w+(a-b)*(t/d) := by
  rw [mean,←Nat.lt_succ_iff,Nat.div_lt_iff_lt_mul ht,mul_div_eq hd,Nat.succ_mul]
  generalize b*(t%d)/d=lost
  rcases Nat.le_total a b with h | h
  · rw [Nat.max_eq_right h,Nat.sub_eq_zero_of_le h,Nat.zero_mul]
    have hsplit : b*total d w t=a*w+(b-a)*w+b*(t/d) := by
      rw [total,Nat.mul_add,←Nat.add_mul,Nat.add_sub_cancel' h]
    rw [hsplit]
    omega
  · rw [Nat.max_eq_left h,Nat.sub_eq_zero_of_le h,Nat.zero_mul]
    have hsplit : a*total d w t=a*w+(b*(t/d)+(a-b)*(t/d)) := by
      rw [total,Nat.mul_add,←Nat.add_mul,Nat.add_sub_cancel' h]
    rw [hsplit]
    omega

end TruncatedMean
