import Mathlib.Data.List.Nodup
import Mathlib.Tactic.Linarith
import Shoreline.Library.RepeatedDivision
import Shoreline.Traffic

/-!
# Units of the statistics

The unit of a number and the number in that unit come from two loops, one
over truncated quotients and one over exact ones. They divide equally often
exactly for the numbers that are not just above a power of the base: there
the truncated quotient is the base itself and the exact one is more.
-/

namespace Shoreline.Units

open RepeatedDivision Traffic

/-- `UNITS`. -/
def units : List String := ["","k","M","G","T","P"]

/-- The bases that `DEFINE_UNIT` is used with. -/
inductive Base where
  | base1024
  | base1000
  deriving DecidableEq, Repr

/-- The number. -/
def Base.word : Base → UInt64
  | .base1024 => 1024
  | .base1000 => 1000

/-- A base is more than one. -/
theorem Base.one_lt (base : Base) : 1<base.word.toNat := by
  cases base <;> decide

/-- The loop of `value_get_unit`, up to the index in `UNITS`. -/
def unitLoop (base : Base) (i : ℕ) (value : UInt64) : ℕ :=
  if value>base.word then
    if i=units.length-1 then i else unitLoop base (i+1) (value/base.word)
  else i
termination_by value.toNat
decreasing_by
  rename_i hgt _
  have hlt := UInt64.lt_iff_toNat_lt.mp hgt
  rw [UInt64.toNat_div]
  exact Nat.div_lt_self (by omega) base.one_lt

/-- `value_get_unit`. -/
def valueGetUnit (base : Base) (value : UInt64) : Option String := units[unitLoop base 0 value]?

/-- The loop of `value_get_scaled`, in exact arithmetic. -/
def scaledLoop (base : Base) (i : ℕ) (val : ℚ) : ℚ :=
  if val>base.word.toNat then
    if i+1≥units.length then val else scaledLoop base (i+1) (val/base.word.toNat)
  else val
termination_by units.length-i

/-- `value_get_scaled`. -/
def valueGetScaled (base : Base) (value : UInt64) : ℚ := scaledLoop base 0 value.toNat

/-- `GET_AVERAGE`. -/
def getAverage (field : Fin statisticsNumAverages → UInt64) : UInt64 :=
  (List.finRange statisticsNumAverages).foldl (fun acc i => acc+field i) 0/
    UInt64.ofNat statisticsNumAverages

/-- `statistics_traffic_get_unit`. -/
def statisticsTrafficGetUnit (stats : Statistics) : Option String :=
  valueGetUnit .base1024 stats.numBytes

/-- `statistics_traffic_get_scaled`. -/
def statisticsTrafficGetScaled (stats : Statistics) : ℚ := valueGetScaled .base1024 stats.numBytes

/-- `statistics_pixels_get_unit`. -/
def statisticsPixelsGetUnit (stats : Statistics) : Option String :=
  valueGetUnit .base1000 stats.numPixels

/-- `statistics_pixels_get_scaled`. -/
def statisticsPixelsGetScaled (stats : Statistics) : ℚ := valueGetScaled .base1000 stats.numPixels

/-- `statistics_throughput_get_unit`. -/
def statisticsThroughputGetUnit (stats : Statistics) : Option String :=
  valueGetUnit .base1000 (getAverage stats.bytesPerSecond*8)

/-- `statistics_throughput_get_scaled`. -/
def statisticsThroughputGetScaled (stats : Statistics) : ℚ :=
  valueGetScaled .base1000 (getAverage stats.bytesPerSecond*8)

/-- `statistics_pps_get_unit`. -/
def statisticsPpsGetUnit (stats : Statistics) : Option String :=
  valueGetUnit .base1000 (getAverage stats.pixelsPerSecond)

/-- `statistics_pps_get_scaled`. -/
def statisticsPpsGetScaled (stats : Statistics) : ℚ :=
  valueGetScaled .base1000 (getAverage stats.pixelsPerSecond)

/-- A number with a unit denotes a value. -/
def Denotes (base : Base) (scaled : ℚ) (unit : Option String) (value : UInt64) : Prop :=
  ∃ (k : ℕ) (text : String), unit=some text ∧ units[k]?=some text ∧
    scaled*(base.word.toNat : ℚ)^k=value.toNat

/-- The scaled number and the unit of a value belong together. -/
def Belongs (base : Base) (value : UInt64) : Prop :=
  Denotes base (valueGetScaled base value) (valueGetUnit base value) value

/-- The value is above a power of the base, by less than the power below it, and
there is a unit for that power. -/
def JustAbove (base : Base) (value : UInt64) : Prop :=
  ∃ m<units.length-1,base.word.toNat^(m+1)<value.toNat ∧
    value.toNat<base.word.toNat^(m+1)+base.word.toNat^m

instance (base : Base) (value : UInt64) : Decidable (JustAbove base value) :=
  inferInstanceAs (Decidable (∃ m<_,_))

/-- The texts of the units are different. -/
theorem units_inj {k k' : ℕ} {text : String} (h : units[k]?=some text)
    (h' : units[k']?=some text) : k=k' := by
  obtain ⟨hlt,hk⟩ := List.getElem?_eq_some_iff.mp h
  obtain ⟨hlt',hk'⟩ := List.getElem?_eq_some_iff.mp h'
  have hnodup : units.Nodup := by decide
  exact hnodup.getElem_inj_iff.mp (hk.trans hk'.symm)

/-- Where the loop over truncated quotients stops. -/
theorem unitLoop_stops (base : Base) (i : ℕ) (value : UInt64) (hi : i≤units.length-1) :
    ∃ n, unitLoop base i value=i+n ∧
      StopsTruncated base.word.toNat (units.length-1-i) value.toNat n := by
  induction i, value using unitLoop.induct base with
  | case1 value hgt =>
    refine ⟨0,?_,StopsTruncated.zero (Or.inr (Nat.sub_self _))⟩
    rw [unitLoop,if_pos hgt,if_pos rfl]
    rfl
  | case2 i value hgt hlast ih =>
    have hnext : i+1≤units.length-1 := Nat.lt_of_le_of_ne hi hlast
    obtain ⟨n,hrun,hstops⟩ := ih hnext
    have hlimit : units.length-1-(i+1)+1=units.length-1-i := by omega
    rw [UInt64.toNat_div] at hstops
    refine ⟨n+1,?_,?_⟩
    · rw [unitLoop,if_pos hgt,if_neg hlast,hrun,Nat.add_assoc,Nat.add_comm 1]
    · have hone := hstops.succ (UInt64.lt_iff_toNat_lt.mp hgt)
      rwa [hlimit] at hone
  | case3 i value hgt =>
    refine ⟨0,?_,StopsTruncated.zero (Or.inl ?_)⟩
    · rw [unitLoop,if_neg hgt]
      rfl
    · exact UInt64.le_iff_toNat_le.mp (UInt64.not_lt.mp hgt)

/-- Where the loop over exact quotients stops. -/
theorem scaledLoop_stops (base : Base) (i : ℕ) (val : ℚ) (hi : i≤units.length-1) :
    ∃ n, scaledLoop base i val=val/(base.word.toNat : ℚ)^n ∧
      StopsExact base.word.toNat (units.length-1-i) val n := by
  induction i, val using scaledLoop.induct base with
  | case1 i val hgt hlast =>
    refine ⟨0,?_,StopsExact.zero (Or.inr (by omega))⟩
    rw [scaledLoop,if_pos hgt,if_pos hlast,pow_zero,div_one]
  | case2 i val hgt hlast ih =>
    have hnext : i+1≤units.length-1 := Nat.le_sub_of_add_le (not_le.mp hlast)
    obtain ⟨n,hrun,hstops⟩ := ih hnext
    have hlimit : units.length-1-(i+1)+1=units.length-1-i := by omega
    refine ⟨n+1,?_,?_⟩
    · rw [scaledLoop,if_pos hgt,if_neg hlast,hrun,div_div,←pow_succ']
    · have hone := hstops.succ hgt
      rwa [hlimit] at hone
  | case3 i val hgt =>
    refine ⟨0,?_,StopsExact.zero (Or.inl (not_lt.mp hgt))⟩
    rw [scaledLoop,if_neg hgt,pow_zero,div_one]

/-- The scaled number times a power of the base is the value exactly for the power
it was divided by, or for the value zero. -/
theorem scaled_mul_eq_iff {b v : ℚ} (hb : 1<b) {k s : ℕ} : v/b^s*b^k=v ↔ v=0 ∨ k=s := by
  have hpow : b^s≠0 := pow_ne_zero s (by linarith)
  rw [div_mul_eq_mul_div,div_eq_iff hpow,mul_eq_mul_left_iff,
    pow_right_inj₀ (by linarith) (by linarith),or_comm]

/-- The scaled number and the unit of a value belong together exactly when the
value is not just above a power of the base. -/
theorem belongs_iff (base : Base) (value : UInt64) :
    Belongs base value ↔ ¬JustAbove base value := by
  obtain ⟨t,hunit,htrunc⟩ := unitLoop_stops base 0 value (Nat.zero_le _)
  obtain ⟨s,hscaled,hexact⟩ := scaledLoop_stops base 0 value.toNat (Nat.zero_le _)
  have hpos : 0<base.word.toNat := Nat.lt_trans Nat.zero_lt_one base.one_lt
  rw [Nat.sub_zero] at htrunc hexact
  rw [JustAbove,←htrunc.eq_exact_iff hpos hexact]
  have hb : (1 : ℚ)<base.word.toNat := by exact_mod_cast base.one_lt
  have hunits : t<units.length := Nat.lt_of_le_pred (by decide) htrunc.le
  have htext : valueGetUnit base value=some units[t] := by
    rw [valueGetUnit,hunit,Nat.zero_add,List.getElem?_eq_getElem hunits]
  constructor
  · rintro ⟨k,text,hchosen,hk,heq⟩
    have hkt : k=t := by
      apply units_inj hk
      rw [←hchosen,htext,List.getElem?_eq_getElem hunits]
    rw [valueGetScaled,hscaled,scaled_mul_eq_iff hb,hkt] at heq
    cases heq with
    | inl hzero =>
      have hs : s=0 := hexact.eq_zero (by rw [hzero]; linarith)
      have hle := htrunc.le_exact hpos hexact
      omega
    | inr hsame => exact hsame
  · intro heq
    refine ⟨t,units[t],htext,List.getElem?_eq_getElem hunits,?_⟩
    rw [valueGetScaled,hscaled,scaled_mul_eq_iff hb]
    exact Or.inr heq

/-- A number and its unit belong together, and so do those of the stat line, each
exactly when its value is not just above a power of the base. -/
theorem statLine_units_iff (base : Base) (value : UInt64) (stats : Statistics) :
    (Belongs base value ↔ ¬JustAbove base value) ∧
    (Denotes .base1024 (statisticsTrafficGetScaled stats) (statisticsTrafficGetUnit stats)
      stats.numBytes ↔ ¬JustAbove .base1024 stats.numBytes) ∧
    (Denotes .base1000 (statisticsPixelsGetScaled stats) (statisticsPixelsGetUnit stats)
      stats.numPixels ↔ ¬JustAbove .base1000 stats.numPixels) ∧
    (Denotes .base1000 (statisticsThroughputGetScaled stats) (statisticsThroughputGetUnit stats)
      (getAverage stats.bytesPerSecond*8) ↔
        ¬JustAbove .base1000 (getAverage stats.bytesPerSecond*8)) ∧
    (Denotes .base1000 (statisticsPpsGetScaled stats) (statisticsPpsGetUnit stats)
      (getAverage stats.pixelsPerSecond) ↔
        ¬JustAbove .base1000 (getAverage stats.pixelsPerSecond)) := by
  refine ⟨belongs_iff base value,?_,?_,?_,?_⟩
  · exact belongs_iff .base1024 stats.numBytes
  · exact belongs_iff .base1000 stats.numPixels
  · exact belongs_iff .base1000 (getAverage stats.bytesPerSecond*8)
  · exact belongs_iff .base1000 (getAverage stats.pixelsPerSecond)

/-- One byte more than a mebibyte is shown as one kilobyte. -/
theorem mebibyte_shown_in_k : ¬∀ base value,Belongs base value := by
  intro hall
  exact (belongs_iff .base1024 1048577).mp (hall _ _) (by decide)

end Shoreline.Units
