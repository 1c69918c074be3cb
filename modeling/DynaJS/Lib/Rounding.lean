import Mathlib.Data.Int.Log
import Mathlib.Tactic

/-! Rounding to a number of significant decimal digits. -/
namespace DynaJS.Rounding

open Nat

inductive Mode where
  | up
  | down
  | ceil
  | floor
  | halfUp
  | halfDown
  | halfEven
  | halfOdd
deriving DecidableEq

section Field

variable {K : Type*} [Field K] [LinearOrder K]

/-- Whether `m + f`, with a fraction `f`, goes to `m + 1` and not to `m`; `neg` tells that it
is the magnitude of a negative number. -/
def Mode.Away (mode : Mode) (neg : Bool) (m : Nat) (f : K) : Prop :=
  match mode with
  | .up => f ≠ 0
  | .down => False
  | .ceil => f ≠ 0 ∧ neg = false
  | .floor => f ≠ 0 ∧ neg = true
  | .halfUp => 1 / 2 ≤ f
  | .halfDown => 1 / 2 < f
  | .halfEven => 1 / 2 < f ∨ f = 1 / 2 ∧ m % 2 = 1
  | .halfOdd => 1 / 2 < f ∨ f = 1 / 2 ∧ m % 2 = 0

variable [IsStrictOrderedRing K] [FloorSemiring K]

open Classical in
/-- A magnitude `v` to `prec` significant digits: itself when it has no more of them, and
otherwise the neighbour that the mode selects. -/
noncomputable def rounded (mode : Mode) (neg : Bool) (prec : Nat) (v : K) : K :=
  let e := Int.log 10 v + 1 - prec
  let m := ⌊v / 10 ^ e⌋₊
  if mode.Away neg m (v / 10 ^ e - m) then (m + 1) * 10 ^ e else m * 10 ^ e

noncomputable def roundTo (mode : Mode) (prec : Nat) (v : K) : K :=
  if v = 0 then 0 else if v < 0 then -rounded mode true prec (-v) else rounded mode false prec v

variable {mode : Mode} {neg : Bool} {prec m : Nat} {e : Int} {v : K}

theorem log_eq (low : 10 ^ (prec - 1) ≤ m) (high : m < 10 ^ prec) (le : m * 10 ^ e ≤ v)
    (lt : v < (m + 1) * 10 ^ e) : Int.log 10 v + 1 - prec = e := by
  have some : 0 < prec := by
    by_contra none
    obtain rfl : prec = 0 := by omega
    simp at low high
    omega
  have unit : (0 : K) < 10 ^ e := by positivity
  have first : 10 ^ (e + prec - 1) ≤ v :=
    calc (10 : K) ^ (e + prec - 1) = 10 ^ (prec - 1) * 10 ^ e := by
          rw [← zpow_natCast, ← zpow_add₀ (by norm_num)]
          congr 1
          omega
      _ ≤ m * 10 ^ e := mul_le_mul_of_nonneg_right (by exact_mod_cast low) unit.le
      _ ≤ v := le
  have last : v < 10 ^ (e + prec) :=
    calc v < (m + 1) * 10 ^ e := lt
      _ ≤ 10 ^ prec * 10 ^ e := mul_le_mul_of_nonneg_right (by exact_mod_cast high) unit.le
      _ = 10 ^ (e + prec) := by rw [zpow_add₀ (by norm_num), zpow_natCast, mul_comm]
  have pos : 0 < v := lt_of_lt_of_le (by positivity) first
  have lower := (Int.zpow_le_iff_le_log (b := 10) (by decide) pos).mp (by exact_mod_cast first)
  have upper := (Int.lt_zpow_iff_log_lt (b := 10) (by decide) pos).mp (by exact_mod_cast last)
  omega

open Classical in
theorem rounded_eq (low : 10 ^ (prec - 1) ≤ m) (high : m < 10 ^ prec) (le : m * 10 ^ e ≤ v)
    (lt : v < (m + 1) * 10 ^ e) :
    rounded mode neg prec v =
      if mode.Away neg m (v / 10 ^ e - m) then ((m : K) + 1) * 10 ^ e else (m : K) * 10 ^ e := by
  have unit : (0 : K) < 10 ^ e := by positivity
  have floor : ⌊v / 10 ^ e⌋₊ = m := by
    rw [floor_eq_iff (div_nonneg (le_trans (by positivity) le) unit.le), le_div_iff₀ unit, div_lt_iff₀ unit]
    exact ⟨le, lt⟩
  simp only [rounded, log_eq low high le lt, floor]

theorem roundTo_signed (mode : Mode) (prec : Nat) (neg : Bool) (pos : 0 < v) :
    roundTo mode prec (if neg then -v else v) =
      if neg then -rounded mode neg prec v else rounded mode neg prec v := by
  cases neg
  · simp only [Bool.false_eq_true, if_false]
    rw [roundTo, if_neg pos.ne', if_neg (not_lt.mpr pos.le)]
  · simp only [if_true]
    rw [roundTo, if_neg (by linarith [neg_ne_zero.mpr pos.ne']), if_pos (by linarith), neg_neg]

theorem not_away_zero (mode : Mode) (neg : Bool) (m : Nat) : ¬ mode.Away neg m (0 : K) := by
  cases mode <;> norm_num [Mode.Away]

theorem rounded_of_digits {k : Nat} (low : 10 ^ (prec - 1) ≤ m * 10 ^ k) (high : m * 10 ^ k < 10 ^ prec) :
    rounded mode neg prec (m * 10 ^ e : K) = m * 10 ^ e := by
  have value : ((m * 10 ^ k : ℕ) : K) * 10 ^ (e - k) = m * 10 ^ e := by
    rw [cast_mul, zpow_sub₀ (by norm_num)]
    field_simp
    norm_num
  have unit : (0 : K) < 10 ^ (e - k) := by positivity
  rw [← value, rounded_eq low high le_rfl (by nlinarith), mul_div_assoc, div_self unit.ne', mul_one, sub_self,
    if_neg (not_away_zero mode neg _)]

theorem roundTo_eq_self (few : m < 10 ^ prec) (value : v = m * 10 ^ e) : roundTo mode prec v = v := by
  by_cases zero : m = 0
  · rw [zero, cast_zero, zero_mul] at value
    rw [roundTo, if_pos value, value]
  have first := pow_log_le_self 10 zero
  have last := lt_pow_succ_log_self (b := 10) (by decide) m
  have digits : Nat.log 10 m < prec := (Nat.pow_lt_pow_iff_right (by decide)).mp (lt_of_le_of_lt first few)
  have pos : 0 < v := by
    rw [value]
    positivity
  rw [roundTo, if_neg pos.ne', if_neg (not_lt.mpr pos.le), value]
  refine rounded_of_digits (k := prec - 1 - Nat.log 10 m) ?_ ?_
  · calc 10 ^ (prec - 1) = 10 ^ Nat.log 10 m * 10 ^ (prec - 1 - Nat.log 10 m) := by
          rw [← pow_add]
          congr 1
          omega
      _ ≤ m * 10 ^ (prec - 1 - Nat.log 10 m) := mul_le_mul_right _ first
  · calc m * 10 ^ (prec - 1 - Nat.log 10 m)
        < 10 ^ (Nat.log 10 m + 1) * 10 ^ (prec - 1 - Nat.log 10 m) :=
          Nat.mul_lt_mul_of_pos_right last (Nat.pow_pos (by decide))
      _ = 10 ^ prec := by
          rw [← pow_add]
          congr 1
          omega

/-- The first digit of the fraction that `j` digits cut off make, and the rest. -/
theorem fraction_digit {N j : Nat} {t : K} (le : N ≤ t) (lt : t < N + 1) : ∃ rest : K, 0 ≤ rest ∧ rest < 1 ∧
      t / 10 ^ (j + 1) - (N / 10 ^ (j + 1) : ℕ) = ((N / 10 ^ j % 10 : ℕ) + rest) / 10 ∧
      (rest = 0 ↔ t = N ∧ N % 10 ^ j = 0) := by
  have unit : (0 : K) < 10 ^ j := by positivity
  have small : ((N % 10 ^ j : ℕ) : K) + 1 ≤ 10 ^ j := by
    exact_mod_cast Nat.mod_lt N (Nat.pow_pos (by decide))
  have parts : (N : K) = 10 ^ j * (10 * (N / 10 ^ (j + 1) : ℕ) + (N / 10 ^ j % 10 : ℕ)) + (N % 10 ^ j : ℕ) := by
    have nat : N = 10 ^ j * (10 * (N / 10 ^ (j + 1)) + N / 10 ^ j % 10) + N % 10 ^ j := by
      rw [pow_succ, ← Nat.div_div_eq_div_mul, Nat.div_add_mod (N / 10 ^ j) 10, Nat.div_add_mod]
    exact_mod_cast nat
  refine ⟨((N % 10 ^ j : ℕ) + (t - N)) / 10 ^ j, div_nonneg (by linarith) unit.le, ?_, ?_, ?_⟩
  · rw [div_lt_one unit]
    linarith
  · rw [pow_succ]
    field_simp
    linear_combination parts
  · rw [div_eq_zero_iff, or_iff_left unit.ne']
    constructor
    · intro zero
      have both : t = N ∧ ((N % 10 ^ j : ℕ) : K) = 0 := ⟨by linarith, by linarith⟩
      exact ⟨both.1, by exact_mod_cast both.2⟩
    · rintro ⟨rfl, zero⟩
      rw [zero, cast_zero, sub_self, add_zero]

end Field

end DynaJS.Rounding
