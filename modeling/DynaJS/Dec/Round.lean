import DynaJS.Lib.Rounding
import DynaJS.Dec.Arith

/-! Rounding of decimals. -/
namespace DynaJS.Dec

open DynaJS.Digits List
open DynaJS.Rounding
open Nat (ofDigits)

def decRoundUp (mode : Mode) (guard : Nat) (rest sign : Bool) (last : Nat) : Bool :=
  match mode with
  | .up => guard ≠ 0 || rest
  | .down => false
  | .ceil => (guard ≠ 0 || rest) && !sign
  | .floor => (guard ≠ 0 || rest) && sign
  | .halfUp => 5 ≤ guard
  | .halfDown => 5 < guard || (guard = 5 && rest)
  | .halfOdd => if guard ≠ 5 then 5 < guard else if rest then true else last % 2 = 0
  | .halfEven => if guard ≠ 5 then 5 < guard else if rest then true else last % 2 = 1

def bump : Nat → List Nat → List Nat
  | 0, d => d
  | c + 1, [] => [c + 1]
  | c + 1, x :: xs => ((x + (c + 1)) % 10) :: bump ((x + (c + 1)) / 10) xs

/-- The digits below `target` taken off: the first of them, whether another one is there, and
what is left. -/
def cutAt (x : DecT) (target : Int) : Nat × Bool × DecT := (decAt x (i32 (target - 1)),
    (List.range (i32 (target - 1) - x.exp).toNat).any fun i => decAt x (x.exp + i) ≠ 0,
    { x with d := if x.top ≤ target then [] else x.d.drop (target - x.exp).toNat, exp := target })

def raise (mem : Bool) (mode : Mode) (guard : Nat) (rest : Bool) (x : DecT) : Except Fail DecT :=
  if decRoundUp mode guard rest x.sign (x.d.headD 0) then
    match decGrow mem x.cap (x.d.length + 1) with
    | none => .error .exceeded
    | some cap => .ok (decTrim { x with cap := cap, d := bump 1 x.d })
  else .ok (decTrim x)

def decRoundAt (mem : Bool) (x : DecT) (target : Int) (mode : Mode) (sticky : Bool) : Except Fail DecT :=
  if x.d = [] ∧ ¬ sticky then .ok x
  else if x.exp < target ∧ x.d ≠ [] then
    raise mem mode (cutAt x target).1 (sticky || (cutAt x target).2.1) (cutAt x target).2.2
  else raise mem mode 0 sticky x

def decRoundSig (mem : Bool) (x : DecT) (prec : Nat) (mode : Mode) (sticky : Bool) : Except Fail DecT :=
  if x.d.length ≤ prec ∧ ¬ sticky then .ok x
  else if x.d = [] then .ok x
  else decRoundAt mem x (i32 (x.top - prec)) mode sticky

section Bump

theorem bump_value (c : Nat) (d : List Nat) : ofDigits 10 (bump c d) = ofDigits 10 d + c := by
  induction d generalizing c with
  | nil =>
    cases c with
    | zero => rfl
    | succ c => simp [bump]
  | cons x xs ih =>
    cases c with
    | zero => rfl
    | succ c =>
      rw [bump, Nat.ofDigits_cons, Nat.ofDigits_cons, ih]
      omega

theorem bump_below {c : Nat} (digit : c < 10) {d : List Nat} (below : Below 10 d) : Below 10 (bump c d) := by
  induction d generalizing c with
  | nil =>
    cases c with
    | zero => exact below
    | succ c => exact below_cons.mpr ⟨digit, below⟩
  | cons x xs ih =>
    cases c with
    | zero => exact below
    | succ c =>
      obtain ⟨small, below⟩ := below_cons.mp below
      exact below_cons.mpr ⟨by omega, ih (by omega) below⟩

theorem bump_length (c : Nat) (d : List Nat) : (bump c d).length ≤ d.length + 1 := by
  induction d generalizing c with
  | nil =>
    cases c with
    | zero => simp [bump]
    | succ c => simp [bump]
  | cons x xs ih =>
    cases c with
    | zero => simp [bump]
    | succ c =>
      exact Nat.succ_le_succ (ih _)

end Bump

section Raise

variable {x s : DecT} {mem : Bool} {mode : Mode} {guard : Nat} {rest : Bool}

theorem raise_spec (stored : x.Stored) (fits : x.Fits) (done : raise mem mode guard rest x = .ok s) :
    s.Canonical ∧ (s.d ≠ [] → s.sign = x.sign) ∧
      s.mag = ((ofDigits 10 x.d + if decRoundUp mode guard rest x.sign (x.d.headD 0) then 1 else 0 : ℕ) : ℚ) *
        10 ^ x.exp := by
  unfold DecT.Fits at fits
  unfold raise at done
  split_ifs at done with up
  · split at done
    · contradiction
    · rename_i cap grown
      obtain rfl := Except.ok.inj done
      obtain ⟨enough, limit⟩ := decGrow_spec grown stored.limit
      have length := bump_length 1 x.d
      obtain ⟨canonical, mag⟩ := trimmed x.exp cap x.sign
        (bump_below (by decide) stored.below) (length.trans enough) limit stored.least stored.most (by omega)
      refine ⟨canonical, decTrim_sign, ?_⟩
      rw [mag, bump_value, if_pos up]
  · obtain rfl := Except.ok.inj done
    refine ⟨decTrim_canonical stored, decTrim_sign, ?_⟩
    rw [decTrim_mag stored (by omega), if_neg up, Nat.add_zero, DecT.mag]

end Raise

section Cut

variable {x : DecT}

theorem decAt_digit (stored : x.Stored) (fits : x.Fits) (i : Nat) : decAt x (x.exp + i) = x.d.getD i 0 := by
  have top := top_fits stored fits
  unfold decAt
  split_ifs with outside
  · rw [getD_eq_default _ _ (by omega)]
  · congr 1
    omega

theorem getD_eq (canonical : x.Canonical) (i : Nat) : x.d.getD i 0 = ofDigits 10 x.d / 10 ^ i % 10 := by
  conv_lhs => rw [← digits_eq (by decide) canonical.below canonical.short]
  exact Nat.getD_digits _ _ (by decide)

theorem any_iff (d : List Nat) (j : Nat) :
    ((List.range j).any fun i => d.getD i 0 ≠ 0) = true ↔ ofDigits 10 (d.take j) ≠ 0 := by
  rw [any_eq_true]
  induction d generalizing j with
  | nil => simp
  | cons y ys ih =>
    cases j with
    | zero => simp
    | succ j =>
      rw [take_succ_cons, Nat.ofDigits_cons]
      have tail := ih j
      constructor
      · rintro ⟨i, member, nonzero⟩
        cases i with
        | zero =>
          have : y ≠ 0 := by simpa using nonzero
          omega
        | succ i =>
          have := tail.mp ⟨i, by simpa using member, by simpa using nonzero⟩
          omega
      · intro nonzero
        by_cases zero : y = 0
        · obtain ⟨i, member, nonzero⟩ := tail.mpr (by omega)
          exact ⟨i + 1, by simpa using member, by simpa using nonzero⟩
        · exact ⟨0, by simp, by simpa using zero⟩

theorem cutAt_spec (canonical : x.Canonical) (fits : x.Fits) {j : Nat} (inside : j + 1 < x.d.length) :
    (cutAt x (x.exp + (j + 1 : ℕ))).1 = ofDigits 10 x.d / 10 ^ j % 10 ∧
      ((cutAt x (x.exp + (j + 1 : ℕ))).2.1 = true ↔ ofDigits 10 x.d % 10 ^ j ≠ 0) ∧
      (cutAt x (x.exp + (j + 1 : ℕ))).2.2 = { x with d := x.d.drop (j + 1), exp := x.exp + (j + 1 : ℕ) } := by
  have stored := canonical.toStored
  have top := top_fits stored fits
  have least := stored.least
  have place : i32 (x.exp + (j + 1 : ℕ) - 1) = x.exp + j := by
    unfold DecT.Fits at fits
    rw [i32_eq (by omega) (by omega)]
    omega
  refine ⟨?_, ?_, ?_⟩
  · rw [cutAt, place, decAt_digit stored fits, getD_eq canonical]
  · have count : (x.exp + j - x.exp).toNat = j := by omega
    simp only [cutAt, place, count, decAt_digit stored fits]
    rw [any_iff, ← Nat.ofDigits_mod_pow_eq_ofDigits_take j (by decide) x.d canonical.below]
  · have count : (x.exp + ((j + 1 : ℕ) : ℤ) - x.exp).toNat = j + 1 := by omega
    rw [cutAt, if_neg (by omega), count]

end Cut

section Sig

variable {K : Type*} [Field K] [LinearOrder K] [IsStrictOrderedRing K]

section Fraction

variable {guard : Nat} {f ρ : K} (nonneg : 0 ≤ ρ) (lt : ρ < 1) (fraction : f = (guard + ρ) / 10)
include nonneg lt fraction

theorem fraction_eq_zero : f = 0 ↔ guard = 0 ∧ ρ = 0 := by
  rw [fraction, div_eq_zero_iff, or_iff_left (by norm_num)]
  constructor
  · intro zero
    have both : (guard : K) = 0 ∧ ρ = 0 := ⟨by linarith, by linarith⟩
    exact ⟨by exact_mod_cast both.1, both.2⟩
  · rintro ⟨rfl, rfl⟩
    simp

theorem half_le_fraction : 1 / 2 ≤ f ↔ 5 ≤ guard := by
  constructor
  · intro half
    by_contra small
    have : (guard : K) ≤ 4 := by exact_mod_cast (by omega)
    linarith
  · intro large
    have : (5 : K) ≤ guard := by exact_mod_cast large
    linarith

theorem fraction_eq_half : f = 1 / 2 ↔ guard = 5 ∧ ρ = 0 := by
  constructor
  · intro half
    have large := (half_le_fraction nonneg lt fraction).mp half.ge
    have cast : (5 : K) ≤ guard := by exact_mod_cast large
    have both : (guard : K) = 5 ∧ ρ = 0 := ⟨by linarith, by linarith⟩
    exact ⟨by exact_mod_cast both.1, both.2⟩
  · rintro ⟨rfl, rfl⟩
    rw [fraction]
    norm_num

theorem half_lt_fraction : 1 / 2 < f ↔ 5 < guard ∨ guard = 5 ∧ ρ ≠ 0 := by
  rw [lt_iff_le_and_ne, half_le_fraction nonneg lt fraction, ne_comm, ne_eq, fraction_eq_half nonneg lt fraction]
  constructor
  · rintro ⟨large, other⟩
    rcases Nat.lt_or_eq_of_le large with more | rfl
    · exact Or.inl more
    · exact Or.inr ⟨rfl, fun zero => other ⟨rfl, zero⟩⟩
  · rintro (more | ⟨rfl, nonzero⟩)
    · exact ⟨by omega, fun both => absurd both.1 (by omega)⟩
    · exact ⟨le_rfl, fun both => nonzero both.2⟩

/-- The decision on the first digit and the rest is the one on the fraction. -/
theorem decRoundUp_iff (mode : Mode) (neg : Bool) (m : Nat) (rest : Bool) (some : rest = true ↔ ρ ≠ 0) :
    decRoundUp mode guard rest neg (m % 10) = true ↔ mode.Away neg m f := by
  have zero := fraction_eq_zero nonneg lt fraction
  have parity : m % 10 % 2 = m % 2 := by omega
  have nonzero : (guard ≠ 0 || rest) = true ↔ f ≠ 0 := by
    rw [Bool.or_eq_true, decide_eq_true_eq, some]
    simp only [ne_eq, ← not_and_or, zero]
  have none : rest = false ↔ ρ = 0 := by
    rw [← not_iff_not, ← ne_eq ρ, ← some]
    simp
  cases mode with
  | up => exact nonzero
  | down => simp [decRoundUp, Mode.Away]
  | ceil => rw [decRoundUp, Bool.and_eq_true, nonzero, Mode.Away, Bool.not_eq_true']
  | floor => rw [decRoundUp, Bool.and_eq_true, nonzero, Mode.Away]
  | halfUp => rw [decRoundUp, decide_eq_true_eq, Mode.Away, half_le_fraction nonneg lt fraction]
  | halfDown =>
    rw [decRoundUp, Mode.Away, half_lt_fraction nonneg lt fraction, Bool.or_eq_true, Bool.and_eq_true,
      decide_eq_true_eq, decide_eq_true_eq, some]
  | halfEven =>
    rw [decRoundUp, Mode.Away, half_lt_fraction nonneg lt fraction, fraction_eq_half nonneg lt fraction, parity,
      ← some, ← none]
    by_cases five : guard = 5
    · cases rest <;> simp [five]
    · simp [five]
  | halfOdd =>
    rw [decRoundUp, Mode.Away, half_lt_fraction nonneg lt fraction, fraction_eq_half nonneg lt fraction, parity,
      ← some, ← none]
    by_cases five : guard = 5
    · cases rest <;> simp [five]
    · simp [five]

end Fraction

/-- The modes that leave an inexact value outward. -/
def Outward (mode : Mode) (neg : Bool) : Prop := mode = .up ∨ mode = .ceil ∧ neg = false ∨ mode = .floor ∧ neg = true

instance (mode : Mode) (neg : Bool) : Decidable (Outward mode neg) := inferInstanceAs (Decidable (_ ∨ _))

omit [IsStrictOrderedRing K] in
theorem away_small (mode : Mode) (neg : Bool) (m : Nat) {f : K} (pos : 0 < f) (small : f < 1 / 2) :
    mode.Away neg m f ↔ Outward mode neg := by
  have nonzero := pos.ne'
  have below := not_le.mpr small
  have other := small.ne
  cases mode <;> simp [Mode.Away, Outward, nonzero, below, small.le, other, -one_div]

theorem decRoundUp_outward (mode : Mode) (neg : Bool) (last : Nat) :
    decRoundUp mode 0 true neg last = true ↔ Outward mode neg := by
  cases mode <;> simp [decRoundUp, Outward]

variable [FloorSemiring K] {x s : DecT} {mem : Bool} {mode : Mode} {prec : Nat} {sticky : Bool} {t : K}

section

variable (canonical : x.Canonical)
include canonical

theorem length_bounds (some : x.d ≠ []) :
    10 ^ (x.d.length - 1) ≤ ofDigits 10 x.d ∧ ofDigits 10 x.d < 10 ^ x.d.length :=
  ⟨pow_le_value canonical.short some, canonical.below.lt (by decide)⟩

/-- More than `prec` digits: the result is the one the mode selects. -/
theorem decRoundSig_cut (fits : x.Fits) (positive : 0 < prec) {j : Nat}
    (long : x.d.length = prec + j + 1) {ρ : K} (nonneg : 0 ≤ ρ) (lt : ρ < 1)
    (fraction : t / 10 ^ (j + 1) - (ofDigits 10 x.d / 10 ^ (j + 1) : ℕ) =
      ((ofDigits 10 x.d / 10 ^ j % 10 : ℕ) + ρ) / 10)
    (any : sticky = true ∨ ofDigits 10 x.d % 10 ^ j ≠ 0 ↔ ρ ≠ 0)
    (done : decRoundSig mem x prec mode sticky = .ok s) :
    s.Canonical ∧ (s.d ≠ [] → s.sign = x.sign) ∧ (s.mag : K) = rounded mode x.sign prec (t * 10 ^ x.exp) := by
  have some : x.d ≠ [] := fun none => by simp [none] at long
  have stored := canonical.toStored
  have least := stored.least
  have top := top_fits stored fits
  have target : i32 (x.top - prec) = x.exp + (j + 1 : ℕ) := by
    unfold DecT.Fits at fits
    rw [i32_eq (by omega) (by omega)]
    omega
  obtain ⟨guard, rest, left⟩ := cutAt_spec canonical fits (by omega : j + 1 < x.d.length)
  rw [decRoundSig, if_neg (fun both => absurd both.1 (by omega)), if_neg some, decRoundAt,
    if_neg (fun both => some both.1), target, if_pos ⟨by omega, some⟩, guard, left] at done
  have below : Below 10 (x.d.drop (j + 1)) := fun d member => stored.below d (mem_of_mem_drop member)
  have digits := Nat.ofDigits_div_pow_eq_ofDigits_drop (j + 1) (by decide) x.d stored.below
  have head : (x.d.drop (j + 1)).headD 0 = ofDigits 10 x.d / 10 ^ (j + 1) % 10 := by
    rw [← getD_eq canonical, headD_eq_head?_getD, head?_drop, getD_eq_getElem?_getD]
  unfold DecT.Fits at fits
  obtain ⟨canonical', sign, mag⟩ := raise_spec (x := { x with d := x.d.drop (j + 1), exp := x.exp + (j + 1 : ℕ) })
    ⟨below, by
      rw [length_drop]
      exact (Nat.sub_le _ _).trans stored.room, stored.limit, by
      dsimp only
      omega, by
      dsimp only
      omega⟩ (by
      unfold DecT.Fits
      dsimp only
      rw [length_drop]
      omega) done
  refine ⟨canonical', sign, ?_⟩
  rw [head, ← digits] at mag
  set m := ofDigits 10 x.d / 10 ^ (j + 1) with hm
  set g := ofDigits 10 x.d / 10 ^ j % 10 with hg
  obtain ⟨first, last⟩ := length_bounds canonical some
  have low : 10 ^ (prec - 1) ≤ m := by
    rw [hm, Nat.le_div_iff_mul_le (Nat.pow_pos (by decide)), ← pow_add]
    exact le_trans (Nat.pow_le_pow_right (by decide) (by omega)) first
  have high : m < 10 ^ prec := by
    rw [hm, Nat.div_lt_iff_lt_mul (Nat.pow_pos (by decide)), ← pow_add, ← add_assoc, ← long]
    exact last
  have digit : (g : K) ≤ 9 := by exact_mod_cast (by omega)
  have unit : (0 : K) < 10 ^ (x.exp + (j + 1 : ℕ)) := by positivity
  have scaled : t * 10 ^ x.exp / 10 ^ (x.exp + (j + 1 : ℕ)) = t / 10 ^ (j + 1) := by
    rw [zpow_add₀ (by norm_num), zpow_natCast, mul_comm t, mul_div_mul_left _ _ (by positivity)]
  have between : m ≤ t / 10 ^ (j + 1) ∧ t / 10 ^ (j + 1) < m + 1 := by
    constructor
    · have : 0 ≤ (g + ρ) / 10 := by positivity
      linarith
    · have : (g + ρ) / 10 < 1 := by
        rw [div_lt_one (by norm_num)]
        linarith
      linarith
  rw [← scaled, le_div_iff₀ unit, div_lt_iff₀ unit] at between
  have decision := decRoundUp_iff nonneg lt fraction mode x.sign m (sticky ||
    (cutAt x (x.exp + ((j + 1 : ℕ) : ℤ))).2.1) (by rw [Bool.or_eq_true, rest, any])
  rw [rounded_eq low high between.1 between.2, scaled, mag]
  by_cases up : mode.Away x.sign m (t / 10 ^ (j + 1) - m)
  · rw [if_pos up, if_pos (decision.mpr up)]
    push_cast
    rfl
  · rw [if_neg up, if_neg (fun yes => up (decision.mp yes))]
    push_cast
    rw [add_zero]

theorem decRoundSig_exact (some : x.d ≠ []) (short : x.d.length ≤ prec)
    (done : decRoundSig mem x prec mode false = .ok s) :
    s = x ∧ (x.mag : K) = rounded mode x.sign prec (((ofDigits 10 x.d : ℕ) : K) * 10 ^ x.exp) := by
  rw [decRoundSig, if_pos ⟨short, by decide⟩] at done
  obtain ⟨first, last⟩ := length_bounds canonical some
  have length : 0 < x.d.length := length_pos_iff.mpr some
  refine ⟨(Except.ok.inj done).symm, ?_⟩
  rw [rounded_of_digits, DecT.mag]
  · rw [Rat.cast_mul, Rat.cast_natCast, Rat.cast_zpow, Rat.cast_ofNat]
  · calc 10 ^ (prec - 1) = 10 ^ (x.d.length - 1) * 10 ^ (prec - x.d.length) := by
          rw [← pow_add]
          congr 1
          omega
      _ ≤ ofDigits 10 x.d * 10 ^ (prec - x.d.length) := Nat.mul_le_mul_right _ first
  · calc ofDigits 10 x.d * 10 ^ (prec - x.d.length)
        < 10 ^ x.d.length * 10 ^ (prec - x.d.length) := Nat.mul_lt_mul_of_pos_right last (Nat.pow_pos (by decide))
      _ = 10 ^ prec := by
          rw [← pow_add]
          congr 1
          omega

/-- At most `prec` digits and something thin behind them: a mode that goes outward adds to the
last digit stored, which is the one to raise only when there are `prec` of them. -/
theorem decRoundSig_thin (fits : x.Fits) (some : x.d ≠ [])
    (short : x.d.length ≤ prec) (least : -2147483648 ≤ x.exp + x.d.length - prec)
    (pos : (ofDigits 10 x.d : ℕ) < t) (thin : (t - (ofDigits 10 x.d : ℕ)) * 10 ^ (prec - x.d.length) < 1 / 2)
    (done : decRoundSig mem x prec mode true = .ok s) :
    s.Canonical ∧ (s.d ≠ [] → s.sign = x.sign) ∧ ((s.mag : K) = rounded mode x.sign prec (t * 10 ^ x.exp) ↔
        ¬ (x.d.length < prec ∧ Outward mode x.sign)) := by
  have stored := canonical.toStored
  have top := top_fits stored fits
  have fits' := fits
  unfold DecT.Fits at fits'
  have target : i32 (x.top - prec) = x.exp + x.d.length - prec := by
    rw [i32_eq (by omega) (by omega), top]
  rw [decRoundSig, if_neg (by simp), if_neg some, decRoundAt, if_neg (by simp), target, if_neg (by omega)] at done
  obtain ⟨canonical', sign, mag⟩ := raise_spec stored fits done
  refine ⟨canonical', sign, ?_⟩
  rw [if_congr (decRoundUp_outward mode x.sign _) rfl rfl] at mag
  obtain ⟨first, last⟩ := length_bounds canonical some
  have length : 0 < x.d.length := length_pos_iff.mpr some
  obtain ⟨k, gap⟩ : ∃ k, prec = x.d.length + k := ⟨prec - x.d.length, by omega⟩
  have shift : prec - x.d.length = k := by omega
  rw [shift] at thin
  set N := ofDigits 10 x.d with hN
  have low : 10 ^ (prec - 1) ≤ N * 10 ^ k :=
    calc 10 ^ (prec - 1) = 10 ^ (x.d.length - 1) * 10 ^ k := by
          rw [← pow_add]
          congr 1
          omega
      _ ≤ N * 10 ^ k := Nat.mul_le_mul_right _ first
  have high : N * 10 ^ k < 10 ^ prec :=
    calc N * 10 ^ k < 10 ^ x.d.length * 10 ^ k := Nat.mul_lt_mul_of_pos_right last (Nat.pow_pos (by decide))
      _ = 10 ^ prec := by rw [← pow_add, gap]
  have unit : (0 : K) < 10 ^ (x.exp - k) := by positivity
  have power : (0 : K) < 10 ^ k := by positivity
  have ten : (10 : K) ^ x.exp = 10 ^ k * 10 ^ (x.exp - k) := by
    rw [← zpow_natCast, ← zpow_add₀ (by norm_num)]
    congr 1
    omega
  have scaled : t * 10 ^ x.exp / 10 ^ (x.exp - k) = t * 10 ^ k := by
    rw [ten, ← mul_assoc, mul_div_cancel_right₀ _ unit.ne']
  have fraction : t * 10 ^ k - (N * 10 ^ k : ℕ) = (t - N) * 10 ^ k := by
    push_cast
    ring
  have small : 0 < (t - N) * 10 ^ k := mul_pos (by linarith) power
  have decision := away_small mode x.sign (N * 10 ^ k) small thin
  have between : ((N * 10 ^ k : ℕ) : K) ≤ t * 10 ^ k ∧ t * 10 ^ k < (N * 10 ^ k : ℕ) + 1 := ⟨by linarith, by linarith⟩
  rw [← scaled, le_div_iff₀ unit, div_lt_iff₀ unit] at between
  rw [rounded_eq low high between.1 between.2, scaled, fraction, mag]
  by_cases outward : Outward mode x.sign
  · rw [if_pos outward, if_pos (decision.mpr outward)]
    push_cast
    rw [ten, ← mul_assoc, mul_left_inj' unit.ne', add_mul, one_mul, add_right_inj, and_iff_left outward]
    constructor
    · intro one less
      have zero : k ≠ 0 := by omega
      have : (1 : K) < 10 ^ k := one_lt_pow₀ (by norm_num) zero
      linarith
    · intro full
      obtain rfl : k = 0 := by omega
      rw [pow_zero]
  · rw [if_neg outward, if_neg fun away => outward (decision.mp away)]
    refine iff_of_true ?_ fun both => outward both.2
    push_cast
    rw [ten]
    ring

omit canonical in
/-- What lies behind `L` digits, `k` of them zeros at the end, is thin at `prec < L` digits. -/
theorem thin_of_zeros {f : K} {L k : Nat} (less : f * 10 ^ k < 1) (long : prec < L)
    (few : L - k ≤ prec) : f * 10 ^ (prec - (L - k)) < 1 / 2 := by
  have split : (10 : K) ^ k = 10 ^ (prec - (L - k)) * 10 ^ (k - (prec - (L - k))) := by
    rw [← pow_add]
    congr 1
    omega
  have ten : (10 : K) ^ 1 ≤ 10 ^ (k - (prec - (L - k))) := pow_le_pow_right₀ (by norm_num) (by omega)
  rw [split, ← mul_assoc] at less
  nlinarith

/-- The digits of `x`, with a fraction behind them that `sticky` tells of, are rounded as the
mode says unless they are short and the mode goes outward. -/
theorem decRoundSig_iff (fits : x.Fits) (some : x.d ≠ []) (positive : 0 < prec)
    (least : -2147483648 ≤ x.exp + x.d.length - prec) (le : (ofDigits 10 x.d : ℕ) ≤ t)
    (lt : t < (ofDigits 10 x.d : ℕ) + 1) (rest : sticky = true ↔ t ≠ (ofDigits 10 x.d : ℕ))
    (thin : x.d.length ≤ prec → (t - (ofDigits 10 x.d : ℕ)) * 10 ^ (prec - x.d.length) < 1 / 2)
    (done : decRoundSig mem x prec mode sticky = .ok s) :
    s.Canonical ∧ (s.d ≠ [] → s.sign = x.sign) ∧ ((s.mag : K) = rounded mode x.sign prec (t * 10 ^ x.exp) ↔
        ¬ (sticky = true ∧ x.d.length < prec ∧ Outward mode x.sign)) := by
  by_cases short : x.d.length ≤ prec
  · cases sticky with
    | false =>
      have exact : t = (ofDigits 10 x.d : ℕ) := by
        by_contra other
        exact absurd (rest.mpr other) (by decide)
      obtain ⟨rfl, mag⟩ := decRoundSig_exact (K := K) canonical some short done
      refine ⟨canonical, fun _ => rfl, iff_of_true ?_ fun all => absurd all.1 (by decide)⟩
      rw [exact]
      exact mag
    | true =>
      have pos := lt_of_le_of_ne le (Ne.symm (rest.mp rfl))
      obtain ⟨canonical', sign, iff⟩ := decRoundSig_thin canonical fits some short least pos (thin short) done
      refine ⟨canonical', sign, iff.trans ?_⟩
      rw [eq_self_iff_true, true_and]
  · obtain ⟨j, long⟩ : ∃ j, x.d.length = prec + j + 1 := ⟨x.d.length - prec - 1, by omega⟩
    obtain ⟨ρ, nonneg, small, fraction, zero⟩ := fraction_digit le lt
    obtain ⟨canonical', sign, mag⟩ := decRoundSig_cut canonical fits positive long nonneg small fraction
      (by rw [rest, ne_eq, ne_eq, ne_eq, zero, not_and_or]) done
    exact ⟨canonical', sign, iff_of_true mag fun all => absurd all.2.1 (by omega)⟩

end

end Sig

end DynaJS.Dec
