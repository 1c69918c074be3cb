import DynaJS.Dec.Div

/-! Truncated division of decimals. -/
namespace DynaJS.Dec

open DynaJS.Digits List
open Nat (ofDigits)

/-- `dec_int_divmod`; `mem 0` to `mem 3` grant the scratch, `mem 4` and `mem 5` the digits. -/
def decIntDivmod (mem : Nat → Bool) (qout : Option DecT) (r a b : DecT) : Except Fail (Option DecT × DecT) :=
  let lo := min a.exp b.exp
  let an := a.exp + a.d.length - lo
  let bn := b.exp + b.d.length - lo
  if b.d = [] then .error .zeroDivisor
  else if a.d = [] then
    .ok (qout.map fun q => { q with d := [], exp := 0, sign := false }, { r with d := [], exp := 0, sign := false })
  else if an < 0 ∨ bn < 0 ∨ maxDigits < an ∨ maxDigits < bn then .error .exceeded
  else if maxDivCells < an * bn then .error .tooSlow
  else if ¬ (mem 0 ∧ mem 1 ∧ mem 2 ∧ mem 3) then .error .exceeded
  else
    match decDivmodInt (List.replicate (a.exp - lo).toNat 0 ++ a.d) (List.replicate (b.exp - lo).toNat 0 ++ b.d) with
    | none => .error .exceeded
    | some (q, rem) =>
      match decGrow (mem 4) r.cap (if rem = [] then 1 else rem.length) with
      | none => .error .exceeded
      | some cap =>
        let rest := decTrim ⟨lo, rem, cap, a.sign⟩
        match qout with
        | none => .ok (none, rest)
        | some x =>
          match decGrow (mem 5) x.cap (if q = [] then 1 else q.length) with
          | none => .error .exceeded
          | some cap => .ok (some (decTrim ⟨0, q, cap, (a.sign ^^ b.sign) && q ≠ []⟩), rest)

def decMod (mem : Nat → Bool) (r a b : DecT) : Except Fail DecT := (decIntDivmod mem none r a b).map Prod.snd

/-- `x` in units of `10 ^ lo`. -/
def DecT.units (x : DecT) (lo : Int) : Nat := 10 ^ (x.exp - lo).toNat * ofDigits 10 x.d

/-- The exponent of the remainder, its zeros cut, is an `int32_t`. -/
def RestFits (a b : DecT) : Prop :=
  let lo := min a.exp b.exp
  lo + lowZeros (Nat.digits 10 (a.units lo % b.units lo)) < 2147483648

variable {a b x : DecT} {lo : Int}

theorem mag_eq_units (low : lo ≤ x.exp) : x.mag = (x.units lo : ℕ) * 10 ^ lo := by
  obtain ⟨k, gap⟩ : ∃ k : Nat, x.exp = lo + k := ⟨(x.exp - lo).toNat, by omega⟩
  have shift : (x.exp - lo).toNat = k := by omega
  rw [DecT.mag, DecT.units, shift, gap, zpow_add₀ (by norm_num), zpow_natCast]
  push_cast
  ring

/-- The digits of `n` at `exp`, their zeros cut. -/
theorem decTrim_digits (n : Nat) (exp : Int) (sign : Bool) {cap : Nat}
    (room : (Nat.digits 10 n).length ≤ cap ∧ cap ≤ maxDigits) (least : -2147483648 ≤ exp) (most : exp < 2147483648) :
    let x := decTrim ⟨exp, Nat.digits 10 n, cap, sign⟩
    x.Canonical ∧ (x.d ≠ [] → x.sign = sign) ∧
      (x.mag = n * 10 ^ exp ↔ exp + lowZeros (Nat.digits 10 n) < 2147483648) := by
  have stored : DecT.Stored ⟨exp, Nat.digits 10 n, cap, sign⟩ :=
    ⟨fun d member => Nat.digits_lt_base (by decide) member, room.1, room.2, least, most⟩
  have short : Short (Nat.digits 10 n) := fun some =>
    Nat.getLast_digit_ne_zero 10 (Nat.digits_ne_nil_iff_ne_zero.mp some)
  refine ⟨decTrim_canonical stored, decTrim_sign, ?_⟩
  have iff := decTrim_mag_iff stored
  simp only [DecT.mag, Nat.ofDigits_digits, strip_eq_self short] at iff ⊢
  exact iff

/-- `dec_divmod_int` leaves the digits of the integer quotient and of the integer remainder. -/
theorem decDivmodInt_units (ca : a.Canonical) (cb : b.Canonical) (nonzero : b.d ≠ []) (lo : Int) :
    decDivmodInt (List.replicate (a.exp - lo).toNat 0 ++ a.d) (List.replicate (b.exp - lo).toNat 0 ++ b.d) =
      some (Nat.digits 10 (a.units lo / b.units lo), Nat.digits 10 (a.units lo % b.units lo)) := by
  have below : ∀ {x : DecT}, x.Canonical → Below 10 (List.replicate (x.exp - lo).toNat 0 ++ x.d) := fun cx =>
    below_append.mpr ⟨fun d member => by rw [eq_of_mem_replicate member]; decide, cx.below⟩
  have short : Short (List.replicate (b.exp - lo).toNat 0 ++ b.d) := fun some => by
    rw [getLast_append_of_right_ne_nil _ _ nonzero]
    exact cb.short nonzero
  have division := decDivmodInt_spec (below cb) short (append_ne_nil_of_right_ne_nil _ nonzero) (below ca)
  rwa [value_replicate_append, value_replicate_append] at division

/-- What is returned: the quotient and the remainder of the integers, their zeros cut. -/
theorem decIntDivmod_ok {mem : Nat → Bool} {q₀ r₀ q r : DecT} (limitQ : q₀.cap ≤ maxDigits)
    (limitR : r₀.cap ≤ maxDigits) (ca : a.Canonical) (cb : b.Canonical) (nonzero : b.d ≠ [])
    (eq : lo = min a.exp b.exp) {dq dr : List Nat}
    (hq : dq = Nat.digits 10 (a.units lo / b.units lo)) (hr : dr = Nat.digits 10 (a.units lo % b.units lo))
    (done : decIntDivmod mem (some q₀) r₀ a b = .ok (some q, r)) :
    decMod mem r₀ a b = .ok r ∧
      (∃ cap, (dq.length ≤ cap ∧ cap ≤ maxDigits) ∧ decTrim ⟨0, dq, cap, (a.sign ^^ b.sign) && dq ≠ []⟩ = q) ∧
      ∃ cap, (dr.length ≤ cap ∧ cap ≤ maxDigits) ∧ decTrim ⟨lo, dr, cap, a.sign⟩ = r := by
  unfold decMod
  simp only [decIntDivmod, if_neg nonzero, ← eq, decDivmodInt_units ca cb nonzero, ← hq, ← hr] at done ⊢
  by_cases none : a.d = []
  · have zero : a.units lo = 0 := by rw [DecT.units, none, Nat.ofDigits_nil, Nat.mul_zero]
    rw [zero, Nat.zero_div] at hq
    rw [zero] at hr
    rw [if_pos none] at done ⊢
    obtain ⟨quotient, rfl⟩ := Prod.mk.inj (Except.ok.inj done)
    obtain rfl := Option.some.inj quotient
    subst hq hr
    exact ⟨rfl, ⟨q₀.cap, ⟨Nat.zero_le _, limitQ⟩, rfl⟩, r₀.cap, ⟨Nat.zero_le _, limitR⟩, rfl⟩
  rw [if_neg none] at done ⊢
  obtain ⟨wide, done⟩ := guard_ok done
  obtain ⟨slow, done⟩ := guard_ok done
  obtain ⟨given, done⟩ := guard_ok done
  rw [if_neg wide, if_neg slow, if_neg given]
  split at done
  · contradiction
  rename_i cap grown
  split at done
  · contradiction
  rename_i cap' grown'
  obtain ⟨quotient, rfl⟩ := Prod.mk.inj (Except.ok.inj done)
  exact ⟨rfl, ⟨cap', decGrow_room grown' limitQ, Option.some.inj quotient⟩, cap, decGrow_room grown limitR, rfl⟩

/-- Over the integers, in units of `10 ^ lo`. -/
theorem divmod_units (cb : b.Canonical) (nonzero : b.d ≠ []) (lowA : lo ≤ a.exp) (lowB : lo ≤ b.exp) {q r : ℚ}
    (quotient : q = (a.units lo / b.units lo : ℕ)) :
    a.mag = q * b.mag + r ∧ r < b.mag ↔ r = (a.units lo % b.units lo : ℕ) * 10 ^ lo := by
  have unit : (0 : ℚ) < 10 ^ lo := by positivity
  have positive : 0 < b.units lo := by
    have mag := mag_pos cb nonzero
    rw [mag_eq_units lowB] at mag
    exact_mod_cast pos_of_mul_pos_left mag unit.le
  have euclid : ((a.units lo : ℕ) : ℚ) = q * b.units lo + (a.units lo % b.units lo : ℕ) := by
    rw [quotient]
    exact_mod_cast (Nat.div_add_mod' (a.units lo) (b.units lo)).symm
  rw [mag_eq_units lowA, mag_eq_units lowB, euclid]
  constructor
  · rintro ⟨whole, -⟩
    linear_combination -whole
  · rintro rfl
    refine ⟨by ring, mul_lt_mul_of_pos_right ?_ unit⟩
    exact_mod_cast Nat.mod_lt _ positive

theorem abs_value (x : DecT) : |x.value| = x.mag := by
  have nonneg := mag_nonneg x
  unfold DecT.value
  split_ifs
  · rw [abs_neg, abs_of_nonneg nonneg]
  · exact abs_of_nonneg nonneg

/-- `dec_int_divmod` divides as integers are divided, toward zero, exactly when the exponent of the
remainder does not leave the `int32_t`. -/
theorem divmod_truncates_iff (a b q₀ r₀ : Decimal) (nonzero : b.d ≠ []) (mem : Nat → Bool) {q r : DecT}
    (done : decIntDivmod mem (some q₀.toDecT) r₀.toDecT a.toDecT b.toDecT = .ok (some q, r)) :
    q.Canonical ∧ r.Canonical ∧ (∃ n : ℤ, q.value = n) ∧ (q.d = [] ∨ q.sign = (a.sign ^^ b.sign)) ∧
      (r.d = [] ∨ r.sign = a.sign) ∧ decMod mem r₀.toDecT a.toDecT b.toDecT = .ok r ∧
      (a.value = q.value * b.value + r.value ∧ |r.value| < |b.value| ↔ RestFits a.toDecT b.toDecT) := by
  obtain ⟨lo, eq⟩ : ∃ lo, lo = min a.exp b.exp := ⟨_, rfl⟩
  have leastA := a.canonical.least
  have leastB := b.canonical.least
  have most := a.canonical.most
  obtain ⟨mod, ⟨capQ, roomQ, hq⟩, capR, roomR, hr⟩ := decIntDivmod_ok q₀.canonical.limit r₀.canonical.limit
    a.canonical b.canonical nonzero eq rfl rfl done
  obtain ⟨cq, signQ, magQ⟩ := decTrim_digits _ 0 _ roomQ (by decide) (by decide)
  obtain ⟨cr, signR, magR⟩ := decTrim_digits _ lo a.sign roomR (by omega) (by omega)
  rw [hq] at cq signQ magQ
  rw [hr] at cr signR magR
  have signQ : q.d ≠ [] → q.sign = (a.sign ^^ b.sign) := fun some => by
    rw [signQ some]
    by_cases none : Nat.digits 10 (a.units lo / b.units lo) = []
    · rw [← hq, none] at some
      exact absurd rfl some
    · simp [none]
  have short : lowZeros (Nat.digits 10 (a.units lo / b.units lo)) ≤ 100000 :=
    (takeWhile_sublist _).length_le.trans (roomQ.1.trans roomQ.2)
  rw [zpow_zero, mul_one, iff_true_right (by omega)] at magQ
  have valueQ := value_of_sign cq signQ
  refine ⟨cq, cr, ?_, or_iff_not_imp_left.mpr signQ, or_iff_not_imp_left.mpr signR, mod, ?_⟩
  · rw [valueQ, magQ]
    cases a.sign ^^ b.sign
    · exact ⟨(a.units lo / b.units lo : ℕ), (Int.cast_natCast _).symm⟩
    · exact ⟨-(a.units lo / b.units lo : ℕ), by push_cast; rfl⟩
  have product : q.value * b.value = if a.sign then -(q.mag * b.mag) else q.mag * b.mag := by
    rw [valueQ, DecT.value]
    cases a.sign <;> cases b.sign <;> simp
  rw [RestFits, ← eq, ← magR, ← divmod_units b.canonical nonzero (by omega) (by omega) magQ, abs_value, abs_value,
    product, value_of_sign cr signR, DecT.value]
  refine and_congr_left fun _ => ?_
  cases a.sign
  · rfl
  · simp only [if_true, ← neg_add, neg_inj]

/-- `-7` by `2`. -/
theorem divmod_truncates_seven : decIntDivmod (fun _ => true) (some decInit) decInit
        ⟨0, [7], decInline, true⟩ (unitDec 1).toDecT =
      .ok (some ⟨0, [3], decInline, true⟩, ⟨0, [1], decInline, true⟩) ∧
    DecT.value ⟨0, [7], decInline, true⟩ = DecT.value ⟨0, [3], decInline, true⟩ * (unitDec 1).value +
      DecT.value ⟨0, [1], decInline, true⟩ := by
  have done : decIntDivmod (fun _ => true) (some decInit) decInit ⟨0, [7], decInline, true⟩ (unitDec 1).toDecT =
      .ok (some ⟨0, [3], decInline, true⟩, ⟨0, [1], decInline, true⟩) := by decide +kernel
  exact ⟨done, ((divmod_truncates_iff ⟨⟨0, [7], decInline, true⟩, by decide⟩ (unitDec 1) ⟨decInit, by decide⟩
    ⟨decInit, by decide⟩ (by decide) (fun _ => true) done).2.2.2.2.2.2.mpr (by unfold RestFits; decide +kernel)).1⟩

/-- `31E2147483647` by `21E2147483647` leaves `10E2147483647`: its zero is cut, and the exponent wraps. -/
theorem rest_exponent_wraps : decIntDivmod (fun _ => true) (some decInit) decInit
        ⟨2147483647, [1, 3], decInline, false⟩ ⟨2147483647, [1, 2], decInline, false⟩ =
      .ok (some ⟨0, [1], decInline, false⟩, ⟨-2147483648, [1], decInline, false⟩) ∧
    DecT.value ⟨2147483647, [1, 3], decInline, false⟩ ≠
      DecT.value ⟨0, [1], decInline, false⟩ * DecT.value ⟨2147483647, [1, 2], decInline, false⟩ +
        DecT.value ⟨-2147483648, [1], decInline, false⟩ := by
  refine ⟨by decide +kernel, fun eq => ?_⟩
  have less : (10 : ℚ) ^ (-2147483648 : ℤ) < 10 ^ (2147483647 : ℤ) := zpow_lt_zpow_right₀ (by norm_num) (by norm_num)
  have pos : (0 : ℚ) < 10 ^ (2147483647 : ℤ) := by positivity
  simp only [DecT.value, DecT.mag, Bool.false_eq_true, if_false, zpow_zero] at eq
  generalize (10 : ℚ) ^ (2147483647 : ℤ) = X at *
  generalize (10 : ℚ) ^ (-2147483648 : ℤ) = Y at *
  norm_num [Nat.ofDigits] at eq
  linarith

end DynaJS.Dec
