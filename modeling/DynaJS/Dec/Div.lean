import DynaJS.Dec.Round

/-! Division of decimals. -/
namespace DynaJS.Dec

open DynaJS.Digits List
open DynaJS.Rounding
open Nat (ofDigits)

def maxDivCells : Nat := 8388608

def decGe (rem b : List Nat) : Bool :=
  if rem.length ≠ b.length then b.length < rem.length else order rem b ≠ .lt

def subPairs : List Nat → List Nat → List (Nat × Nat)
  | [], _ => []
  | x :: xs, [] => (x, 0) :: subPairs xs []
  | x :: xs, y :: ys => (x, y) :: subPairs xs ys

def decSubInto (rem b : List Nat) : List Nat := strip (borrow 10 0 (subPairs rem b)).1

/-- A digit of `dec_divmod_int`: how often `b` goes, unless that is more than nine times. -/
def divDigit (b : List Nat) : Nat → List Nat → Option (Nat × List Nat)
  | 0, _ => none
  | left + 1, rem =>
    if decGe rem b then (divDigit b left (decSubInto rem b)).map fun r => (r.1 + 1, r.2)
    else some (0, rem)

def divLoop (b : List Nat) : List Nat → Option (List Nat × List Nat)
  | [] => some ([], [])
  | x :: xs => do
    let high ← divLoop b xs
    let digit ← divDigit b 10 (strip (x :: high.2))
    some (digit.1 :: high.1, digit.2)

def decDivmodInt (a b : List Nat) : Option (List Nat × List Nat) := (divLoop b a).map fun r => (strip r.1, r.2)

/-- `dec_div`; `mem 0`, `mem 1` and `mem 2` grant the scratch, `mem 3` and `mem 4` the digits. -/
def decDiv (mem : Nat → Bool) (r a b : DecT) (prec : Nat) (mode : Mode) : Except Fail DecT :=
  let extra := prec + 2 + b.d.length
  let nn := a.d.length + extra
  if b.d = [] then .error .zeroDivisor
  else if a.d = [] then .ok { r with d := [], exp := 0, sign := false }
  else if maxDigits < extra ∨ maxDigits - extra < a.d.length then .error .exceeded
  else if maxDivCells < nn * b.d.length then .error .tooSlow
  else if ¬ (mem 0 ∧ mem 1 ∧ mem 2) then .error .exceeded
  else
    match decDivmodInt (List.replicate extra 0 ++ a.d) b.d with
    | none => .error .exceeded
    | some (q, rem) =>
      match decGrow (mem 3) r.cap (if q = [] then 1 else q.length) with
      | none => .error .exceeded
      | some cap =>
        let e := a.exp - b.exp - extra
        if 2000000000 < e ∨ e < -2000000000 then .error .exceeded
        else decRoundSig (mem 4) (decTrim ⟨e, q, cap, a.sign ^^ b.sign⟩) prec mode (rem ≠ [])

section Subtract

variable {rem b : List Nat}

theorem decGe_iff (br : Below 10 rem) (sr : Short rem) (bb : Below 10 b) (sb : Short b) :
    decGe rem b = true ↔ ofDigits 10 b ≤ ofDigits 10 rem := by
  unfold decGe
  split_ifs with differ
  · rw [decide_eq_true_eq]
    constructor
    · intro longer
      exact (lt_of_length_lt (by decide) bb sr longer).le
    · intro le
      by_contra shorter
      have := lt_of_length_lt (by decide) br sb (by omega)
      omega
  · rw [decide_eq_true_eq, order_value (not_not.mp differ) br bb, ne_eq, compare_lt_iff_lt, not_lt]

theorem subPairs_fst (rem b : List Nat) : (subPairs rem b).map Prod.fst = rem := by
  induction rem generalizing b with
  | nil => rfl
  | cons x xs ih =>
    cases b with
    | nil => rw [subPairs, map_cons, ih]
    | cons y ys => rw [subPairs, map_cons, ih]

theorem subPairs_nil (rem : List Nat) : (subPairs rem []).map Prod.snd = List.replicate rem.length 0 := by
  induction rem with
  | nil => rfl
  | cons x xs ih => rw [subPairs, map_cons, ih, length_cons, replicate_succ]

theorem subPairs_snd (short : b.length ≤ rem.length) :
    (subPairs rem b).map Prod.snd = b ++ List.replicate (rem.length - b.length) 0 := by
  induction rem generalizing b with
  | nil =>
    obtain rfl : b = [] := length_eq_zero_iff.mp (by simpa using short)
    rfl
  | cons x xs ih =>
    cases b with
    | nil => rw [subPairs_nil, length_nil, Nat.sub_zero, nil_append]
    | cons y ys =>
      rw [subPairs, map_cons, ih (by simpa using short), length_cons, length_cons, Nat.add_sub_add_right, cons_append]

theorem decSubInto_spec (br : Below 10 rem) (bb : Below 10 b) (sb : Short b) (le : ofDigits 10 b ≤ ofDigits 10 rem) :
    ofDigits 10 (decSubInto rem b) + ofDigits 10 b = ofDigits 10 rem ∧ Below 10 (decSubInto rem b) ∧
      Short (decSubInto rem b) := by
  have short : b.length ≤ rem.length := by
    by_contra longer
    have := lt_of_length_lt (by decide) br sb (by omega)
    omega
  have fst := subPairs_fst rem b
  have snd := subPairs_snd short
  have first : ∀ z ∈ subPairs rem b, z.1 < 10 := fun z member =>
    br z.1 (fst ▸ mem_map_of_mem member)
  have second : ∀ z ∈ subPairs rem b, z.2 < 10 := fun z member => by
    have inside : z.2 ∈ b ++ List.replicate (rem.length - b.length) 0 := snd ▸ mem_map_of_mem member
    rcases mem_append.mp inside with digit | zero
    · exact bb z.2 digit
    · rw [eq_of_mem_replicate zero]
      decide
  have value : ofDigits 10 ((subPairs rem b).map Prod.snd) = ofDigits 10 b := by
    rw [snd, Nat.ofDigits_append_replicate_zero]
  have difference := borrow_fits (subPairs rem b) (by decide) first second (by rw [value, fst]; exact le)
  rw [value, fst] at difference
  exact ⟨by rw [decSubInto, strip_value, difference], strip_below (borrow_below 0 _ first), strip_short _⟩

end Subtract

section Divide

variable {b : List Nat}

structure Rem (b rem : List Nat) : Prop where
  below : Below 10 rem
  short : Short rem
  less : ofDigits 10 rem < ofDigits 10 b

variable (bb : Below 10 b)
include bb

theorem divDigit_spec (sb : Short b) (left : Nat) {rem : List Nat} (br : Below 10 rem)
    (sr : Short rem) (less : ofDigits 10 rem < left * ofDigits 10 b) :
    ∃ d rem', divDigit b left rem = some (d, rem') ∧ d < left ∧ Rem b rem' ∧
      d * ofDigits 10 b + ofDigits 10 rem' = ofDigits 10 rem := by
  induction left generalizing rem with
  | zero => simp at less
  | succ left ih =>
    rw [divDigit]
    by_cases ge : decGe rem b = true
    · have le := (decGe_iff br sr bb sb).mp ge
      obtain ⟨value, below, short⟩ := decSubInto_spec br bb sb le
      obtain ⟨d, rem', done, count, inv, total⟩ := ih below short (by rw [Nat.succ_mul] at less; omega)
      refine ⟨d + 1, rem', ?_, by omega, inv, ?_⟩
      · rw [if_pos ge, done]
        rfl
      · rw [Nat.succ_mul]
        omega
    · refine ⟨0, rem, if_neg ge, Nat.succ_pos _, ⟨br, sr, ?_⟩, by rw [Nat.zero_mul, Nat.zero_add]⟩
      exact not_le.mp fun le => ge ((decGe_iff br sr bb sb).mpr le)

theorem divLoop_spec (sb : Short b) (present : b ≠ []) {a : List Nat} (ba : Below 10 a) :
    ∃ q rem, divLoop b a = some (q, rem) ∧ Below 10 q ∧ Rem b rem ∧
      ofDigits 10 q * ofDigits 10 b + ofDigits 10 rem = ofDigits 10 a := by
  have positive : 0 < ofDigits 10 b :=
    Nat.pos_of_ne_zero fun zero => present ((value_eq_zero_iff sb (by decide)).mp zero)
  induction a with
  | nil =>
    refine ⟨[], [], rfl, forall_mem_nil _, ⟨forall_mem_nil _,
      fun here => absurd rfl here, positive⟩, by simp⟩
  | cons x xs ih =>
    obtain ⟨digit, ba⟩ := below_cons.mp ba
    obtain ⟨q, rem, done, below, inv, total⟩ := ih ba
    have value : ofDigits 10 (strip (x :: rem)) = x + 10 * ofDigits 10 rem := by
      rw [strip_value, Nat.ofDigits_cons]
    have less := inv.less
    obtain ⟨d, rem', digit', count, inv', total'⟩ := divDigit_spec bb sb 10
      (strip_below (below_cons.mpr ⟨digit, inv.below⟩)) (strip_short (x :: rem)) (by omega)
    refine ⟨d :: q, rem', ?_, below_cons.mpr ⟨count, below⟩, inv', ?_⟩
    · rw [divLoop, done]
      change (divDigit b 10 (strip (x :: rem))).bind _ = _
      rw [digit']
      rfl
    · rw [Nat.ofDigits_cons, Nat.ofDigits_cons, ← total]
      rw [value] at total'
      linear_combination total'

theorem decDivmodInt_spec (sb : Short b) (present : b ≠ []) {a : List Nat} (ba : Below 10 a) :
    decDivmodInt a b =
      some (Nat.digits 10 (ofDigits 10 a / ofDigits 10 b), Nat.digits 10 (ofDigits 10 a % ofDigits 10 b)) := by
  obtain ⟨q, rem, done, below, inv, total⟩ := divLoop_spec bb sb present ba
  obtain ⟨quotient, remainder⟩ := (Nat.div_mod_unique (a := ofDigits 10 a) (d := ofDigits 10 q)
    (lt_of_le_of_lt (Nat.zero_le _) inv.less)).mpr
    ⟨by rw [← total]; ring, inv.less⟩
  rw [decDivmodInt, done, quotient, remainder, ← strip_value 10 q,
    digits_eq (by decide) (strip_below below) (strip_short q), digits_eq (by decide) inv.below inv.short]
  rfl

end Divide

section Quotient

def sigDigits (n : Nat) : Nat := (Nat.digits 10 n).length - lowZeros (Nat.digits 10 n)

def quotient (a b : DecT) (prec : Nat) : Nat := ofDigits 10 a.d * 10 ^ (prec + 2 + b.d.length) / ofDigits 10 b.d

def remainder (a b : DecT) (prec : Nat) : Nat := ofDigits 10 a.d * 10 ^ (prec + 2 + b.d.length) % ofDigits 10 b.d

variable {r a b s : DecT} {prec : Nat} {mode : Mode} {mem : Nat → Bool}

theorem pow_le_quotient (prec : Nat) (ca : a.Canonical) (cb : b.Canonical) (someA : a.d ≠ []) (someB : b.d ≠ []) :
    10 ^ (prec + 2) ≤ quotient a b prec := by
  have first := (length_bounds ca someA).1
  have last := (length_bounds cb someB).2
  have one : 1 ≤ ofDigits 10 a.d := le_trans (Nat.one_le_pow _ _ (by decide)) first
  have positive : 0 < ofDigits 10 b.d := lt_of_lt_of_le (Nat.pow_pos (by decide)) (length_bounds cb someB).1
  rw [quotient, Nat.le_div_iff_mul_le positive, pow_add _ (prec + 2)]
  calc 10 ^ (prec + 2) * ofDigits 10 b.d ≤ 10 ^ (prec + 2) * 10 ^ b.d.length := Nat.mul_le_mul_left _ last.le
    _ = 1 * (10 ^ (prec + 2) * 10 ^ b.d.length) := (Nat.one_mul _).symm
    _ ≤ ofDigits 10 a.d * (10 ^ (prec + 2) * 10 ^ b.d.length) := Nat.mul_le_mul_right _ one

theorem decTrim_short {exp : Int} {d : List Nat} {cap : Nat} {sign : Bool} (short : Short d) (some : d ≠ [])
    (least : -2147483648 ≤ exp) (fits : exp + d.length ≤ 2147483648) :
    decTrim ⟨exp, d, cap, sign⟩ = ⟨exp + lowZeros d, d.drop (lowZeros d), cap, sign⟩ := by
  have less := lowZeros_lt short some
  simp only [decTrim, strip_eq_self short, if_neg some]
  rw [i32_eq (by omega) (by omega)]

/-- The magnitude is rounded as the mode says, unless a mode that goes outward meets a quotient
whose digits end before `prec`. -/
theorem decRoundSig_quotient (ca : a.Canonical) (cb : b.Canonical) (someA : a.d ≠ []) (someB : b.d ≠ [])
    (positive : 0 < prec) {cap : Nat} {sign mem : Bool} {e : Int}
    (exp : e = a.exp - b.exp - (prec + 2 + b.d.length : ℕ))
    (far : ¬ (2000000000 < e ∨ e < -2000000000)) (room : (Nat.digits 10 (quotient a b prec)).length ≤ cap)
    (limit : cap ≤ maxDigits) {sticky : Bool} (rest : sticky = true ↔ remainder a b prec ≠ 0)
    (done : decRoundSig mem (decTrim ⟨e, Nat.digits 10 (quotient a b prec), cap, sign⟩) prec mode sticky = .ok s) :
    s.Canonical ∧ (s.d ≠ [] → s.sign = sign) ∧ (s.mag = rounded mode sign prec (a.mag / b.mag) ↔
        ¬ (remainder a b prec ≠ 0 ∧ sigDigits (quotient a b prec) < prec ∧ Outward mode sign)) := by
  have large := pow_le_quotient prec ca cb someA someB
  set Q := quotient a b prec with hQ
  set D := Nat.digits 10 Q with hD
  have nonzero : Q ≠ 0 := (lt_of_lt_of_le (Nat.pow_pos (by decide)) large).ne'
  have some : D ≠ [] := Nat.digits_ne_nil_iff_ne_zero.mpr nonzero
  have short : Short D := fun here => Nat.getLast_digit_ne_zero 10 nonzero
  have below : Below 10 D := fun d member => Nat.digits_lt_base (by decide) member
  have value : ofDigits 10 D = Q := Nat.ofDigits_digits 10 Q
  have less := lowZeros_lt short some
  have length : prec + 2 < D.length := by
    by_contra few
    have bound := below.lt (by decide)
    rw [value] at bound
    have := Nat.pow_le_pow_right (by decide : 0 < 10) (not_lt.mp few)
    omega
  have cells : cap ≤ 100000 := limit
  have stored : DecT.Stored ⟨e, D, cap, sign⟩ :=
    ⟨below, room, limit, by dsimp only; omega, by dsimp only; omega⟩
  have canonical := decTrim_canonical stored
  rw [decTrim_short short some (by omega) (by omega)] at done canonical
  set k := lowZeros D with hk
  have whole := lowZeros_value 10 D
  rw [value, ← hk] at whole
  set N := ofDigits 10 (D.drop k) with hN
  have unit : (0 : ℚ) < 10 ^ k := by positivity
  have posB : 0 < ofDigits 10 b.d := lt_of_lt_of_le (Nat.pow_pos (by decide)) (length_bounds cb someB).1
  have posB' : (0 : ℚ) < (ofDigits 10 b.d : ℕ) := by exact_mod_cast posB
  have small : remainder a b prec < ofDigits 10 b.d := Nat.mod_lt _ posB
  -- the quotient is `t` in units of the last digit kept
  obtain ⟨t, ht⟩ : ∃ t, t = N + remainder a b prec / ((ofDigits 10 b.d : ℕ) : ℚ) / 10 ^ k := ⟨_, rfl⟩
  have fraction : (remainder a b prec : ℚ) / (ofDigits 10 b.d : ℕ) < 1 := by
    rw [div_lt_one posB']
    exact_mod_cast small
  have nonneg : (0 : ℚ) ≤ remainder a b prec / (ofDigits 10 b.d : ℕ) := by positivity
  have one : (1 : ℚ) ≤ 10 ^ k := one_le_pow₀ (by norm_num)
  have ratio : t * 10 ^ (e + k) = a.mag / b.mag := by
    have euclid : ((ofDigits 10 a.d : ℕ) : ℚ) * 10 ^ (prec + 2 + b.d.length) =
        (ofDigits 10 b.d : ℕ) * (10 ^ k * N) + remainder a b prec := by
      have nat := Nat.div_add_mod (ofDigits 10 a.d * 10 ^ (prec + 2 + b.d.length)) (ofDigits 10 b.d)
      rw [← quotient, ← remainder, ← hQ, whole] at nat
      exact_mod_cast nat.symm
    have scale : (10 : ℚ) ^ a.exp = 10 ^ e * 10 ^ b.exp * 10 ^ (prec + 2 + b.d.length) := by
      rw [← zpow_natCast, ← zpow_add₀ (by norm_num), ← zpow_add₀ (by norm_num), exp]
      congr 1
      ring
    rw [ht, DecT.mag, DecT.mag, scale, zpow_add₀ (by norm_num), zpow_natCast]
    field_simp
    linear_combination -euclid
  have last : (t - N) * 10 ^ k < 1 := by
    rw [ht, add_sub_cancel_left, div_mul_cancel₀ _ unit.ne']
    exact fraction
  have dropped : (D.drop k).length = D.length - k := length_drop
  have some' : D.drop k ≠ [] := by
    rw [← length_pos_iff, dropped]
    omega
  obtain ⟨canonical', sign', iff⟩ := decRoundSig_iff (t := t) canonical
    (by unfold DecT.Fits; dsimp only; rw [dropped]; omega) some' positive (by dsimp only; rw [dropped]; omega)
    (by rw [← hN, ht]; exact le_add_of_nonneg_right (div_nonneg nonneg unit.le))
    (by
      rw [← hN, ht]
      have : remainder a b prec / ((ofDigits 10 b.d : ℕ) : ℚ) / 10 ^ k < 1 := by
        rw [div_lt_one unit]
        linarith
      linarith)
    (by
      rw [rest, ← hN, ht, ne_eq, ne_eq, add_eq_left, div_eq_zero_iff, or_iff_left unit.ne', div_eq_zero_iff,
        or_iff_left posB'.ne', Nat.cast_eq_zero])
    (fun few => by
      rw [dropped] at few ⊢
      exact thin_of_zeros last (by omega) few)
    done
  refine ⟨canonical', sign', ?_⟩
  rw [Rat.cast_id, ratio] at iff
  rw [iff, rest, dropped]
  rfl

/-- `dec_div` returns the quotient rounded to `prec` digits as the mode says, exactly unless the
quotient is inexact, the digits computed end before `prec`, and the mode goes outward. -/
theorem div_rounded_iff (a b r : Decimal) (nonzero : b.d ≠ []) (mode : Mode) {prec : Nat} (positive : 1 ≤ prec)
    (mem : Nat → Bool) {s : DecT} (done : decDiv mem r.toDecT a.toDecT b.toDecT prec mode = .ok s) :
    s.Canonical ∧ (s.value = roundTo mode prec (a.value / b.value) ↔
      ¬ (remainder a.toDecT b.toDecT prec ≠ 0 ∧ sigDigits (quotient a.toDecT b.toDecT prec) < prec ∧
        Outward mode (a.sign ^^ b.sign))) := by
  have ca := a.canonical
  have cb := b.canonical
  have stored := r.canonical.toStored
  simp only [decDiv, if_neg nonzero] at done
  by_cases zero : a.d = []
  · rw [if_pos zero] at done
    obtain rfl := Except.ok.inj done
    have canonical := canonical_nil stored.limit
    refine ⟨canonical, iff_of_true ?_ ?_⟩
    · rw [value_of_nil canonical rfl, value_of_nil ca zero, zero_div, roundTo, if_pos rfl]
    · rintro ⟨some, -⟩
      exact some (by rw [remainder, zero, Nat.ofDigits_nil, Nat.zero_mul, Nat.zero_mod])
  rw [if_neg zero] at done
  obtain ⟨-, done⟩ := guard_ok done
  obtain ⟨-, done⟩ := guard_ok done
  obtain ⟨-, done⟩ := guard_ok done
  have division := decDivmodInt_spec cb.below cb.short nonzero
    (a := List.replicate (prec + 2 + b.d.length) 0 ++ a.d)
    (below_append.mpr ⟨fun d member => by rw [eq_of_mem_replicate member]; decide, ca.below⟩)
  rw [value_replicate_append, Nat.mul_comm] at division
  rw [division] at done
  dsimp only at done
  split at done
  · contradiction
  rename_i cap grown
  obtain ⟨far, done⟩ := guard_ok done
  obtain ⟨room, limit⟩ := decGrow_room grown stored.limit
  obtain ⟨canonical, sign, iff⟩ := decRoundSig_quotient ca cb zero nonzero positive rfl far room limit
    (by rw [decide_eq_true_eq]; exact Nat.digits_ne_nil_iff_ne_zero) done
  refine ⟨canonical, ?_⟩
  have ratio : a.value / b.value = if (a.sign ^^ b.sign) then -(a.mag / b.mag) else a.mag / b.mag := by
    rw [DecT.value, DecT.value]
    cases a.sign <;> cases b.sign <;> simp [div_neg, neg_div]
  rw [value_of_sign canonical sign, ratio, roundTo_signed _ _ _ (div_pos (mag_pos ca zero) (mag_pos cb nonzero)),
    ← iff]
  cases a.sign ^^ b.sign
  · simp
  · simp

def unitDec (n : Fin 9) : Decimal := ⟨⟨0, [n + 1], decInline, false⟩, by revert n; decide⟩

/-- A third to two digits. -/
theorem div_rounded_third : decDiv (fun _ => true) decInit (unitDec 0).toDecT (unitDec 2).toDecT 2 .halfEven =
        .ok ⟨-2, [3, 3], decInline, false⟩ ∧
      DecT.value ⟨-2, [3, 3], decInline, false⟩ = roundTo .halfEven 2 ((unitDec 0).value / (unitDec 2).value) := by
  have done : decDiv (fun _ => true) decInit (unitDec 0).toDecT (unitDec 2).toDecT 2 .halfEven =
      .ok ⟨-2, [3, 3], decInline, false⟩ := by decide +kernel
  refine ⟨done, (div_rounded_iff (unitDec 0) (unitDec 2) ⟨decInit, by decide⟩ (by decide) .halfEven
    (by decide) (fun _ => true) done).2.mpr ?_⟩
  rintro ⟨-, -, outward⟩
  revert outward
  decide

def manyNines : Decimal := ⟨⟨0, [9, 9, 9, 9, 9, 9], decInline, false⟩, by decide⟩

/-- `1 / 999999` is `0.000001000001…`; two digits of it, rounded up, are `0.0000011`. The
digits computed end after the first one, and that one is raised. -/
theorem up_raises_first_digit : decDiv (fun _ => true) decInit (unitDec 0).toDecT manyNines.toDecT 2 .up =
        .ok ⟨-6, [2], decInline, false⟩ ∧
      DecT.value ⟨-6, [2], decInline, false⟩ ≠ roundTo .up 2 ((unitDec 0).value / manyNines.value) := by
  have one : (unitDec 0).value = 1 := by norm_num [unitDec, DecT.value, DecT.mag, Nat.ofDigits]
  have nines : manyNines.value = 999999 := by norm_num [manyNines, DecT.value, DecT.mag, Nat.ofDigits]
  have two : DecT.value ⟨-6, [2], decInline, false⟩ = 2 / 1000000 := by
    norm_num [DecT.value, DecT.mag, Nat.ofDigits]
  have right : roundTo .up 2 (1 / 999999 : ℚ) = 11 / 10000000 := by
    have eq := roundTo_signed .up 2 false (by norm_num : (0 : ℚ) < 1 / 999999)
    simp only [Bool.false_eq_true, if_false] at eq
    rw [eq, rounded_eq (m := 10) (e := -7) (by norm_num) (by norm_num) (by norm_num) (by norm_num), if_pos]
    · norm_num
    · norm_num [Mode.Away]
  refine ⟨by decide +kernel, ?_⟩
  rw [one, nines, two, right]
  norm_num

end Quotient

end DynaJS.Dec
