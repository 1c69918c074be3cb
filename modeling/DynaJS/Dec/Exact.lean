import DynaJS.Dec.Arith

/-! Comparison, `dec_add` and `dec_mul`, and when their answers are exact. -/
namespace DynaJS.Dec

open DynaJS.Digits List Option Except
open Nat (ofDigits)

section Loop

variable {a b : DecT} {lo : Int}

theorem cmpLoop_unique {fuel fuel' : Nat} {p : Int} {c c' : Ordering} (h : cmpLoop a b lo fuel p = some c)
    (h' : cmpLoop a b lo fuel' p = some c') : c = c' := by
  induction fuel generalizing fuel' p with
  | zero => simp [cmpLoop] at h
  | succ fuel ih =>
    cases fuel' with
    | zero => simp [cmpLoop] at h'
    | succ fuel' =>
      rw [cmpLoop] at h h'
      split_ifs at h h' with below differ
      · exact (Option.some.inj h).symm.trans (Option.some.inj h')
      · exact (Option.some.inj h).symm.trans (Option.some.inj h')
      · exact ih h h'

theorem cmpLoop_column {fuel : Nat} {p : Int} {c : Ordering} (h : cmpLoop a b lo fuel p = some c)
    (some : c ≠ .eq) : ∃ q, compare (decAt a q) (decAt b q) = c := by
  induction fuel generalizing p with
  | zero => simp [cmpLoop] at h
  | succ fuel ih =>
    rw [cmpLoop] at h
    split_ifs at h with below differ
    · exact absurd (Option.some.inj h).symm some
    · exact ⟨p, Option.some.inj h⟩
    · exact ih h

theorem cmpLoop_swap (fuel : Nat) (p : Int) : cmpLoop b a lo fuel p = (cmpLoop a b lo fuel p).map Ordering.swap := by
  induction fuel generalizing p with
  | zero => rfl
  | succ fuel ih =>
    rw [cmpLoop, cmpLoop, ih]
    simp only [ne_comm]
    split_ifs
    · rfl
    · rw [map_some, ← Std.OrientedOrd.eq_swap]
    · rfl

theorem cmpLoop_ends (same : ∀ p, decAt a p = decAt b p) (least : -2147483648 < lo) (n : Nat) {p : Int}
    (near : p < lo + n) (most : p < 2147483648) : cmpLoop a b lo (n + 1) p = some .eq := by
  induction n generalizing p with
  | zero => rw [cmpLoop, if_pos (by omega)]
  | succ n ih =>
    by_cases below : p < lo
    · rw [cmpLoop, if_pos below]
    · rw [cmpLoop, if_neg below, if_neg (not_not.mpr (same p)), i32_eq (by omega) (by omega)]
      exact ih (by omega) (by omega)

/-- Columns all equal from the least exponent on: `p` wraps and the loop never ends. -/
theorem cmpLoop_endless (same : ∀ p, decAt a p = decAt b p) (fuel : Nat) {p : Int}
    (least : -2147483648 ≤ p) : cmpLoop a b (-2147483648) fuel p = none := by
  induction fuel generalizing p with
  | zero => rfl
  | succ fuel ih =>
    rw [cmpLoop, if_neg (by omega), if_neg (not_not.mpr (same p))]
    exact ih (i32_least _)

theorem cmpLoop_order (least : -2147483648 ≤ lo) (n : Nat) (most : lo + n ≤ 2147483648)
    (differ : order (view a lo n) (view b lo n) ≠ .eq) :
    cmpLoop a b lo (n + 1) (lo + n - 1) = some (order (view a lo n) (view b lo n)) := by
  induction n with
  | zero => exact absurd rfl differ
  | succ n ih =>
    have place : lo + ((n + 1 : ℕ) : ℤ) - 1 = lo + n := by omega
    rw [view_succ, view_succ, order_concat (by rw [view_length, view_length]), i32_eq (by omega) (by omega)]
      at differ ⊢
    rw [cmpLoop, place, if_neg (by omega)]
    by_cases same : decAt a (lo + n) = decAt b (lo + n)
    · rw [if_neg (not_not.mpr same), compare_eq_iff_eq.mpr same]
      rw [compare_eq_iff_eq.mpr same] at differ
      by_cases bottom : n = 0
      · rw [bottom] at differ
        exact absurd rfl differ
      · rw [i32_eq (by omega) (by omega)]
        exact ih (by omega) differ
    · rw [if_pos same]
      have other : compare (decAt a (lo + n)) (decAt b (lo + n)) ≠ .eq := fun eq =>
        same (compare_eq_iff_eq.mp eq)
      cases c : compare (decAt a (lo + n)) (decAt b (lo + n))
      · rfl
      · exact absurd c other
      · rfl

end Loop

section Compare

variable {a b : DecT}

def Twin (a b : DecT) : Prop := a.exp = b.exp ∧ a.d = b.d

instance (a b : DecT) : Decidable (Twin a b) := inferInstanceAs (Decidable (_ ∧ _))

theorem Twin.decAt (twin : Twin a b) (p : Int) : decAt a p = decAt b p := by
  unfold Dec.decAt DecT.top
  rw [twin.1, twin.2]

theorem Twin.mag (twin : Twin a b) : a.mag = b.mag := by
  rw [DecT.mag, DecT.mag, twin.1, twin.2]

theorem twin_iff (ca : a.Canonical) (cb : b.Canonical) : Twin a b ↔ a.mag = b.mag :=
  ⟨Twin.mag, fun same => (eq_of_mag_eq ca cb same).symm⟩

theorem compare_mag_of_lt (ca : a.Canonical) (cb : b.Canonical) (someB : b.d ≠ [])
    (less : a.exp + a.d.length < b.exp + b.d.length) : a.mag < b.mag :=
  calc a.mag < 10 ^ (a.exp + a.d.length) := mag_lt ca.toStored
    _ ≤ 10 ^ (b.exp + b.d.length - 1) := zpow_le_zpow_right₀ (by norm_num) (by omega)
    _ ≤ b.mag := le_mag cb someB

theorem decCmpAbs_swap (fuel : Nat) : decCmpAbs fuel b a = (decCmpAbs fuel a b).map Ordering.swap := by
  unfold decCmpAbs
  by_cases noneA : a.d = []
  · by_cases noneB : b.d = [] <;> simp [noneA, noneB]
  by_cases noneB : b.d = []
  · simp [noneA, noneB]
  rcases lt_trichotomy a.top b.top with less | same | more
  · simp [noneA, noneB, less, less.ne, less.ne', not_lt.mpr less.le]
  · simp [noneA, noneB, same, min_comm b.exp, cmpLoop_swap (a := a)]
  · simp [noneA, noneB, more, more.ne, more.ne', not_lt.mpr more.le]

theorem order_mag (sa : a.Stored) (sb : b.Stored) (fitsA : a.Fits) (fitsB : b.Fits) {lo : Int} {n : Nat}
    (least : -2147483648 ≤ lo) (lowA : lo ≤ a.exp) (lowB : lo ≤ b.exp) (highA : a.top ≤ lo + n)
    (highB : b.top ≤ lo + n) (most : lo + n ≤ 2147483648) :
    order (view a lo n) (view b lo n) = compare a.mag b.mag := by
  have viewA := view_seen sa lo n least lowA highA most
  have viewB := view_seen sb lo n least lowB highB most
  have unit : (0 : ℚ) < 10 ^ lo := by positivity
  rw [order_value (by rw [view_length, view_length]) (view_below sa lo n) (view_below sb lo n),
    ← seen_fits fitsA, ← seen_fits fitsB, ← viewA, ← viewB]
  have scaled : StrictMono fun n : ℕ => (n : ℚ) * 10 ^ lo := Nat.strictMono_cast.mul_const unit
  rw [← cmp_eq_compare, ← cmp_eq_compare]
  exact (scaled.cmp_map_eq _ _).symm

theorem decCmpAbs_level (ca : a.Canonical) (cb : b.Canonical) (someA : a.d ≠ []) (someB : b.d ≠ [])
    (level : a.exp + a.d.length = b.exp + b.d.length) (fits : a.Fits) (differ : ¬ Twin a b) :
    ∃ fuel, decCmpAbs fuel a b = some (compare a.mag b.mag) := by
  have fitsB : b.Fits := by
    unfold DecT.Fits at fits ⊢
    omega
  have topA := top_fits ca.toStored fits
  have topB := top_fits cb.toStored fitsB
  have leastA := ca.least
  have leastB := cb.least
  set lo := min a.exp b.exp with hlo
  obtain ⟨n, span⟩ : ∃ n : Nat, a.top = lo + n := ⟨(a.top - lo).toNat, by omega⟩
  have least : -2147483648 ≤ lo := by omega
  have most : lo + n ≤ 2147483648 := by
    unfold DecT.Fits at fits
    omega
  have positive : 0 < a.d.length := length_pos_iff.mpr someA
  have columns := order_mag ca.toStored cb.toStored fits fitsB least (by omega) (by omega) (by omega)
    (by omega) most
  have other : order (view a lo n) (view b lo n) ≠ .eq := by
    rw [columns]
    exact fun eq => differ ((twin_iff ca cb).mpr (compare_eq_iff_eq.mp eq))
  refine ⟨n + 1, ?_⟩
  rw [decCmpAbs, if_neg someA, if_neg someB, if_neg (by omega), ← columns, ← cmpLoop_order least n most other,
    span, i32_eq (by omega) (by omega)]

/-- Where both tops stay within an `int32_t` an answer is the right one. -/
theorem decCmpAbs_fits (ca : a.Canonical) (cb : b.Canonical) (someA : a.d ≠ []) (someB : b.d ≠ [])
    (fitsA : a.Fits) (fitsB : b.Fits) {fuel : Nat} {c : Ordering} (done : decCmpAbs fuel a b = some c) :
    c = compare a.mag b.mag := by
  have topA := top_fits ca.toStored fitsA
  have topB := top_fits cb.toStored fitsB
  by_cases level : a.exp + a.d.length = b.exp + b.d.length
  · by_cases twin : Twin a b
    · rw [twin.mag, compare_eq_iff_eq.mpr rfl]
      rw [decCmpAbs, if_neg someA, if_neg someB, if_neg (by omega)] at done
      by_contra other
      obtain ⟨q, column⟩ := cmpLoop_column done other
      rw [twin.decAt, compare_eq_iff_eq.mpr rfl] at column
      exact other column.symm
    · obtain ⟨fuel', right⟩ := decCmpAbs_level ca cb someA someB level fitsA twin
      rw [decCmpAbs, if_neg someA, if_neg someB, if_neg (by omega)] at done right
      exact cmpLoop_unique done right
  · rw [decCmpAbs, if_neg someA, if_neg someB, if_pos (by omega)] at done
    rcases lt_or_gt_of_ne level with less | more
    · rw [if_pos (by omega)] at done
      rw [compare_lt_iff_lt.mpr (compare_mag_of_lt ca cb someB less), ← Option.some.inj done]
    · rw [if_neg (by omega)] at done
      rw [compare_gt_iff_gt.mpr (compare_mag_of_lt cb ca someA more), ← Option.some.inj done]

/-- When the comparison of magnitudes is right: the wrapped tops lie as the tops do, tops at
one place beyond an `int32_t` are of equal decimals, and equal decimals do not start at the
least exponent, from where the loop would not come back. -/
def CmpFit (a b : DecT) : Prop :=
  if Twin a b then a.exp ≠ -2147483648
  else
    compare a.top b.top = compare (a.exp + a.d.length) (b.exp + b.d.length) ∧
      (a.exp + a.d.length = b.exp + b.d.length → a.Fits)

theorem decCmpAbs_twin (ca : a.Canonical) (someA : a.d ≠ []) (twin : Twin a b) :
    (∃ fuel, decCmpAbs fuel a b = some .eq) ↔ a.exp ≠ -2147483648 := by
  have someB : b.d ≠ [] := fun none => someA (by rw [twin.2, none])
  have tops : a.top = b.top := by rw [DecT.top, DecT.top, twin.1, twin.2]
  have lo : min a.exp b.exp = a.exp := by rw [← twin.1, min_self]
  have least := ca.least
  simp only [decCmpAbs, if_neg someA, if_neg someB, if_neg (not_not.mpr tops), lo]
  constructor
  · rintro ⟨fuel, done⟩ lowest
    rw [lowest, cmpLoop_endless twin.decAt fuel (i32_least _)] at done
    contradiction
  · intro higher
    have start := i32_most (a.top - 1)
    exact ⟨_, cmpLoop_ends twin.decAt (by omega) (i32 (a.top - 1) - a.exp + 1).toNat (by omega) start⟩

theorem decCmpAbs_less (ca : a.Canonical) (cb : b.Canonical) (someA : a.d ≠ []) (someB : b.d ≠ [])
    (less : a.exp + a.d.length < b.exp + b.d.length) : (∃ fuel, decCmpAbs fuel a b = some .lt) ↔ a.top < b.top := by
  simp only [decCmpAbs, if_neg someA, if_neg someB]
  by_cases tops : a.top = b.top
  · -- only the larger one wraps, and the columns then show none of its digits
    have above : ¬ b.Fits := fun fitsB => by
      have fitsA : a.Fits := by
        unfold DecT.Fits at fitsB ⊢
        omega
      rw [top_fits ca.toStored fitsA, top_fits cb.toStored fitsB] at tops
      omega
    simp only [if_neg (not_not.mpr tops)]
    refine ⟨fun ⟨fuel, done⟩ => ?_, fun lt => absurd tops (by omega)⟩
    obtain ⟨q, column⟩ := cmpLoop_column done (by decide)
    rw [decAt_above cb.toStored above, compare_lt_iff_lt] at column
    omega
  · simp only [if_pos tops]
    by_cases lt : a.top < b.top
    · simp [lt]
    · simp [lt]

theorem decCmpAbs_iff (ca : a.Canonical) (cb : b.Canonical) (someA : a.d ≠ []) (someB : b.d ≠ []) :
    (∃ fuel, decCmpAbs fuel a b = some (compare a.mag b.mag)) ↔ CmpFit a b := by
  rw [CmpFit]
  split_ifs with twin
  · rw [twin.mag, compare_eq_iff_eq.mpr rfl]
    exact decCmpAbs_twin ca someA twin
  rcases lt_trichotomy (a.exp + a.d.length : Int) (b.exp + b.d.length) with less | level | more
  · rw [compare_lt_iff_lt.mpr (compare_mag_of_lt ca cb someB less), compare_lt_iff_lt.mpr less,
      and_iff_left (fun eq => absurd eq (by omega)), compare_lt_iff_lt]
    exact decCmpAbs_less ca cb someA someB less
  · have tops : a.top = b.top := by rw [DecT.top, DecT.top, level]
    rw [tops, level, compare_eq_iff_eq.mpr rfl, compare_eq_iff_eq.mpr rfl]
    simp only [true_and, true_implies]
    refine ⟨?_, fun fits => decCmpAbs_level ca cb someA someB level fits twin⟩
    rintro ⟨fuel, done⟩
    by_contra above
    have aboveB : ¬ b.Fits := by
      unfold DecT.Fits at above ⊢
      omega
    rw [decCmpAbs, if_neg someA, if_neg someB, if_neg (not_not.mpr tops)] at done
    have other : compare a.mag b.mag ≠ .eq := fun eq =>
      twin ((twin_iff ca cb).mpr (compare_eq_iff_eq.mp eq))
    obtain ⟨q, column⟩ := cmpLoop_column done other
    rw [decAt_above ca.toStored above, decAt_above cb.toStored aboveB, compare_eq_iff_eq.mpr rfl] at column
    exact other column.symm
  · rw [compare_gt_iff_gt.mpr (compare_mag_of_lt cb ca someA more), compare_gt_iff_gt.mpr more,
      and_iff_left (fun eq => absurd eq (by omega)), compare_gt_iff_gt, ← decCmpAbs_less cb ca someB someA more]
    refine exists_congr fun fuel => ?_
    rw [decCmpAbs_swap, map_eq_some_iff]
    simp

theorem compare_neg (x y : ℚ) : compare (-x) (-y) = (compare x y).swap := by
  rw [← Std.OrientedOrd.eq_swap, ← cmp_eq_compare, ← cmp_eq_compare]
  exact StrictAnti.cmp_map_eq (fun _ _ => neg_lt_neg) x y

theorem value_lt_of_signs (cb : b.Canonical) (signA : a.sign = false) (signB : b.sign = true) : b.value < a.value := by
  have pos := mag_pos cb (some_of_sign cb signB)
  have magA := mag_nonneg a
  rw [DecT.value, DecT.value, signA, signB]
  simp only [if_true, Bool.false_eq_true, if_false]
  linarith

theorem decCmp_iff (ca : a.Canonical) (cb : b.Canonical) :
    (∃ fuel, decCmp fuel a b = some (compare a.value b.value)) ↔
      a.d = [] ∨ b.d = [] ∨ a.sign ≠ b.sign ∨ CmpFit a b := by
  by_cases zeros : a.d = [] ∧ b.d = []
  · refine iff_of_true ⟨0, ?_⟩ (Or.inl zeros.1)
    rw [decCmp, if_pos zeros, value_of_nil ca zeros.1, value_of_nil cb zeros.2, compare_eq_iff_eq.mpr rfl]
  simp only [decCmp, if_neg zeros]
  by_cases signs : a.sign = b.sign
  · simp only [signs, ne_eq, not_true_eq_false, if_false, false_or]
    by_cases noneA : a.d = []
    · have someB : b.d ≠ [] := fun none => zeros ⟨noneA, none⟩
      have sign : b.sign = false := by rw [← signs, (ca.zero noneA).2]
      refine iff_of_true ⟨0, ?_⟩ (Or.inl noneA)
      have value : b.value = b.mag := by rw [DecT.value, sign]; rfl
      rw [decCmpAbs, if_pos noneA, if_neg someB, value_of_nil ca noneA, value, sign,
        compare_lt_iff_lt.mpr (mag_pos cb someB)]
      rfl
    by_cases noneB : b.d = []
    · have sign : b.sign = false := (cb.zero noneB).2
      refine iff_of_true ⟨0, ?_⟩ (Or.inr (Or.inl noneB))
      have value : a.value = a.mag := by rw [DecT.value, signs, sign]; rfl
      rw [decCmpAbs, if_neg noneA, if_pos noneB, value_of_nil cb noneB, value, sign,
        compare_gt_iff_gt.mpr (mag_pos ca noneA)]
      rfl
    rw [or_iff_right noneA, or_iff_right noneB, ← decCmpAbs_iff ca cb noneA noneB]
    refine exists_congr fun fuel => ?_
    rw [DecT.value, DecT.value, signs]
    cases b.sign
    · simp
    · simp only [if_true, compare_neg]
      cases decCmpAbs fuel a b with
      | none => simp
      | some c => simp [Ordering.swap_inj]
  · refine iff_of_true ⟨0, ?_⟩ (Or.inr (Or.inr (Or.inl signs)))
    rw [if_pos signs]
    cases signA : a.sign <;> cases signB : b.sign
    · exact absurd (signA.trans signB.symm) signs
    · rw [compare_gt_iff_gt.mpr (value_lt_of_signs cb signA signB)]
      rfl
    · rw [compare_lt_iff_lt.mpr (value_lt_of_signs ca signB signA)]
      rfl
    · exact absurd (signA.trans signB.symm) signs

end Compare

section Add

variable {r a b s : DecT} {mem : Bool}

def DecT.Is (s : DecT) (v : ℚ) : Prop := s.Canonical ∧ s.value = v

def AddFit (a b : DecT) : Prop := a.d = [] ∨ b.d = [] ∨ (a.Fits ∧ b.Fits) ∨ Twin a b

/-- Beyond an `int32_t` nothing is subtracted from, or nothing is subtracted. -/
theorem decSubAbs_above (stored : r.Stored) (ca : a.Canonical) (cb : b.Canonical) (someA : a.d ≠ [])
    (someB : b.d ≠ []) (above : ¬ (a.Fits ∧ b.Fits)) (tops : b.top ≤ a.top)
    (done : decSubAbs mem r a b = .ok s) : s.mag ≠ a.mag - b.mag := by
  obtain ⟨-, bound, exact, span⟩ := decSubAbs_seen stored ca.toStored cb.toStored someB done
  have lengthA := ca.length_le
  have lengthB := cb.length_le
  by_cases fitsA : a.Fits
  · have aboveB : ¬ b.Fits := fun fitsB => above ⟨fitsA, fitsB⟩
    rw [seen_fits fitsA, seen_above aboveB] at exact
    rw [exact (mag_nonneg a)]
    have pos := mag_pos cb someB
    linarith
  · have topA := top_above ca.toStored fitsA
    have mostA := ca.most
    by_cases fitsB : b.Fits
    · -- the result is below one, the difference is not
      have topB := top_fits cb.toStored fitsB
      have small : s.mag < 1 :=
        calc s.mag < 10 ^ max a.top b.top := bound
          _ ≤ 10 ^ 0 := zpow_le_zpow_right₀ (by norm_num) (by omega)
          _ = 1 := zpow_zero _
      have less : b.mag ≤ 1 :=
        calc b.mag ≤ 10 ^ (b.exp + b.d.length) := (mag_lt cb.toStored).le
          _ ≤ 10 ^ 0 := zpow_le_zpow_right₀ (by norm_num) (by omega)
          _ = 1 := zpow_zero _
      have large : 10 ≤ a.mag := by
        unfold DecT.Fits at fitsA
        calc (10 : ℚ) = 10 ^ 1 := (zpow_one _).symm
          _ ≤ 10 ^ (a.exp + a.d.length - 1) := zpow_le_zpow_right₀ (by norm_num) (by omega)
          _ ≤ a.mag := le_mag ca someA
      intro eq
      linarith
    · have topB := top_above cb.toStored fitsB
      unfold DecT.Fits at fitsA fitsB
      omega

theorem value_add_of_ne (signs : a.sign ≠ b.sign) :
    a.value + b.value = if a.sign then -(a.mag - b.mag) else a.mag - b.mag := by
  rw [DecT.value, DecT.value]
  cases signA : a.sign <;> cases signB : b.sign
  · exact absurd (signA.trans signB.symm) signs
  · simp only [Bool.false_eq_true, if_false, if_true]
    ring
  · simp only [Bool.false_eq_true, if_false, if_true]
    ring
  · exact absurd (signA.trans signB.symm) signs

theorem value_add_of_eq (signs : a.sign = b.sign) :
    a.value + b.value = if a.sign then -(a.mag + b.mag) else a.mag + b.mag := by
  rw [DecT.value, DecT.value, ← signs]
  cases a.sign
  · simp
  · simp only [if_true]
    ring

theorem negate_inj {sign : Bool} {u v : ℚ} : ((if sign then -u else u) = if sign then -v else v) ↔ u = v := by
  cases sign
  · simp
  · simp

theorem seen_le (x : DecT) : x.seen ≤ x.mag := by
  unfold DecT.seen
  split_ifs
  · exact le_rfl
  · exact mag_nonneg x

theorem decAddAbs_iff (stored : r.Stored) (ca : a.Canonical) (cb : b.Canonical) (signs : a.sign = b.sign)
    (done : (decAddAbs mem r a b).map (·.signed a.sign) = .ok s) :
    s.Is (a.value + b.value) ↔ AddFit a b := by
  cases sum : decAddAbs mem r a b with
  | error e => rw [sum] at done; contradiction
  | ok u =>
    rw [sum] at done
    obtain rfl : u.signed a.sign = s := ok.inj done
    rw [DecT.Is, value_signed, value_add_of_eq signs, negate_inj]
    by_cases noneA : a.d = []
    · rw [decAddAbs, if_pos noneA] at sum
      obtain ⟨canonical, -, mag, -⟩ := copied stored cb sum
      refine iff_of_true ⟨canonical_signed canonical _, ?_⟩ (Or.inl noneA)
      rw [mag, (mag_eq_zero_iff ca).mpr noneA, zero_add]
    by_cases noneB : b.d = []
    · rw [decAddAbs, if_neg noneA, if_pos noneB] at sum
      obtain ⟨canonical, -, mag, -⟩ := copied stored ca sum
      refine iff_of_true ⟨canonical_signed canonical _, ?_⟩ (Or.inr (Or.inl noneB))
      rw [mag, (mag_eq_zero_iff cb).mpr noneB, add_zero]
    obtain ⟨canonical, mag, span⟩ := decAddAbs_seen stored ca.toStored cb.toStored noneA noneB sum
    have posA := mag_pos ca noneA
    have posB := mag_pos cb noneB
    rw [AddFit, or_iff_right noneA, or_iff_right noneB, mag, and_iff_right (canonical_signed canonical _)]
    constructor
    · intro eq
      have leA := seen_le a
      have leB := seen_le b
      refine Or.inl ⟨?_, ?_⟩ <;> by_contra above <;> rw [seen_above above] at eq <;> linarith
    · rintro (⟨fitsA, fitsB⟩ | twin)
      · rw [seen_fits fitsA, seen_fits fitsB]
      · -- two equal decimals beyond the range are refused
        have lengthA := ca.length_le
        have tops : b.top = a.top := by rw [DecT.top, DecT.top, twin.1, twin.2]
        have exps := twin.1
        have fitsA : a.Fits := by
          by_contra above
          have top := top_above ca.toStored above
          omega
        have fitsB : b.Fits := by
          unfold DecT.Fits at fitsA ⊢
          rw [← twin.1, ← twin.2]
          exact fitsA
        rw [seen_fits fitsA, seen_fits fitsB]

theorem decSubAbs_iff (stored : r.Stored) (ca : a.Canonical) (cb : b.Canonical) (someA : a.d ≠ [])
    (differ : ¬ Twin a b) (tops : b.d ≠ [] → b.top ≤ a.top)
    (right : a.Fits → b.Fits → b.d ≠ [] → b.mag ≤ a.mag) (done : decSubAbs mem r a b = .ok s) :
    s.Canonical ∧ (s.mag = a.mag - b.mag ↔ AddFit a b) := by
  by_cases noneB : b.d = []
  · rw [decSubAbs, if_pos noneB] at done
    obtain ⟨canonical, -, mag, -⟩ := copied stored ca done
    refine ⟨canonical, iff_of_true ?_ (Or.inr (Or.inl noneB))⟩
    rw [mag, (mag_eq_zero_iff cb).mpr noneB, sub_zero]
  · obtain ⟨canonical, -, exact, -⟩ := decSubAbs_seen stored ca.toStored cb.toStored noneB done
    refine ⟨canonical, ?_⟩
    rw [AddFit, or_iff_right someA, or_iff_right noneB, or_iff_left differ]
    constructor
    · intro eq
      by_contra above
      exact decSubAbs_above stored ca cb someA noneB above (tops noneB) done eq
    · rintro ⟨fitsA, fitsB⟩
      rw [seen_fits fitsA, seen_fits fitsB] at exact
      exact exact (right fitsA fitsB noneB)

theorem addFit_comm : AddFit a b ↔ AddFit b a := by
  unfold AddFit Twin
  tauto

variable {fuel : Nat}

theorem decCmpAbs_gt (done : decCmpAbs fuel a b = some .gt) : a.d ≠ [] ∧ (b.d ≠ [] → b.top ≤ a.top) ∧ ¬ Twin a b := by
  by_cases noneA : a.d = []
  · rw [decCmpAbs] at done
    split_ifs at done <;> simp at done
  by_cases noneB : b.d = []
  · exact ⟨noneA, fun some => absurd noneB some, fun twin => noneA (twin.2.trans noneB)⟩
  rw [decCmpAbs, if_neg noneA, if_neg noneB] at done
  by_cases tops : a.top = b.top
  · rw [if_neg (not_not.mpr tops)] at done
    obtain ⟨q, column⟩ := cmpLoop_column done (by decide)
    refine ⟨noneA, fun _ => tops.ge, fun twin => ?_⟩
    rw [twin.decAt, compare_eq_iff_eq.mpr rfl] at column
    contradiction
  · rw [if_pos tops] at done
    refine ⟨noneA, fun _ => ?_, fun twin => tops (by rw [DecT.top, DecT.top, twin.1, twin.2])⟩
    by_contra less
    rw [if_pos (not_le.mp less)] at done
    contradiction

theorem decCmpAbs_eq (ca : a.Canonical) (cb : b.Canonical)
    (done : decCmpAbs fuel a b = some .eq) : a.mag = b.mag ↔ AddFit a b := by
  refine ⟨fun same => Or.inr (Or.inr (Or.inr ((twin_iff ca cb).mpr same))), fun fit => ?_⟩
  by_cases noneA : a.d = []
  · have noneB : b.d = [] := by
      by_contra someB
      rw [decCmpAbs, if_pos noneA, if_neg someB] at done
      contradiction
    rw [(mag_eq_zero_iff ca).mpr noneA, (mag_eq_zero_iff cb).mpr noneB]
  by_cases noneB : b.d = []
  · rw [decCmpAbs, if_neg noneA, if_pos noneB] at done
    contradiction
  rcases (fit.resolve_left noneA).resolve_left noneB with ⟨fitsA, fitsB⟩ | twin
  · exact compare_eq_iff_eq.mp (decCmpAbs_fits ca cb noneA noneB fitsA fitsB done).symm
  · exact twin.mag

theorem decSubAbs_signed (stored : r.Stored) (ca : a.Canonical) (cb : b.Canonical) (signs : a.sign ≠ b.sign)
    (cmp : decCmpAbs fuel a b = some .gt) (done : (decSubAbs mem r a b).map (·.signed a.sign) = .ok s) :
    s.Is (a.value + b.value) ↔ AddFit a b := by
  obtain ⟨someA, tops, differ⟩ := decCmpAbs_gt cmp
  cases difference : decSubAbs mem r a b with
  | error e => rw [difference] at done; contradiction
  | ok u =>
    rw [difference] at done
    obtain rfl : u.signed a.sign = s := ok.inj done
    obtain ⟨canonical, iff⟩ := decSubAbs_iff stored ca cb someA differ tops (fun fitsA fitsB someB => by
        have right := decCmpAbs_fits ca cb someA someB fitsA fitsB cmp
        exact (compare_gt_iff_gt.mp right.symm).le) difference
    rw [DecT.Is, and_iff_right (canonical_signed canonical _), value_signed, value_add_of_ne signs, negate_inj, iff]

/-- A sum or a difference, once returned, is exact exactly where the columns stay within an
`int32_t`, or the operands are opposite. -/
theorem decAdd_iff (stored : r.Stored) (ca : a.Canonical) (cb : b.Canonical)
    (done : decAdd fuel mem r a b = some (.ok s)) : s.Is (a.value + b.value) ↔ AddFit a b := by
  rw [decAdd] at done
  split_ifs at done with signs
  · exact decAddAbs_iff stored ca cb signs (Option.some.inj done)
  cases cmp : decCmpAbs fuel a b with
  | none => rw [cmp] at done; contradiction
  | some c =>
    rw [cmp, map_some, some.injEq] at done
    cases c with
    | eq =>
      obtain rfl := ok.inj done
      have canonical := canonical_nil stored.limit
      rw [DecT.Is, and_iff_right canonical, value_of_nil canonical rfl, value_add_of_ne signs,
        ← decCmpAbs_eq ca cb cmp]
      cases a.sign
      · simp only [Bool.false_eq_true, if_false]
        rw [eq_comm, sub_eq_zero]
      · simp only [if_true]
        rw [eq_comm, neg_eq_zero, sub_eq_zero]
    | gt => exact decSubAbs_signed stored ca cb signs cmp done
    | lt =>
      rw [add_comm, addFit_comm]
      exact decSubAbs_signed stored cb ca (Ne.symm signs) (by rw [decCmpAbs_swap, cmp]; rfl) done

end Add

section Mul

theorem mulRow_spec {av k : Nat} (digit : av < 10) (fits : 81 * (k + 1) < 4294967296) (ys ws : List Nat)
    (below : Below 10 ys) (room : ys.length ≤ ws.length) (small : ∀ w ∈ ws, w ≤ 81 * k) :
    ofDigits 10 (mulRow av ys ws) = av * ofDigits 10 ys + ofDigits 10 ws ∧
      (mulRow av ys ws).length = ws.length ∧ ∀ w ∈ mulRow av ys ws, w ≤ 81 * (k + 1) := by
  induction ys generalizing ws with
  | nil =>
    refine ⟨by simp [mulRow], rfl, fun w member => ?_⟩
    have := small w member
    omega
  | cons y ys ih =>
    cases ws with
    | nil => simp at room
    | cons w ws =>
      obtain ⟨digit', below⟩ := below_cons.mp below
      rw [forall_mem_cons] at small
      obtain ⟨value, length, bound⟩ := ih ws below (by simpa using room) small.2
      have cell : av * y ≤ 9 * 9 := Nat.mul_le_mul (by omega) (by omega)
      rw [mulRow, u32_eq (by omega), forall_mem_cons]
      refine ⟨?_, congrArg (· + 1) length, by omega, bound⟩
      rw [Nat.ofDigits_cons, Nat.ofDigits_cons, Nat.ofDigits_cons, value]
      ring

theorem row_spec {av k : Nat} (digit : av < 10) (fits : 81 * (k + 1) < 4294967296) (ys ws : List Nat)
    (below : Below 10 ys) (room : ys.length ≤ ws.length) (small : ∀ w ∈ ws, w ≤ 81 * k) :
    ofDigits 10 (if av = 0 then ws else mulRow av ys ws) = av * ofDigits 10 ys + ofDigits 10 ws ∧
      (if av = 0 then ws else mulRow av ys ws).length = ws.length ∧
      ∀ w ∈ (if av = 0 then ws else mulRow av ys ws), w ≤ 81 * (k + 1) := by
  by_cases zero : av = 0
  · simp only [if_pos zero]
    refine ⟨by rw [zero, Nat.zero_mul, Nat.zero_add], trivial, fun w member => ?_⟩
    have := small w member
    omega
  · simp only [if_neg zero]
    exact mulRow_spec digit fits ys ws below room small

/-- Row by row the columns gather the product, and none leaves a `uint32_t`. -/
theorem mulRows_spec {xs ys : List Nat} (bx : Below 10 xs) (hy : Below 10 ys) (ws : List Nat) (k : Nat)
    (fits : 81 * (k + xs.length) < 4294967296) (room : xs.length + ys.length ≤ ws.length)
    (small : ∀ w ∈ ws, w ≤ 81 * k) :
    ofDigits 10 (mulRows xs ys ws) = ofDigits 10 xs * ofDigits 10 ys + ofDigits 10 ws ∧
      (mulRows xs ys ws).length = ws.length ∧ ∀ w ∈ mulRows xs ys ws, w ≤ 81 * (k + xs.length) := by
  induction xs generalizing ws k with
  | nil => exact ⟨by simp [mulRows], rfl, small⟩
  | cons av xs ih =>
    obtain ⟨digit, bx⟩ := below_cons.mp bx
    rw [length_cons] at room fits
    obtain ⟨value, length, bound⟩ := row_spec digit (by omega) ys ws hy (by omega) small
    rw [mulRows]
    split
    · rename_i row
      rw [row] at length
      simp only [length_nil] at length
      omega
    · rename_i w rest row
      rw [row] at value length bound
      rw [length_cons] at length
      rw [forall_mem_cons] at bound
      obtain ⟨total, length', bound'⟩ := ih bx rest (k + 1) (by omega) (by omega) bound.2
      rw [Nat.ofDigits_cons] at value
      refine ⟨?_, ?_, ?_⟩
      · rw [Nat.ofDigits_cons, total, Nat.ofDigits_cons]
        linear_combination value
      · rw [length_cons, length', length]
      · rw [forall_mem_cons, length_cons]
        refine ⟨by omega, fun v member => ?_⟩
        have := bound' v member
        omega

theorem mulCarry_eq (bound : Nat) (fits : 2 * bound < 4294967296) {c : Nat} (ws : List Nat)
    (low : c ≤ bound) (small : ∀ w ∈ ws, w ≤ bound) : mulCarry c ws = (carry 10 c ws).1 := by
  induction ws generalizing c with
  | nil => rfl
  | cons w ws ih =>
    rw [forall_mem_cons] at small
    rw [mulCarry, carry, u32_eq (by omega), ih (by omega) small.2]

variable {r a b s : DecT} {mem : Nat → Bool}

theorem value_of_mag (sign : s.d ≠ [] → s.sign = (a.sign ^^ b.sign)) (canonical : s.Canonical)
    (mag : s.mag = a.mag * b.mag) : s.value = a.value * b.value := by
  have product : a.value * b.value = if (a.sign ^^ b.sign) then -(a.mag * b.mag) else a.mag * b.mag := by
    rw [DecT.value, DecT.value]
    cases a.sign <;> cases b.sign <;> simp
  rw [product, ← mag, value_of_sign canonical sign]

theorem decMul_exact (stored : r.Stored) (ca : a.Canonical) (cb : b.Canonical)
    (done : decMul mem r a b = .ok s) : s.Is (a.value * b.value) := by
  simp only [decMul] at done
  by_cases none : a.d = [] ∨ b.d = []
  · rw [if_pos none] at done
    obtain rfl := ok.inj done
    refine ⟨canonical_nil stored.limit, ?_⟩
    rw [value_of_nil (canonical_nil stored.limit) rfl]
    rcases none with none | none
    · rw [value_of_nil ca none, zero_mul]
    · rw [value_of_nil cb none, mul_zero]
  rw [if_neg none] at done
  obtain ⟨-, done⟩ := guard_ok done
  obtain ⟨long, done⟩ := guard_ok done
  obtain ⟨-, done⟩ := guard_ok done
  split at done
  · contradiction
  rename_i cap grown
  obtain ⟨far, done⟩ := guard_ok done
  obtain rfl := ok.inj done
  obtain ⟨enough, limit⟩ := decGrow_spec grown stored.limit
  set n := a.d.length + b.d.length with hn
  have short : n ≤ 100000 := not_lt.mp long
  obtain ⟨columns, length, small⟩ := mulRows_spec ca.below cb.below (List.replicate n 0) 0 (by omega)
    (by rw [length_replicate]) (fun w member => by rw [eq_of_mem_replicate member])
  rw [Nat.ofDigits_replicate_zero, Nat.add_zero] at columns
  rw [length_replicate] at length
  rw [mulCarry_eq (81 * (0 + a.d.length)) (by omega) _ (Nat.zero_le _) small]
  have room : ofDigits 10 (mulRows a.d b.d (List.replicate n 0)) + 0 <
      10 ^ (mulRows a.d b.d (List.replicate n 0)).length := by
    rw [length, columns, hn, pow_add, Nat.add_zero]
    exact Nat.mul_lt_mul'' (ca.below.lt (by decide)) (cb.below.lt (by decide))
  obtain ⟨canonical, mag⟩ := trimmed (a.exp + b.exp) cap (a.sign ^^ b.sign)
    (carry_below (by decide) 0 (mulRows a.d b.d (List.replicate n 0)))
    (by rw [carry_length, length]; exact enough) limit (by omega) (by omega)
    (by rw [carry_length, length]; omega)
  refine ⟨canonical, value_of_mag decTrim_sign canonical ?_⟩
  rw [mag, (carry_fits 0 _ room).2, columns, DecT.mag, DecT.mag, zpow_add₀ (by norm_num)]
  push_cast
  ring

end Mul

/-- Canonical results, worth what they should be: a product always, a sum or a difference
exactly under `AddFit`; and a comparison answers with the order of the values exactly under
`CmpFit`, where its columns are looked at. -/
theorem arith_exact_iff (a b r : Decimal) : (∀ fuel mem s, decAdd fuel mem r.toDecT a.toDecT b.toDecT = some (.ok s) →
      (s.Is (a.value + b.value) ↔ AddFit a.toDecT b.toDecT)) ∧
    (∀ fuel mem s, decAdd fuel mem r.toDecT a.toDecT b.neg = some (.ok s) →
      (s.Is (a.value - b.value) ↔ AddFit a.toDecT b.toDecT)) ∧
    (∀ mem s, decMul mem r.toDecT a.toDecT b.toDecT = .ok s → s.Is (a.value * b.value)) ∧
    ((∃ fuel, decCmp fuel a.toDecT b.toDecT = some (compare a.value b.value)) ↔
      a.d = [] ∨ b.d = [] ∨ a.sign ≠ b.sign ∨ CmpFit a.toDecT b.toDecT) ∧
    (a.value = b.value → a.d = b.d ∧ a.exp = b.exp ∧ a.sign = b.sign) := by
  have ca := a.canonical
  have cb := b.canonical
  have stored := r.canonical.toStored
  refine ⟨fun fuel mem s done => decAdd_iff stored ca cb done, fun fuel mem s done => ?_,
    fun mem s done => decMul_exact stored ca cb done, decCmp_iff ca cb, Dec.eq_of_value_eq ca cb⟩
  have iff := decAdd_iff stored ca (canonical_neg cb) done
  rw [value_neg, ← sub_eq_add_neg] at iff
  exact iff

def hugeOne : Decimal := ⟨⟨2147483647, [1], decInline, false⟩, by decide⟩

def one : Decimal := ⟨⟨0, [1], decInline, false⟩, by decide⟩

/-- The larger operand is lost, and the comparison takes it for the smaller one. -/
theorem huge_plus_one : decAdd 0 true decInit hugeOne.toDecT one.toDecT = some (.ok one.toDecT) ∧
      one.value ≠ hugeOne.value + one.value ∧ decCmp 0 hugeOne.toDecT one.toDecT = some .lt ∧
      one.value < hugeOne.value := by
  have huge : hugeOne.value = hugeOne.mag := rfl
  have pos : 0 < hugeOne.mag := mag_pos hugeOne.canonical (by decide)
  refine ⟨by decide +kernel, fun eq => ?_, by decide +kernel, ?_⟩
  · rw [huge] at eq
    linarith
  · rw [huge]
    exact compare_mag_of_lt one.canonical hugeOne.canonical (by decide) (by decide)

end DynaJS.Dec
