import Mathlib.Data.List.GetD
import DynaJS.Dec.Decimal

/-! Sums, differences, products and comparison of decimals are exact where the columns
stay within an `int32_t`. -/
namespace DynaJS.Dec

open DynaJS.Digits List
open Nat (ofDigits)

/-- `x->exp + (int32_t)x->nd` does not wrap. -/
def DecT.Fits (x : DecT) : Prop := x.exp + x.d.length < 2147483648

instance (x : DecT) : Decidable x.Fits := inferInstanceAs (Decidable (_ < _))

def DecT.seen (x : DecT) : ℚ := if x.Fits then x.mag else 0

section View

variable {x : DecT}

section

variable (stored : x.Stored)
include stored

theorem DecT.Stored.length_le : x.d.length ≤ 100000 := stored.room.trans stored.limit

theorem top_fits (fits : x.Fits) : x.top = x.exp + x.d.length := by
  have least := stored.least
  exact i32_eq (by omega) fits

theorem top_above (above : ¬ x.Fits) : x.top = x.exp + x.d.length - 4294967296 := by
  have most := stored.most
  have short := stored.length_le
  unfold DecT.Fits at above
  exact i32_above (by omega) (by omega)

theorem decAt_above (above : ¬ x.Fits) (p : Int) : decAt x p = 0 := by
  have top := top_above stored above
  have short := stored.length_le
  exact if_pos (by omega)

theorem decAt_lt (p : Int) : decAt x p < 10 := by
  unfold decAt
  split_ifs with outside
  · decide
  · by_cases inside : (p - x.exp).toNat < x.d.length
    · rw [getD_eq_getElem _ _ inside]
      exact stored.below _ (getElem_mem inside)
    · rw [getD_eq_default _ _ (not_lt.mp inside)]
      decide

omit stored in
theorem view_length (x : DecT) (lo : Int) (n : Nat) : (view x lo n).length = n := by
  rw [view, length_map, length_range]

theorem view_below (lo : Int) (n : Nat) : Below 10 (view x lo n) := by
  intro d member
  obtain ⟨i, -, rfl⟩ := mem_map.mp member
  exact decAt_lt stored _

omit stored in
theorem view_succ (x : DecT) (lo : Int) (n : Nat) : view x lo (n + 1) = view x lo n ++ [decAt x (i32 (lo + n))] := by
  rw [view, range_succ, map_append]
  rfl

theorem view_above (above : ¬ x.Fits) (lo : Int) (n : Nat) : view x lo n = List.replicate n 0 := by
  refine eq_replicate_iff.mpr ⟨view_length x lo n, fun d member => ?_⟩
  obtain ⟨i, -, rfl⟩ := mem_map.mp member
  exact decAt_above stored above _

theorem view_fits (fits : x.Fits) {lo : Int} {n : Nat} (least : -2147483648 ≤ lo)
    (low : lo ≤ x.exp) (high : x.exp + x.d.length ≤ lo + n) (most : lo + n ≤ 2147483648) :
    view x lo n = List.replicate (x.exp - lo).toNat 0 ++
      (x.d ++ List.replicate (lo + n - (x.exp + x.d.length)).toNat 0) := by
  have top := top_fits stored fits
  refine ext_getElem ?_ fun i inView _ => ?_
  · rw [view_length]
    simp only [length_append, length_replicate]
    omega
  · rw [view_length] at inView
    have place : (view x lo n)[i] = decAt x (lo + i) := by
      simp only [view, getElem_map, getElem_range]
      rw [i32_eq (by omega) (by omega)]
    rw [place, decAt, getElem_append]
    split_ifs with outside before before
    · rw [getElem_replicate]
    · rw [length_replicate] at before
      rw [getElem_append_right (by rw [length_replicate]; omega), getElem_replicate]
    · rw [length_replicate] at before
      omega
    · rw [length_replicate] at before
      have inside : (lo + i - x.exp).toNat < x.d.length := by omega
      rw [getD_eq_getElem _ _ inside, getElem_append_left (by rw [length_replicate]; omega)]
      congr 1
      rw [length_replicate]
      omega

theorem view_seen (lo : Int) (n : Nat) (least : -2147483648 ≤ lo) (low : lo ≤ x.exp)
    (high : x.top ≤ lo + n) (most : lo + n ≤ 2147483648) :
    ((ofDigits 10 (view x lo n) : ℕ) : ℚ) * 10 ^ lo = x.seen := by
  by_cases fits : x.Fits
  · rw [top_fits stored fits] at high
    obtain ⟨k, gap⟩ : ∃ k : Nat, x.exp = lo + k := ⟨(x.exp - lo).toNat, by omega⟩
    have shift : (x.exp - lo).toNat = k := by omega
    rw [view_fits stored fits least low high most, value_replicate_append,
      Nat.ofDigits_append_replicate_zero, shift, DecT.seen, if_pos fits, DecT.mag, gap,
      zpow_add₀ (by norm_num), zpow_natCast]
    push_cast
    ring
  · rw [view_above stored fits, Nat.ofDigits_replicate_zero, DecT.seen, if_neg fits, Nat.cast_zero, zero_mul]

end

theorem seen_fits (fits : x.Fits) : x.seen = x.mag := if_pos fits

theorem seen_above (above : ¬ x.Fits) : x.seen = 0 := if_neg above

end View

section Sums

variable {r a b s : DecT} {mem : Bool}

theorem copied (stored : r.Stored) (canonical : a.Canonical) (copy : decCopy mem r a = .ok s) :
    s.Canonical ∧ s.value = a.value ∧ s.mag = a.mag ∧ s.sign = a.sign := by
  unfold decCopy at copy
  split at copy
  · contradiction
  · rename_i cap grown
    obtain rfl := Except.ok.inj copy
    obtain ⟨room, limit⟩ := decGrow_room grown stored.limit
    exact ⟨{ canonical with room := room, limit := limit }, rfl, rfl, rfl⟩

theorem trimmed (exp : Int) (cap : Nat) (sign : Bool) {d : List Nat} (below : Below 10 d)
    (room : d.length ≤ cap) (limit : cap ≤ maxDigits) (least : -2147483648 ≤ exp) (most : exp < 2147483648)
    (fits : exp + d.length ≤ 2147483648) :
    (decTrim ⟨exp, d, cap, sign⟩).Canonical ∧ (decTrim ⟨exp, d, cap, sign⟩).mag = (ofDigits 10 d : ℕ) * 10 ^ exp := by
  have stored : DecT.Stored ⟨exp, d, cap, sign⟩ := ⟨below, room, limit, least, most⟩
  exact ⟨decTrim_canonical stored, decTrim_mag stored fits⟩

theorem decAddAbs_seen (stored : r.Stored) (sa : a.Stored) (sb : b.Stored) (someA : a.d ≠ [])
    (someB : b.d ≠ []) (done : decAddAbs mem r a b = .ok s) :
    s.Canonical ∧ s.mag = a.seen + b.seen ∧ min a.exp b.exp ≤ max a.top b.top := by
  simp only [decAddAbs, if_neg someA, if_neg someB] at done
  set lo := min a.exp b.exp with hlo
  split_ifs at done with wide
  split at done
  · contradiction
  rename_i cap grown
  obtain rfl := Except.ok.inj done
  obtain ⟨enough, limit⟩ := decGrow_spec grown stored.limit
  rw [not_or, not_lt] at wide
  obtain ⟨m, span⟩ : ∃ m : Nat, max a.top b.top - lo = m := ⟨_, (Int.toNat_of_nonneg wide.1).symm⟩
  rw [span, Int.toNat_natCast] at enough ⊢
  have leastA := sa.least
  have leastB := sb.least
  have most : lo + m < 2147483648 := by
    have := i32_most (a.exp + a.d.length)
    have := i32_most (b.exp + b.d.length)
    simp only [DecT.top] at span
    omega
  have viewA := view_seen sa lo (m + 1) (by omega) (by omega) (by omega) (by omega)
  have viewB := view_seen sb lo (m + 1) (by omega) (by omega) (by omega) (by omega)
  -- the topmost column is above both operands
  have above : ∀ {x : DecT}, x.Stored → x.top ≤ lo + m → ofDigits 10 (view x lo (m + 1)) < 10 ^ m := by
    intro x stored high
    have zero : decAt x (i32 (lo + m)) = 0 := by
      rw [i32_eq (by omega) most]
      exact if_pos (Or.inr high)
    have bound := (view_below stored lo m).lt (by decide)
    rw [view_length] at bound
    rw [view_succ, zero, Nat.ofDigits_append]
    exact bound
  have same : (view a lo (m + 1)).length = (view b lo (m + 1)).length := by rw [view_length, view_length]
  have columns := Nat.ofDigits_add_ofDigits_eq_ofDigits_zipWith_of_length_eq (b := 10) same
  set z := List.zipWith (· + ·) (view a lo (m + 1)) (view b lo (m + 1)) with hz
  have length : z.length = m + 1 := by rw [hz, length_zipWith, view_length, view_length, Nat.min_self]
  have sum := (carry_fits 0 z (by
    have := above sa (by omega)
    have := above sb (by omega)
    rw [length, ← columns]
    omega)).2
  obtain ⟨canonical, value⟩ := trimmed lo cap r.sign (carry_below (by decide) 0 z)
    (by rw [carry_length, length]; exact enough) limit (by omega) (by omega) (by rw [carry_length]; omega)
  refine ⟨canonical, ?_, by omega⟩
  rw [value, sum, ← columns, Nat.add_zero, ← viewA, ← viewB, Nat.cast_add, add_mul]

theorem decSubAbs_seen (stored : r.Stored) (sa : a.Stored) (sb : b.Stored) (someB : b.d ≠ [])
    (done : decSubAbs mem r a b = .ok s) :
    s.Canonical ∧ s.mag < 10 ^ max a.top b.top ∧ (b.seen ≤ a.seen → s.mag = a.seen - b.seen) ∧
      min a.exp b.exp ≤ max a.top b.top := by
  simp only [decSubAbs, if_neg someB] at done
  set lo := min a.exp b.exp with hlo
  split at done
  · contradiction
  rename_i wide
  split at done
  · contradiction
  rename_i cap grown
  obtain rfl := Except.ok.inj done
  obtain ⟨enough, limit⟩ := decGrow_spec grown stored.limit
  rw [not_or, not_lt, not_lt] at wide
  obtain ⟨m, span⟩ : ∃ m : Nat, max a.top b.top - lo = m := ⟨_, (Int.toNat_of_nonneg wide.1).symm⟩
  rw [span, Int.toNat_natCast] at enough ⊢
  have leastA := sa.least
  have leastB := sb.least
  have most : lo + m < 2147483648 := by
    have := i32_most (a.exp + a.d.length)
    have := i32_most (b.exp + b.d.length)
    simp only [DecT.top] at span
    omega
  have viewA := view_seen sa lo m (by omega) (by omega) (by omega) (by omega)
  have viewB := view_seen sb lo m (by omega) (by omega) (by omega) (by omega)
  have same : (view a lo m).length = (view b lo m).length := by rw [view_length, view_length]
  set z := (view a lo m).zip (view b lo m) with hz
  have length : z.length = m := by rw [hz, length_zip, view_length, view_length, Nat.min_self]
  have first : ∀ p ∈ z, p.1 < 10 := fun p member => view_below sa lo m _ (of_mem_zip member).1
  have second : ∀ p ∈ z, p.2 < 10 := fun p member => view_below sb lo m _ (of_mem_zip member).2
  have fst : z.map Prod.fst = view a lo m := map_fst_zip same.le
  have snd : z.map Prod.snd = view b lo m := map_snd_zip same.ge
  have digits := borrow_below 0 _ first
  obtain ⟨canonical, value⟩ := trimmed lo cap r.sign digits
    (by rw [borrow_length, length]; exact le_trans (by split_ifs <;> omega) enough) limit (by omega)
    (by omega) (by rw [borrow_length, length]; omega)
  refine ⟨canonical, ?_, fun le => ?_, by omega⟩
  · have bound := digits.lt (by decide)
    rw [borrow_length, length] at bound
    have top : max a.top b.top = lo + m := by omega
    rw [value, top, zpow_add₀ (by norm_num), mul_comm, zpow_natCast]
    exact mul_lt_mul_of_pos_left (by exact_mod_cast bound) (by positivity)
  · rw [← viewA, ← viewB] at le
    have units : ofDigits 10 (view b lo m) ≤ ofDigits 10 (view a lo m) := by
      exact_mod_cast le_of_mul_le_mul_right le (by positivity)
    have difference := borrow_fits _ (by decide) first second (by rw [fst, snd]; exact units)
    rw [fst, snd] at difference
    rw [value, ← viewA, ← viewB, ← difference, Nat.cast_add]
    ring

end Sums

end DynaJS.Dec
