import Mathlib.Data.Nat.Digits.Lemmas
import Mathlib.Data.List.TakeWhile

/-! A string of digits taken to another base one digit at a time, with its leading zeros
kept. -/
namespace DynaJS.Radix

open List

open Nat (digits ofDigits)

/-- The digits of `m` times a number plus a carry, least first, in `room` places. -/
def mulAdd (m b : Nat) : Nat → List Nat → Nat → Option (List Nat)
  | 0, ds, carry => if ds = [] ∧ carry = 0 then some [] else none
  | room + 1, ds, carry =>
    if ds = [] ∧ carry = 0 then some []
    else (mulAdd m b room ds.tail ((ds.headD 0 * m + carry) / b)).map ((ds.headD 0 * m + carry) % b :: ·)

def value (m : Nat) (l : List Nat) : Nat := l.foldl (fun x d => m * x + d) 0

def recode (m b : Nat) (l : List Nat) : List Nat :=
  l.takeWhile (· == 0) ++ (digits b (value m (l.dropWhile (· == 0)))).reverse

variable {m b : Nat}

theorem digits_parts (hb : 1 < b) (x : Nat) : (digits b x).headD 0 = x % b ∧ (digits b x).tail = digits b (x / b) := by
  by_cases zero : x = 0
  · subst zero
    simp
  · rw [Nat.digits_def' hb (Nat.pos_of_ne_zero zero)]
    exact ⟨rfl, rfl⟩

theorem mulAdd_digits (hb : 1 < b) (hm : 0 < m) (room x c : Nat) (fits : (digits b (m * x + c)).length ≤ room) :
    mulAdd m b room (digits b x) c = some (digits b (m * x + c)) := by
  induction room generalizing x c with
  | zero =>
    have zero : m * x + c = 0 := Nat.digits_eq_nil_iff_eq_zero.mp (length_eq_zero_iff.mp (Nat.le_zero.mp fits))
    obtain ⟨product, hc⟩ := Nat.add_eq_zero_iff.mp zero
    have hx : x = 0 := (Nat.mul_eq_zero.mp product).resolve_left (by omega)
    subst hx hc
    simp [mulAdd]
  | succ room ih =>
    rw [mulAdd]
    split_ifs with stop
    · have hx := Nat.digits_eq_nil_iff_eq_zero.mp stop.1
      rw [hx, stop.2]
      simp
    · obtain ⟨head, tail⟩ := digits_parts hb x
      have pos : 0 < m * x + c := by
        rcases Nat.eq_zero_or_pos x with zero | some
        · subst zero
          have : c ≠ 0 := fun none => stop ⟨Nat.digits_zero b, none⟩
          omega
        · exact Nat.add_pos_left (Nat.mul_pos hm some) c
      -- the low digit and the carry are the remainder and the quotient of the whole
      have split : m * x + c = b * (m * (x / b)) + (x % b * m + c) := by
        conv_lhs => rw [← Nat.div_add_mod x b]
        ring
      have low : (m * x + c) % b = (x % b * m + c) % b := by rw [split, Nat.mul_add_mod]
      have high : (m * x + c) / b = m * (x / b) + (x % b * m + c) / b := by
        rw [split, Nat.mul_add_div (by omega)]
      rw [Nat.digits_def' hb pos] at fits ⊢
      rw [length_cons, Nat.add_le_add_iff_right] at fits
      rw [high] at fits ⊢
      rw [head, tail, ih _ _ fits, low]
      rfl

theorem value_append (l : List Nat) (d : Nat) : value m (l ++ [d]) = m * value m l + d := by
  rw [value, foldl_append]
  rfl

theorem value_eq (m : Nat) (l : List Nat) : value m l = ofDigits m l.reverse := by
  induction l using List.reverseRecOn with
  | nil => rfl
  | append_singleton l d ih =>
    rw [value_append, ih, reverse_append, reverse_singleton, singleton_append, Nat.ofDigits_cons]
    simp [add_comm]

variable {l s : List Nat}

theorem value_lt (hm : 1 < m) (below : ∀ d ∈ l, d < m) : value m l < m ^ l.length := by
  rw [value_eq, ← length_reverse]
  exact Nat.ofDigits_lt_base_pow_length hm fun d member => below d (mem_reverse.mp member)

theorem value_zeros {z : List Nat} (zeros : ∀ d ∈ z, d = 0) : value m (z ++ s) = value m s := by
  induction z with
  | nil => rfl
  | cons d z ih =>
    rw [← ih fun e member => zeros e (mem_cons_of_mem _ member), zeros d (mem_cons_self ..)]
    rfl

theorem value_le_append (hm : 0 < m) (l k : List Nat) : value m l ≤ value m (l ++ k) := by
  induction k using List.reverseRecOn with
  | nil => rw [append_nil]
  | append_singleton k d ih =>
    rw [← append_assoc, value_append]
    exact ih.trans ((Nat.le_mul_of_pos_left _ hm).trans (Nat.le_add_right ..))

theorem digits_length_le {k n x : Nat} (hb : 1 < b) (hk : 0 < k) (wide : 2 ^ k ≤ b) (small : x < 2 ^ n) :
    (digits b x).length ≤ n / k + 1 := by
  by_cases zero : x = 0
  · subst zero
    simp
  have bound : b ^ ((digits b x).length - 1) ≤ x := by
    rw [Nat.length_digits b x hb zero]
    exact Nat.pow_log_le_self b zero
  have chain : 2 ^ (k * ((digits b x).length - 1)) < 2 ^ n := by
    rw [Nat.pow_mul]
    exact ((Nat.pow_le_pow_left wide _).trans bound).trans_lt small
  have less := (Nat.pow_lt_pow_iff_right (by decide)).mp chain
  have quotient : (digits b x).length - 1 ≤ n / k := by
    rw [Nat.le_div_iff_mul_le hk, Nat.mul_comm]
    exact less.le
  omega

/-! ### There and back -/

theorem zeros_append (z : Nat) (front : s.head? ≠ some 0) :
    (List.replicate z 0 ++ s).takeWhile (· == 0) = List.replicate z 0 ∧
      (List.replicate z 0 ++ s).dropWhile (· == 0) = s := by
  have zeros : ∀ d ∈ List.replicate z 0, (d == 0) = true := by simp
  rw [dropWhile_append_of_pos zeros]
  cases s with
  | nil => simp
  | cons d s =>
    have other : d ≠ 0 := fun zero => front (by rw [zero]; rfl)
    simp [other]

/-- A string is its leading zeros and a rest that starts with another digit. -/
theorem zeros_split (l : List Nat) : ∃ z s, l = List.replicate z 0 ++ s ∧ s.head? ≠ some 0 := by
  refine ⟨(l.takeWhile (· == 0)).length, l.dropWhile (· == 0), ?_, ?_⟩
  · conv_lhs => rw [← takeWhile_append_dropWhile (p := (· == 0)) (l := l)]
    congr 1
    exact eq_replicate_iff.mpr ⟨rfl, fun d member => by simpa using mem_takeWhile_imp member⟩
  · intro zero
    have some := List.head?_dropWhile_not (p := (· == 0)) l
    rw [zero] at some
    simp at some

theorem recode_zeros (z : Nat) (front : s.head? ≠ some 0) :
    recode m b (List.replicate z 0 ++ s) = List.replicate z 0 ++ (digits b (value m s)).reverse := by
  rw [recode, (zeros_append z front).1, (zeros_append z front).2]

/-- The same of a list that is read through `f`, with its own test for zeros. -/
theorem recode_map {α : Type} {f : α → Nat} {zero : α → Bool} {l : List α} (same : ∀ x ∈ l, zero x = (f x == 0)) :
    recode m b (l.map f) = List.replicate (l.takeWhile zero).length 0 ++
      (digits b (value m ((l.dropWhile zero).map f))).reverse := by
  induction l with
  | nil => rfl
  | cons x l ih =>
    have rest := ih fun y member => same y (mem_cons_of_mem _ member)
    rw [recode] at rest ⊢
    rw [map_cons, takeWhile_cons, dropWhile_cons, takeWhile_cons, dropWhile_cons, same x (mem_cons_self ..)]
    cases here : f x == 0 with
    | false => simp
    | true =>
      simp only [if_true, length_cons, replicate_succ, cons_append, rest]
      rw [beq_iff_eq.mp here]

theorem digits_front (b n : Nat) : (digits b n).reverse.head? ≠ some 0 := by
  by_cases zero : n = 0
  · simp [zero]
  · rw [List.head?_reverse, List.getLast?_eq_getLast_of_ne_nil (Nat.digits_ne_nil_iff_ne_zero.mpr zero)]
    exact fun last => Nat.getLast_digit_ne_zero b zero (Option.some.inj last)

theorem recode_lt (hb : 1 < b) {d : Nat} (member : d ∈ recode m b l) : d < b := by
  rw [recode, mem_append, mem_reverse] at member
  rcases member with zero | digit
  · have : d = 0 := by simpa using mem_takeWhile_imp zero
    omega
  · exact Nat.digits_lt_base hb digit

theorem recode_recode (hm : 1 < m) (below : ∀ d ∈ l, d < m) : recode b m (recode m b l) = l := by
  obtain ⟨z, s, rfl, front⟩ := zeros_split l
  have belowS : ∀ d ∈ s.reverse, d < m := fun d member =>
    below d (mem_append_right _ (mem_reverse.mp member))
  rw [recode_zeros z front, recode_zeros z (digits_front b _), value_eq, reverse_reverse, Nat.ofDigits_digits,
    value_eq, Nat.digits_ofDigits m hm s.reverse belowS, reverse_reverse]
  intro some last
  rw [getLast_reverse] at last
  exact front (by rw [List.head?_eq_some_head (by simpa using some), last])

end DynaJS.Radix
