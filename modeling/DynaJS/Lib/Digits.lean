import Mathlib.Data.List.DropRight
import Mathlib.Tactic

/-! Arithmetic on digits, least significant first, read by `Nat.ofDigits`. -/
namespace DynaJS.Digits

open List

open Nat (ofDigits)

def Below (b : Nat) (l : List Nat) : Prop := ∀ d ∈ l, d < b

def Short (l : List Nat) : Prop := ∀ some : l ≠ [], l.getLast some ≠ 0

section Basic

variable {b : Nat} {l m : List Nat}

theorem Below.lt (h : Below b l) (hb : 1 < b) : ofDigits b l < b ^ l.length := Nat.ofDigits_lt_base_pow_length hb h

theorem below_cons {d : Nat} : Below b (d :: l) ↔ d < b ∧ Below b l := forall_mem_cons

theorem below_append : Below b (l ++ m) ↔ Below b l ∧ Below b m := by
  simp only [Below, mem_append, or_imp, forall_and]

theorem digits_eq (hb : 1 < b) (below : Below b l) (short : Short l) : Nat.digits b (ofDigits b l) = l :=
  Nat.digits_ofDigits b hb l below short

theorem eq_of_value_eq (hb : 1 < b) (bl : Below b l) (sl : Short l) (bm : Below b m) (sm : Short m)
    (same : ofDigits b l = ofDigits b m) : l = m := by
  rw [← digits_eq hb bl sl, same, digits_eq hb bm sm]

theorem pow_le_value (short : Short l) (some : l ≠ []) : b ^ (l.length - 1) ≤ ofDigits b l := by
  obtain ⟨front, d, rfl⟩ := eq_nil_or_concat l |>.resolve_left some
  have top : d ≠ 0 := by simpa using short some
  rw [concat_eq_append, Nat.ofDigits_append, Nat.ofDigits_singleton, length_append,
    length_singleton, Nat.add_sub_cancel]
  have : b ^ front.length * 1 ≤ b ^ front.length * d := Nat.mul_le_mul_left _ (Nat.pos_of_ne_zero top)
  omega

theorem value_eq_zero_iff (short : Short l) (hb : 0 < b) : ofDigits b l = 0 ↔ l = [] := by
  refine ⟨fun zero => ?_, fun none => by rw [none]; rfl⟩
  by_contra some
  have := pow_le_value (b := b) short some
  have : 0 < b ^ (l.length - 1) := Nat.pow_pos hb
  omega

theorem short_of_pow_le (hb : 1 < b) (below : Below b l) (le : b ^ (l.length - 1) ≤ ofDigits b l) : Short l := by
  intro some zero
  obtain ⟨front, d, rfl⟩ := eq_nil_or_concat l |>.resolve_left some
  have zero : d = 0 := by simpa using zero
  rw [concat_eq_append] at below le
  have bound := (below_append.mp below).1.lt hb
  rw [Nat.ofDigits_append, Nat.ofDigits_singleton, zero, length_append, length_singleton, Nat.add_sub_cancel] at le
  omega

theorem value_replicate_append (k : Nat) : ofDigits b (List.replicate k 0 ++ l) = b ^ k * ofDigits b l := by
  rw [Nat.ofDigits_append, Nat.ofDigits_replicate_zero, length_replicate, Nat.zero_add]

end Basic

section Strip

def strip (l : List Nat) : List Nat := l.rdropWhile (· == 0)

theorem strip_short (l : List Nat) : Short (strip l) := by
  intro some
  have top := rdropWhile_last_not (· == 0) l some
  rwa [beq_iff_eq] at top

variable {l : List Nat}

theorem strip_eq_self (short : Short l) : strip l = l := by
  rw [strip, rdropWhile_eq_self_iff]
  intro some
  simpa using short some

theorem strip_append (l : List Nat) : ∃ k, l = strip l ++ List.replicate k 0 := by
  induction l using List.reverseRecOn with
  | nil => exact ⟨0, rfl⟩
  | append_singleton l d ih =>
    by_cases zero : d = 0
    · obtain ⟨k, eq⟩ := ih
      refine ⟨k + 1, ?_⟩
      rw [strip, rdropWhile_concat_pos (· == 0) l d (by simpa using zero), ← strip,
        replicate_succ', ← append_assoc, ← eq, zero]
    · refine ⟨0, ?_⟩
      rw [strip, rdropWhile_concat_neg (· == 0) l d (by simpa using zero)]
      simp

theorem strip_value (b : Nat) (l : List Nat) : ofDigits b (strip l) = ofDigits b l := by
  obtain ⟨k, eq⟩ := strip_append l
  conv_rhs => rw [eq]
  rw [Nat.ofDigits_append_replicate_zero]

theorem strip_below {b : Nat} (below : Below b l) : Below b (strip l) := fun d member =>
  below d (( rdropWhile_prefix (· == 0) l).subset member)

theorem strip_length_le l : (strip l).length ≤ l.length := ( rdropWhile_prefix (· == 0) l).length_le

def lowZeros (l : List Nat) : Nat := (l.takeWhile (· == 0)).length

theorem lowZeros_split (l : List Nat) : List.replicate (lowZeros l) 0 ++ l.drop (lowZeros l) = l := by
  induction l with
  | nil => rfl
  | cons d l ih =>
    by_cases zero : d = 0
    · subst zero
      have count : lowZeros (0 :: l) = lowZeros l + 1 := by simp [lowZeros]
      rw [count, replicate_succ, drop_succ_cons, cons_append, ih]
    · have count : lowZeros (d :: l) = 0 := by simp [lowZeros, zero]
      rw [count]
      rfl

theorem lowZeros_value (b : Nat) (l : List Nat) :
    ofDigits b l = b ^ lowZeros l * ofDigits b (l.drop (lowZeros l)) := by
  conv_lhs => rw [← lowZeros_split l]
  exact value_replicate_append _

theorem head_drop_lowZeros (l : List Nat) : (l.drop (lowZeros l)).head? ≠ some 0 := by
  induction l with
  | nil => simp
  | cons d l ih =>
    by_cases zero : d = 0
    · subst zero
      have count : lowZeros (0 :: l) = lowZeros l + 1 := by simp [lowZeros]
      exact ih
    · have count : lowZeros (d :: l) = 0 := by simp [lowZeros, zero]
      rw [count]
      simpa using zero

theorem drop_short (short : Short l) (k : Nat) : Short (l.drop k) := by
  intro some
  have whole : l ≠ [] := fun none => by simp [none] at some
  rw [getLast_drop]
  exact short whole

theorem lowZeros_lt (short : Short l) (some : l ≠ []) : lowZeros l < l.length := by
  by_contra all
  have empty : l.drop (lowZeros l) = [] := drop_eq_nil_of_le (not_lt.mp all)
  have value := lowZeros_value 2 l
  rw [empty, Nat.ofDigits_nil, Nat.mul_zero, value_eq_zero_iff short (by decide)] at value
  exact some value

end Strip

section Carry

/-- Column sums to digits, each column taking the carry of the one below. -/
def carry (b : Nat) : Nat → List Nat → List Nat × Nat
  | c, [] => ([], c)
  | c, x :: xs => ((x + c) % b :: (carry b ((x + c) / b) xs).1, (carry b ((x + c) / b) xs).2)

variable {b : Nat}

theorem carry_length (c : Nat) (xs : List Nat) : (carry b c xs).1.length = xs.length := by
  induction xs generalizing c with
  | nil => rfl
  | cons x xs ih => rw [carry, length_cons, ih, length_cons]

theorem carry_below (pos : 0 < b) (c : Nat) (xs : List Nat) : Below b (carry b c xs).1 := by
  induction xs generalizing c with
  | nil => exact forall_mem_nil _
  | cons x xs ih => exact below_cons.mpr ⟨Nat.mod_lt _ pos, ih _⟩

theorem carry_value (c : Nat) (xs : List Nat) :
    ofDigits b (carry b c xs).1 + b ^ xs.length * (carry b c xs).2 = ofDigits b xs + c := by
  induction xs generalizing c with
  | nil => simp [carry]
  | cons x xs ih =>
    rw [carry, Nat.ofDigits_cons, Nat.ofDigits_cons, length_cons, pow_succ]
    have rest := ih ((x + c) / b)
    have split := Nat.mod_add_div (x + c) b
    nlinarith

theorem carry_fits (c : Nat) (xs : List Nat) (room : ofDigits b xs + c < b ^ xs.length) :
    (carry b c xs).2 = 0 ∧ ofDigits b (carry b c xs).1 = ofDigits b xs + c := by
  have value := carry_value (b := b) c xs
  have none : (carry b c xs).2 = 0 := by
    by_contra some
    have : b ^ xs.length * 1 ≤ b ^ xs.length * (carry b c xs).2 := Nat.mul_le_mul_left _ (Nat.pos_of_ne_zero some)
    omega
  rw [none] at value
  exact ⟨none, value⟩

end Carry

section Borrow

/-- Column differences to digits, each column paying for the one below. -/
def borrow (b : Nat) : Nat → List (Nat × Nat) → List Nat × Nat
  | c, [] => ([], c)
  | c, x :: xs =>
    if x.1 < x.2 + c then ((x.1 + b - (x.2 + c)) :: (borrow b 1 xs).1, (borrow b 1 xs).2)
    else ((x.1 - (x.2 + c)) :: (borrow b 0 xs).1, (borrow b 0 xs).2)

variable {b : Nat}

theorem borrow_length (c : Nat) (xs : List (Nat × Nat)) : (borrow b c xs).1.length = xs.length := by
  induction xs generalizing c with
  | nil => rfl
  | cons x xs ih =>
    rw [borrow]
    split_ifs
    · rw [length_cons, ih, length_cons]
    · rw [length_cons, ih, length_cons]

theorem borrow_below (c : Nat) (xs : List (Nat × Nat)) (below : ∀ x ∈ xs, x.1 < b) : Below b (borrow b c xs).1 := by
  induction xs generalizing c with
  | nil => exact forall_mem_nil _
  | cons x xs ih =>
    rw [forall_mem_cons] at below
    rw [borrow]
    split_ifs
    · exact below_cons.mpr ⟨by omega, ih 1 below.2⟩
    · exact below_cons.mpr ⟨by omega, ih 0 below.2⟩

theorem borrow_value (c : Nat) (xs : List (Nat × Nat)) (small : c ≤ 1) (below : ∀ x ∈ xs, x.2 < b) :
    ofDigits b (borrow b c xs).1 + ofDigits b (xs.map Prod.snd) + c =
      ofDigits b (xs.map Prod.fst) + b ^ xs.length * (borrow b c xs).2 := by
  induction xs generalizing c with
  | nil => simp [borrow]
  | cons x xs ih =>
    rw [forall_mem_cons] at below
    rw [borrow, map_cons, map_cons, Nat.ofDigits_cons, Nat.ofDigits_cons, length_cons, pow_succ]
    split_ifs with less
    · have rest := ih 1 le_rfl below.2
      have digit : x.1 + b - (x.2 + c) + (x.2 + c) = x.1 + b := by omega
      rw [Nat.ofDigits_cons]
      nlinarith
    · have rest := ih 0 (by omega) below.2
      have digit : x.1 - (x.2 + c) + (x.2 + c) = x.1 := by omega
      rw [Nat.ofDigits_cons]
      nlinarith

theorem borrow_fits (xs : List (Nat × Nat)) (hb : 1 < b) (first : ∀ x ∈ xs, x.1 < b) (second : ∀ x ∈ xs, x.2 < b)
    (le : ofDigits b (xs.map Prod.snd) ≤ ofDigits b (xs.map Prod.fst)) :
    ofDigits b (borrow b 0 xs).1 + ofDigits b (xs.map Prod.snd) = ofDigits b (xs.map Prod.fst) := by
  have value := borrow_value 0 xs (by omega) second
  have bound := (borrow_below 0 xs first).lt hb
  rw [borrow_length] at bound
  have none : (borrow b 0 xs).2 = 0 := by
    by_contra some
    have : b ^ xs.length * 1 ≤ b ^ xs.length * (borrow b 0 xs).2 := Nat.mul_le_mul_left _ (Nat.pos_of_ne_zero some)
    omega
  rw [none] at value
  omega

end Borrow

section Order

def order : List Nat → List Nat → Ordering
  | x :: xs, y :: ys => (order xs ys).then (compare x y)
  | _, _ => .eq

variable {xs ys : List Nat}

theorem order_value {b : Nat} (same : xs.length = ys.length) (bx : Below b xs)
    (by' : Below b ys) : order xs ys = compare (ofDigits b xs) (ofDigits b ys) := by
  induction xs generalizing ys with
  | nil =>
    obtain rfl : ys = [] := length_eq_zero_iff.mp same.symm
    simp [order]
  | cons x xs ih =>
    cases ys with
    | nil => simp at same
    | cons y ys =>
      obtain ⟨hx, bx⟩ := below_cons.mp bx
      obtain ⟨hy, by'⟩ := below_cons.mp by'
      rw [order, ih (by simpa using same) bx by', Nat.ofDigits_cons, Nat.ofDigits_cons]
      rcases Nat.lt_trichotomy (ofDigits b xs) (ofDigits b ys) with lt | eq | gt
      · have : x + b * ofDigits b xs < y + b * ofDigits b ys := by nlinarith
        rw [compare_lt_iff_lt.mpr lt, compare_lt_iff_lt.mpr this]
        rfl
      · rw [eq, compare_eq_iff_eq.mpr rfl, Ordering.eq_then]
        rcases Nat.lt_trichotomy x y with lt' | rfl | gt'
        · rw [compare_lt_iff_lt.mpr lt', compare_lt_iff_lt.mpr (by omega)]
        · rw [compare_eq_iff_eq.mpr rfl, compare_eq_iff_eq.mpr rfl]
        · rw [compare_gt_iff_gt.mpr gt', compare_gt_iff_gt.mpr (by omega)]
      · have : y + b * ofDigits b ys < x + b * ofDigits b xs := by nlinarith
        rw [compare_gt_iff_gt.mpr gt, compare_gt_iff_gt.mpr this]
        rfl

theorem order_concat (same : xs.length = ys.length) (x y : Nat) :
    order (xs ++ [x]) (ys ++ [y]) = (compare x y).then (order xs ys) := by
  induction xs generalizing ys with
  | nil =>
    obtain rfl : ys = [] := length_eq_zero_iff.mp same.symm
    cases h : compare x y
    · simp [order, h]
    · simp [order, h]
    · simp [order, h]
  | cons x' xs ih =>
    cases ys with
    | nil => simp at same
    | cons y' ys =>
      rw [cons_append, cons_append, order, ih (by simpa using same), order]
      cases compare x y
      · rfl
      · rfl
      · rfl

theorem lt_of_length_lt {b : Nat} (hb : 1 < b) (bx : Below b xs) (sy : Short ys)
    (longer : xs.length < ys.length) : ofDigits b xs < ofDigits b ys := by
  have some : ys ≠ [] := fun none => by simp [none] at longer
  calc ofDigits b xs < b ^ xs.length := bx.lt hb
    _ ≤ b ^ (ys.length - 1) := Nat.pow_le_pow_right (by omega) (by omega)
    _ ≤ ofDigits b ys := pow_le_value sy some

end Order

end DynaJS.Digits
