import Mathlib.Tactic

/-! Sets of small numbers as arrays of 64-bit words: single bits, word-wise
operations, population counts, and the enumeration that clears the lowest bit. -/
namespace DynaJS.BitSet

open List Nat
open BitVec

abbrev Words := Nat → BitVec 64

variable (w : Words)

/-- `(w[v >> 6] >> (v & 63)) & 1` -/
def bit (v : Nat) : Bool := (w (v / 64)).getLsbD (v % 64)

def update (i : Nat) (x : BitVec 64) : Words := fun k => if k = i then x else w k

/-- `w[v >> 6] |= 1ULL << (v & 63)` -/
def setBit (v : Nat) : Words := update w (v / 64) (w (v / 64) ||| 1#64 <<< (v % 64))

/-- `w[v >> 6] &= ~(1ULL << (v & 63))` -/
def clearBit (v : Nat) : Words := update w (v / 64) (w (v / 64) &&& ~~~(1#64 <<< (v % 64)))

theorem one_shift (k j : Nat) (hj : j < 64) : (1#64 <<< k).getLsbD j = decide (j = k) := by
  simp only [getLsbD_shiftLeft, hj, decide_true, Bool.true_and, getLsbD_one]
  by_cases same : j = k
  · simp [same]
  · by_cases low : j < k
    · simp [low, same]
    · have : ¬ j - k = 0 := by omega
      simp [low, same, this]

theorem bit_setBit (v u : Nat) : bit (setBit w v) u = (bit w u || decide (u = v)) := by
  unfold bit setBit update
  by_cases word : u / 64 = v / 64
  · rw [if_pos word, getLsbD_or, one_shift _ _ (by omega), word]
    congr 2
    exact propext ⟨fun _ => by omega, fun _ => by omega⟩
  · have other : u ≠ v := by rintro rfl; exact word rfl
    rw [if_neg word]
    simp [other]

theorem bit_clearBit (v u : Nat) : bit (clearBit w v) u = (bit w u && !decide (u = v)) := by
  unfold bit clearBit update
  by_cases word : u / 64 = v / 64
  · rw [if_pos word, getLsbD_and, getLsbD_not, one_shift _ _ (by omega), word]
    have same : (u % 64 = v % 64) = (u = v) := propext ⟨fun _ => by omega, fun _ => by omega⟩
    simp [same, (by omega : u % 64 < 64)]
  · have other : u ≠ v := by rintro rfl; exact word rfl
    rw [if_neg word]
    simp [other]

def ones (x : BitVec 64) : List Nat := (List.range 64).filter (x.getLsbD ·)

def popcount (x : BitVec 64) : Nat := (ones x).length

/-- `__builtin_ctzll`, for a word that is not zero. -/
def ctz (x : BitVec 64) : Nat := (ones x).headD 64

variable {x : BitVec 64}

theorem mem_ones {j : Nat} : j ∈ ones x ↔ x.getLsbD j = true := by
  simp only [ones, mem_filter, mem_range, and_iff_right_iff_imp]
  intro set
  by_contra far
  rw [getLsbD_of_ge x j (by omega)] at set
  contradiction

theorem ones_sorted x : (ones x).Pairwise (· < ·) := List.Pairwise.filter _ pairwise_lt_range

theorem ones_nil : ones x = [] ↔ x = 0 := by
  constructor
  · intro none
    apply eq_of_getLsbD_eq
    intro j _
    have out : j ∉ ones x := by simp [none]
    rw [mem_ones] at out
    simpa using out
  · rintro rfl
    simp [ones]

/-- Subtracting one borrows from the lowest one: the bits above it stay. -/
theorem and_sub_one_bit {c : Nat} (low : ∀ j, j < c → x.getLsbD j = false) (here : x.getLsbD c = true) (j : Nat) :
    (x &&& (x - 1)).getLsbD j = (x.getLsbD j && decide (j ≠ c)) := by
  -- `x` is an odd multiple of `2 ^ c`.
  obtain ⟨q, split⟩ : ∃ q, x.toNat = 2 ^ c * q := by
    refine (dvd_iff_mod_eq_zero.mpr ?_)
    apply eq_of_testBit_eq
    intro j
    by_cases lt : j < c
    · have := low j lt
      simp [lt, getLsbD] at this ⊢
      exact this
    · simp [lt]
  have odd : q.testBit 0 = true := by
    have : x.toNat.testBit c = true := here
    rw [split] at this
    simpa [testBit_two_pow_mul] using this
  obtain ⟨m, rfl⟩ : ∃ m, q = 2 * m + 1 := by
    refine ⟨q / 2, ?_⟩
    have : q % 2 = 1 := by simpa [testBit_zero] using odd
    omega
  have pos : 0 < 2 ^ c := Nat.pow_pos (by decide)
  have expand : x.toNat = 2 ^ c * (2 * m) + 2 ^ c := by rw [split]; ring
  have pred : (x - 1).toNat = 2 ^ c * (2 * m) + (2 ^ c - 1) := by
    have one : (1 : BitVec 64).toNat = 1 := rfl
    rw [toNat_sub_of_le (by rw [le_def]; omega)]
    omega
  rw [getLsbD_and]
  by_cases lt : j < c
  · simp [low j lt]
  have shifted : (x - 1).getLsbD j = (2 * m).testBit (j - c) := by
    show (x - 1).toNat.testBit j = _
    rw [pred, testBit_two_pow_mul_add _ (by omega), if_neg lt]
  have own : x.getLsbD j = (2 * m + 1).testBit (j - c) := by
    show x.toNat.testBit j = _
    rw [split, testBit_two_pow_mul]
    simp only [show j ≥ c by omega, decide_true, Bool.true_and]
  rw [shifted, own]
  by_cases same : j = c
  · simp [same]
  · obtain ⟨k, hk⟩ : ∃ k, j - c = k + 1 := ⟨j - c - 1, by omega⟩
    have half : (2 * m + 1) / 2 = m ∧ 2 * m / 2 = m := by omega
    simp [hk, testBit_succ, half.1, half.2, same]

theorem ones_and_sub_one {c : Nat} {rest : List Nat} (shape : ones x = c :: rest) : ones (x &&& (x - 1)) = rest := by
  have sorted := ones_sorted x
  rw [shape] at sorted
  obtain ⟨above, _⟩ := pairwise_cons.mp sorted
  have here : x.getLsbD c = true := mem_ones.mp (by simp [shape])
  have low : ∀ j, j < c → x.getLsbD j = false := fun j lt => by
    by_contra set
    have member : j ∈ ones x := mem_ones.mpr (by simpa using set)
    rw [shape] at member
    rcases mem_cons.mp member with rfl | later
    · omega
    · have := above j later
      omega
  have cleared : ones (x &&& (x - 1)) = (ones x).filter (· ≠ c) := by
    unfold ones
    rw [filter_filter]
    congr 1
    funext j
    rw [and_sub_one_bit low here, Bool.and_comm]
  rw [cleared, shape, filter_cons_of_neg (by simp)]
  refine filter_eq_self.mpr fun j member => ?_
  have := above j member
  simp only [ne_eq, decide_not, Bool.not_eq_eq_eq_not, Bool.not_true, decide_eq_false_iff_not]
  omega

/-- The loop `while (x) { *a++ = base + ctz(x); x &= x - 1; }` -/
def drain (base : Nat) : Nat → BitVec 64 → List Nat
  | 0, _ => []
  | fuel + 1, x => if x = 0 then [] else (base + ctz x) :: drain base fuel (x &&& (x - 1))

theorem drain_eq (base fuel : Nat) (x : BitVec 64) (enough : popcount x ≤ fuel) :
    drain base fuel x = (ones x).map (base + ·) := by
  induction fuel generalizing x with
  | zero =>
    have none : ones x = [] := length_eq_zero_iff.mp (by simpa [popcount] using enough)
    simp [drain, none]
  | succ fuel ih =>
    unfold drain
    split_ifs with zero
    · rw [ones_nil.mpr zero]
      rfl
    · cases shape : ones x with
      | nil => exact absurd (ones_nil.mp shape) zero
      | cons c rest =>
        have tail := ones_and_sub_one shape
        rw [ih _ (by simp only [popcount, tail]; simp only [popcount, shape] at enough; simpa using enough), tail]
        simp [ctz, shape]

theorem popcount_le (x : BitVec 64) : popcount x ≤ 64 := by
  have := length_filter_le (x.getLsbD ·) (List.range 64)
  simpa [popcount, ones] using this

variable (n : Nat)

def elements : List Nat := (List.range n).flatMap fun i => drain (i * 64) 64 (w i)

def count : Nat := (List.range n).foldl (fun c i => c + popcount (w i)) 0

theorem word_elements (i : Nat) : drain (i * 64) 64 (w i) = ((List.range 64).map (i * 64 + ·)).filter (bit w) := by
  rw [drain_eq _ _ _ (popcount_le _), filter_map]
  congr 1
  refine filter_congr fun j member => ?_
  have small := mem_range.mp member
  simp only [Function.comp_apply, bit]
  rw [show (i * 64 + j) / 64 = i by omega, show (i * 64 + j) % 64 = j by omega]

theorem elements_eq : elements w n = (List.range (n * 64)).filter (bit w) := by
  induction n with
  | zero => rfl
  | succ n ih =>
    rw [elements, range_succ, flatMap_append, ← elements, ih, Nat.succ_mul, range_add, filter_append]
    simp only [flatMap_cons, flatMap_nil, append_nil, word_elements]

theorem count_eq : count w n = (elements w n).length := by
  induction n with
  | zero => rfl
  | succ n ih =>
    rw [count, range_succ, foldl_append, ← count, ih, elements, elements, range_succ]
    simp [drain_eq _ _ _ (popcount_le _), popcount]

theorem mem_elements {w : Words} {n v : Nat} : v ∈ elements w n ↔ v < n * 64 ∧ bit w v = true := by
  rw [elements_eq]
  simp

theorem elements_sorted : (elements w n).Pairwise (· < ·) := by
  rw [elements_eq]
  exact List.Pairwise.filter _ pairwise_lt_range

theorem card_toFinset_sorted {l : List Nat} (sorted : l.Pairwise (· < ·)) : l.toFinset.card = l.length :=
  toFinset_card_of_nodup (sorted.imp fun lt => ne_of_lt lt)

end DynaJS.BitSet
