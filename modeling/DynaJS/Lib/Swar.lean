import Mathlib.Data.Nat.Bitwise
import Mathlib.Tactic.Ring

/-! Bytes handled a word at a time: which of the bytes packed into a word are zero, or
equal to a given byte, from one subtraction. -/
namespace DynaJS.Swar

open Nat List

def pack : List UInt8 → Nat
  | [] => 0
  | b :: l => b.toNat + 256 * pack l

theorem pack_lt (l : List UInt8) : pack l < 256 ^ l.length := by
  induction l with
  | nil => exact one_pos
  | cons b l ih =>
    have byte : b.toNat < 256 := b.toNat_lt
    rw [pack, length_cons]
    omega

theorem testBit_byte (x y i : Nat) (small : x < 256) :
    (x + 256 * y).testBit i = if i < 8 then x.testBit i else y.testBit (i - 8) := by
  rw [add_comm, show 256 = 2 ^ 8 by rfl, testBit_two_pow_mul_add y small]

theorem land_byte {x y : Nat} (hx : x < 256) (hy : y < 256) (u v : Nat) :
    (x + 256 * u) &&& (y + 256 * v) = (x &&& y) + 256 * (u &&& v) := by
  have small : x &&& y < 256 := lt_of_le_of_lt and_le_left hx
  refine eq_of_testBit_eq fun i => ?_
  rw [testBit_and, testBit_byte x u i hx, testBit_byte y v i hy, testBit_byte _ _ i small]
  split <;> rw [testBit_and]

theorem xor_byte {x y : Nat} (hx : x < 256) (hy : y < 256) (u v : Nat) :
    (x + 256 * u) ^^^ (y + 256 * v) = (x ^^^ y) + 256 * (u ^^^ v) := by
  have small : x ^^^ y < 256 := xor_lt_two_pow (n := 8) hx hy
  refine eq_of_testBit_eq fun i => ?_
  rw [testBit_xor, testBit_byte x u i hx, testBit_byte y v i hy, testBit_byte _ _ i small]
  split <;> rw [testBit_xor]

theorem pack_xor (b : UInt8) (l : List UInt8) :
    pack l ^^^ pack (List.replicate l.length b) = pack (l.map (· ^^^ b)) := by
  induction l with
  | nil => exact Nat.xor_self 0
  | cons c l ih =>
    rw [length_cons, replicate_succ, pack, pack, xor_byte c.toNat_lt b.toNat_lt, ih, map_cons, pack,
      UInt8.toNat_xor]

variable (n : Nat)

def ones : Nat := pack (List.replicate n 1)

def highs : Nat := pack (List.replicate n 128)

theorem ones_succ : ones (n + 1) = 1 + 256 * ones n := rfl

theorem highs_succ : highs (n + 1) = 128 + 256 * highs n := rfl

theorem ones_lt : ones n < 256 ^ n := by
  have bound := pack_lt (List.replicate n 1)
  rwa [length_replicate] at bound

theorem pack_replicate (b : UInt8) : pack (List.replicate n b) = ones n * b.toNat := by
  induction n with
  | zero => exact (zero_mul _).symm
  | succ n ih =>
    rw [replicate_succ, pack, ih, ones_succ]
    ring

/-- The zero test on a word of `n` bytes: `(v - ones) & ~v & highs`, in `n` bytes. -/
def zeroMask (n v : Nat) : Nat := (v + (256 ^ n - ones n)) % 256 ^ n &&& (256 ^ n - 1 - v) &&& highs n

theorem byte_mask : ∀ b : Nat, b < 256 → b ≠ 0 → (b - 1) &&& (255 - b) &&& 128 = 0 := by decide +kernel

/-- The lowest byte, when it is not zero, borrows nothing and leaves no mark. -/
theorem zeroMask_step {b : Nat} (small : b < 256) (positive : b ≠ 0) {n v : Nat} (fits : v < 256 ^ n) :
    zeroMask (n + 1) (b + 256 * v) = 256 * zeroMask n v := by
  have room := ones_lt n
  generalize taken : (v + (256 ^ n - ones n)) % 256 ^ n = w
  have low : (b + 256 * v + (256 ^ (n + 1) - ones (n + 1))) % 256 ^ (n + 1) = (b - 1) + 256 * w := by
    rw [← taken, ones_succ, pow_succ,
      show b + 256 * v + (256 ^ n * 256 - (1 + 256 * ones n)) = (b - 1) + 256 * (v + (256 ^ n - ones n)) by omega,
      mul_comm (256 ^ n) 256, mod_mul, add_mul_mod_self_left, mod_eq_of_lt (by omega),
      add_mul_div_left _ _ (by decide), div_eq_of_lt (by omega), zero_add]
  have high : 256 ^ (n + 1) - 1 - (b + 256 * v) = (255 - b) + 256 * (256 ^ n - 1 - v) := by
    omega
  rw [zeroMask, low, high, highs_succ, land_byte (by omega) (by omega),
    land_byte (lt_of_le_of_lt and_le_left (by omega)) (by decide), byte_mask b small positive, zero_add,
    zeroMask, taken]

theorem zeroMask_zero (n v : Nat) (fits : v < 256 ^ n) : zeroMask (n + 1) (256 * v) ≠ 0 := by
  have room := ones_lt n
  have split : ∃ w, (256 * v + (256 ^ (n + 1) - ones (n + 1))) % 256 ^ (n + 1) = 255 + 256 * w := by
    refine ⟨(v + (256 ^ n - ones n - 1)) % 256 ^ n, ?_⟩
    rw [ones_succ, pow_succ,
      show 256 * v + (256 ^ n * 256 - (1 + 256 * ones n)) = 255 + 256 * (v + (256 ^ n - ones n - 1)) by omega,
      mul_comm (256 ^ n) 256, mod_mul, add_mul_mod_self_left, add_mul_div_left _ _ (by decide),
      div_eq_of_lt (by omega), zero_add]
  obtain ⟨w, low⟩ := split
  have high : 256 ^ (n + 1) - 1 - 256 * v = 255 + 256 * (256 ^ n - 1 - v) := by
    omega
  rw [zeroMask, low, high, highs_succ, land_byte (by omega) (by omega), land_byte (by decide) (by decide)]
  simp

theorem zeroMask_eq_zero_iff (l : List UInt8) : zeroMask l.length (pack l) = 0 ↔ 0 ∉ l := by
  induction l with
  | nil => simp [zeroMask, highs, pack]
  | cons b l ih =>
    by_cases zero : b = 0
    · subst zero
      refine iff_of_false ?_ fun absent => absent mem_cons_self
      rw [pack, UInt8.toNat_zero, zero_add]
      exact zeroMask_zero l.length (pack l) (pack_lt l)
    · have positive : b.toNat ≠ 0 := fun same => zero (UInt8.toNat_inj.mp same)
      rw [length_cons, pack, zeroMask_step b.toNat_lt positive (pack_lt l), mem_cons, not_or,
        and_iff_right (Ne.symm zero), ← ih]
      omega

theorem byteMask_eq_zero_iff (b : UInt8) (l : List UInt8) :
    zeroMask l.length (pack l ^^^ pack (List.replicate l.length b)) = 0 ↔ b ∉ l := by
  have mask := zeroMask_eq_zero_iff (l.map (· ^^^ b))
  rw [length_map] at mask
  rw [pack_xor, mask, mem_map]
  refine not_congr ⟨?_, fun found => ⟨b, found, UInt8.xor_self⟩⟩
  rintro ⟨c, found, same⟩
  rwa [← UInt8.xor_eq_zero_iff.mp same]

end DynaJS.Swar
