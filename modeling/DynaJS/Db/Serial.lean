import Mathlib.Data.Nat.Bitwise
import Mathlib.Tactic.Ring

/-! The records of `core/dyn-serial.c`: a header, little-endian fields and a checksum,
written and read back. The checksum `dyn_crc32c` is any function of the bytes. -/
namespace DynaJS.Db

open List UInt8

variable (v n : Nat)

def serLe : List UInt8 := (List.range n).map fun i : Nat => ofNat (v >>> (i * 8))

def deLe : List UInt8 → Nat
  | [] => 0
  | b :: l => b.toNat ||| deLe l <<< 8

/-- `dyn_de_t`, with the bytes from `pos` on. -/
structure De where
  rest : List UInt8
  err : Bool
  budget : Nat

inductive DeError
  | badMagic | badVersion | truncated | badCrc | tooLarge

def serMagic : List UInt8 := [0x44, 0x59, 0x4e, 0x53]

def serHead (typeId flags payload : Nat) : List UInt8 :=
  serMagic ++ (serLe 1 2 ++ (serLe typeId 2 ++ (serLe flags 4 ++ serLe payload 8)))

def serBegin (typeId flags : Nat) : List UInt8 := serHead typeId flags 0

/-- The payload's length is written over the bytes 12 to 19 of the header. -/
def serFinish (crc32c : List UInt8 → BitVec 32) (w : List UInt8) : List UInt8 :=
  let w := w.take 12 ++ serLe (w.length - 20) 8 ++ w.drop 20
  w ++ serLe (crc32c w).toNat 4

/-- The reader, the type and the flags of a record. -/
def deOpen (crc32c : List UInt8 → BitVec 32) (buf : List UInt8) (maxPayload : Nat) :
    Except DeError (De × Nat × Nat) :=
  let maxPayload := if maxPayload = 0 then 2 ^ 28 else maxPayload
  if buf.length < 20 + 4 then .error .truncated
  else if buf.take 4 ≠ serMagic then .error .badMagic
  else if deLe ((buf.drop 4).take 2) ≠ 1 then .error .badVersion
  else
    let payload := deLe ((buf.drop 12).take 8)
    if maxPayload < payload then .error .tooLarge
    else if payload ≠ buf.length - 20 - 4 then .error .truncated
    else if deLe (buf.drop (buf.length - 4)) ≠ (crc32c (buf.take (buf.length - 4))).toNat then .error .badCrc
    else .ok (⟨(buf.drop 20).take payload, false, 512 * 2 ^ 20 + 64 * payload⟩,
      deLe ((buf.drop 6).take 2), deLe ((buf.drop 8).take 4))

def deLeft (r : De) : Nat := if r.err then 0 else r.rest.length

def deCharge (r : De) (bytes : Nat) : Bool × De :=
  if r.budget < bytes then (false, { r with err := true }) else (true, { r with budget := r.budget - bytes })

def deTake (n : Nat) (r : De) : Option (List UInt8) × De :=
  if r.err ∨ r.rest.length < n then (none, { r with err := true })
  else (some (r.rest.take n), { r with rest := r.rest.drop n })

def deUint (n : Nat) (r : De) : Nat × De :=
  match deTake n r with
  | (some p, r) => (deLe p, r)
  | (none, r) => (0, r)

theorem serLe_succ : serLe v (n + 1) = ofNat v :: serLe (v >>> 8) n := by
  rw [serLe, range_succ_eq_map, map_cons, map_map]
  congr 1
  refine map_congr_left fun i _ => ?_
  change ofNat (v >>> ((i + 1) * 8)) = _
  rw [← Nat.shiftRight_add]
  congr 2
  ring

@[simp]
theorem serLe_length : (serLe v n).length = n := by
  rw [serLe, length_map, length_range]

theorem deLe_serLe (fits : v < 2 ^ (8 * n)) : deLe (serLe v n) = v := by
  induction n generalizing v with
  | zero =>
    have zero : v = 0 := by simpa using fits
    rw [zero]
    rfl
  | succ n ih =>
    have lower : v >>> 8 < 2 ^ (8 * n) := by
      rw [Nat.shiftRight_eq_div_pow]
      refine Nat.div_lt_of_lt_mul ?_
      rwa [← Nat.pow_add, show 8 + 8 * n = 8 * (n + 1) by ring]
    have byte : (ofNat v).toNat < 2 ^ 8 := toNat_lt _
    rw [serLe_succ, deLe, ih _ lower, Nat.lor_comm, ← Nat.shiftLeft_add_eq_or_of_lt byte, toNat_ofNat']
    omega

theorem deUint_serLe (r : De) (ok : r.err = false) {v n : Nat} {l : List UInt8} (front : r.rest = serLe v n ++ l)
    (fits : v < 2 ^ (8 * n)) : deUint n r = (v, { r with rest := l }) := by
  have long : ¬ (r.err = true ∨ r.rest.length < n) := by
    rw [ok, front]
    simp
  rw [deUint, deTake, if_neg long]
  dsimp only
  rw [front, take_left' (serLe_length v n), drop_left' (serLe_length v n), deLe_serLe v n fits]

section Record

theorem deLe_field {n : Nat} (a : List UInt8) {v k : Nat} {l : List UInt8} (at' : a.length = n)
    (fits : v < 2 ^ (8 * k)) : deLe (((a ++ (serLe v k ++ l)).drop n).take k) = v := by
  rw [drop_left' at', take_left' (serLe_length v k), deLe_serLe v k fits]

variable (crc32c : List UInt8 → BitVec 32) (p : List UInt8) {typeId flags : Nat}

theorem serHead_length (n : Nat) : (serHead typeId flags n).length = 20 := by simp [serHead, serMagic]

theorem serFinish_serBegin : serFinish crc32c (serBegin typeId flags ++ p) =
    serHead typeId flags p.length ++ p ++ serLe (crc32c (serHead typeId flags p.length ++ p)).toNat 4 := by
  have front : (serMagic ++ (serLe 1 2 ++ (serLe typeId 2 ++ serLe flags 4))).length = 12 := by simp [serMagic]
  have twelve : (serBegin typeId flags ++ p).take 12 =
      serMagic ++ (serLe 1 2 ++ (serLe typeId 2 ++ serLe flags 4)) := by
    simpa only [serBegin, serHead, append_assoc] using take_left' front
  rw [serFinish, twelve, serBegin, drop_left' (serHead_length 0), length_append, serHead_length,
    Nat.add_sub_cancel_left]
  simp only [serHead, append_assoc]

/-- A finished record is opened to its payload, its type and its flags, unless the payload
is larger than `DYN_SER_DEFAULT_MAX`. -/
theorem deOpen_serFinish (type : typeId < 2 ^ 16) (flag : flags < 2 ^ 32) (size : p.length < 2 ^ 64) :
    deOpen crc32c (serFinish crc32c (serBegin typeId flags ++ p)) 0 =
      if 2 ^ 28 < p.length then .error .tooLarge
      else .ok (⟨p, false, 512 * 2 ^ 20 + 64 * p.length⟩, typeId, flags) := by
  have record := @serFinish_serBegin crc32c p typeId flags
  generalize serFinish crc32c (serBegin typeId flags ++ p) = buf at record ⊢
  have body : (serHead typeId flags p.length ++ p).length = 20 + p.length + 4 - 4 := by simp [serHead_length]
  have whole : buf.length = 20 + p.length + 4 := by simp [record, serHead_length, add_assoc]
  have trailer : deLe (buf.drop (20 + p.length + 4 - 4)) = (crc32c (buf.take (20 + p.length + 4 - 4))).toNat := by
    rw [record, take_left' body, drop_left' body]
    exact deLe_serLe _ 4 (BitVec.isLt _)
  have payload : (buf.drop 20).take p.length = p := by
    rw [record, append_assoc, drop_left' (serHead_length _), take_left' rfl]
  have magic : buf.take 4 = serMagic := by
    rw [record]
    rfl
  simp only [serHead, append_assoc] at record
  have version : deLe ((buf.drop 4).take 2) = 1 := by
    rw [record]
    exact deLe_field serMagic rfl (by decide)
  have kind : deLe ((buf.drop 6).take 2) = typeId := by
    rw [record]
    exact deLe_field (serMagic ++ serLe 1 2) rfl type
  have marks : deLe ((buf.drop 8).take 4) = flags := by
    rw [record]
    exact deLe_field (serMagic ++ (serLe 1 2 ++ serLe typeId 2)) rfl flag
  have long : deLe ((buf.drop 12).take 8) = p.length := by
    rw [record]
    exact deLe_field (serMagic ++ (serLe 1 2 ++ (serLe typeId 2 ++ serLe flags 4))) rfl size
  rw [deOpen, if_neg (by omega), if_neg (not_not.mpr magic), if_neg (not_not.mpr version)]
  dsimp only
  rw [whole, long, if_pos rfl, if_neg (by omega : ¬ p.length ≠ _), if_neg (not_not.mpr trailer), payload, kind, marks]

end Record

end DynaJS.Db
