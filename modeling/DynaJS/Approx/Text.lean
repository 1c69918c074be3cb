import DynaJS.Engine.Strings

/-! The operands of `dyna-approx.inc.c`: a string as bytes when it is ASCII, as code points
otherwise. -/
namespace DynaJS.Approx

open Engine List Nat

def approxMaxBytes : Nat := 16 * 1024 * 1024

/-- How many bytes a lead byte announces in `dyn_utf8_count`. -/
def utf8Need (c : Nat) : Option Nat :=
  if c &&& 0xE0 = 0xC0 then some 2
  else if c &&& 0xF0 = 0xE0 then some 3
  else if c &&& 0xF8 = 0xF0 then some 4
  else none

/-- `dyn_utf8_count`: the count and the `ascii` flag; `none` for `(size_t)-1`. A round takes at
least one byte. -/
def utf8Count : Nat → List UInt8 → Nat → Bool → Option (Nat × Bool)
  | 0, _, cnt, hi => some (cnt, !hi)
  | _ + 1, [], cnt, hi => some (cnt, !hi)
  | fuel + 1, c :: s, cnt, hi =>
    if c.toNat < 0x80 then utf8Count fuel s (cnt + 1) hi
    else
      match utf8Need c.toNat with
      | none => none
      | some need =>
        if s.length + 1 < need then none
        else if (s.take (need - 1)).any fun b => b.toNat &&& 0xC0 ≠ 0x80 then none
        else utf8Count fuel (s.drop (need - 1)) (cnt + 1) true

def low6 (s : List UInt8) (k : Nat) : Nat := (s.getD k 0).toNat &&& 0x3F

def utf8Decode : Nat → List UInt8 → List Nat
  | 0, _ => []
  | _ + 1, [] => []
  | fuel + 1, c :: s =>
    if c.toNat < 0x80 then c.toNat :: utf8Decode fuel s
    else if c.toNat &&& 0xE0 = 0xC0 then (((c.toNat &&& 0x1F) <<< 6) ||| low6 s 0) :: utf8Decode fuel (s.drop 1)
    else if c.toNat &&& 0xF0 = 0xE0 then
      (((c.toNat &&& 0x0F) <<< 12) ||| (low6 s 0 <<< 6) ||| low6 s 1) :: utf8Decode fuel (s.drop 2)
    else
      (((c.toNat &&& 0x07) <<< 18) ||| (low6 s 0 <<< 12) ||| (low6 s 1 <<< 6) ||| low6 s 2) ::
        utf8Decode fuel (s.drop 3)

structure Operand where
  u8 : List UInt8
  cp : List Nat
  n : Nat
  ascii : Bool

def operandGet (v : JsString) (what : String) : Except Thrown Operand :=
  match toCStringLen v with
  | .error e => .error e
  | .ok bytes =>
    if approxMaxBytes < bytes.length then
      .error (.rangeError ("dyna:matcher: " ++ what ++ " exceeds the 16777216-byte limit"))
    else
      match utf8Count bytes.length bytes 0 false with
      | none => .error (.typeError ("dyna:matcher: " ++ what ++ " is not valid UTF-8"))
      | some (cnt, true) => .ok ⟨bytes, [], cnt, true⟩
      | some (cnt, false) => .ok ⟨[], utf8Decode bytes.length bytes, cnt, false⟩

def operandWiden (o : Operand) : Operand :=
  if o.ascii then { o with cp := o.u8.map UInt8.toNat, u8 := [], ascii := false } else o

/-- The code points of a string: surrogate pairs joined, a lone surrogate by itself. -/
def codePoints : List UInt16 → List Nat
  | [] => []
  | [c] => [c.toNat]
  | c :: c1 :: l =>
    if isHiSurrogate c && isLoSurrogate c1 then fromSurrogate c c1 :: codePoints l
    else c.toNat :: codePoints (c1 :: l)

theorem codePoints_le (l : List UInt16) : ∀ c ∈ codePoints l, c ≤ 0x10FFFF := by
  fun_induction codePoints l with
  | case1 =>
    intro c member
    contradiction
  | case2 c =>
    intro d member
    rw [mem_singleton.mp member]
    exact unit_le c
  | case3 c c1 l pair ih =>
    rw [Bool.and_eq_true] at pair
    intro d member
    rcases mem_cons.mp member with same | member
    · rw [same]
      exact (fromSurrogate_bounds pair.1 pair.2).2
    · exact ih d member
  | case4 c c1 l alone ih =>
    intro d member
    rcases mem_cons.mp member with rfl | member
    · exact unit_le c
    · exact ih d member

theorem utf8Units_eq (l : List UInt16) : utf8Units l = (codePoints l).flatMap unicodeToUtf8 := by
  fun_induction codePoints l with
  | case1 => rfl
  | case2 c => rw [utf8Units, flatMap_singleton]
  | case3 c c1 l pair ih => rw [utf8Units, if_pos pair, ih, flatMap_cons]
  | case4 c c1 l alone ih => rw [utf8Units, if_neg alone, ih, flatMap_cons]

section Decode

theorem lead_two {x : Nat} (small : x < 32) : (UInt8.ofNat (x ||| 0xc0)).toNat = x + 0xc0 ∧
    (x + 0xc0) &&& 0xE0 = 0xC0 ∧ (x + 0xc0) &&& 0x1F = x := by
  have joins := (by decide : ∀ x, x < 32 → (x ||| 0xc0) = x + 0xc0) x small
  exact ⟨lead_toNat x 0xc0 joins (by omega),
    (by decide : ∀ x, x < 32 → (x + 0xc0) &&& 0xE0 = 0xC0 ∧ (x + 0xc0) &&& 0x1F = x) x small⟩

theorem lead_three {x : Nat} (small : x < 16) : (UInt8.ofNat (x ||| 0xe0)).toNat = x + 0xe0 ∧
    (x + 0xe0) &&& 0xE0 ≠ 0xC0 ∧ (x + 0xe0) &&& 0xF0 = 0xE0 ∧ (x + 0xe0) &&& 0x0F = x := by
  have joins := (by decide : ∀ x, x < 16 → (x ||| 0xe0) = x + 0xe0) x small
  exact ⟨lead_toNat x 0xe0 joins (by omega),
    (by decide : ∀ x, x < 16 → (x + 0xe0) &&& 0xE0 ≠ 0xC0 ∧ (x + 0xe0) &&& 0xF0 = 0xE0 ∧
      (x + 0xe0) &&& 0x0F = x) x small⟩

theorem lead_four {x : Nat} (small : x < 8) : (UInt8.ofNat (x ||| 0xf0)).toNat = x + 0xf0 ∧
    (x + 0xf0) &&& 0xE0 ≠ 0xC0 ∧ (x + 0xf0) &&& 0xF0 ≠ 0xE0 ∧ (x + 0xf0) &&& 0xF8 = 0xF0 ∧
      (x + 0xf0) &&& 0x07 = x := by
  have joins := (by decide : ∀ x, x < 8 → (x ||| 0xf0) = x + 0xf0) x small
  exact ⟨lead_toNat x 0xf0 joins (by omega),
    (by decide : ∀ x, x < 8 → (x + 0xf0) &&& 0xE0 ≠ 0xC0 ∧ (x + 0xf0) &&& 0xF0 ≠ 0xE0 ∧
      (x + 0xf0) &&& 0xF8 = 0xF0 ∧ (x + 0xf0) &&& 0x07 = x) x small⟩

theorem contByte_marked (c k : Nat) : (contByte c k).toNat &&& 0xC0 = 0x80 := by
  rw [contByte_toNat]
  exact (by decide : ∀ y, y < 64 → (y + 0x80) &&& 0xC0 = 0x80) _ (mod_lt _ (by decide))

theorem contByte_low (c k : Nat) : (contByte c k).toNat &&& 0x3F = c / 2 ^ k % 64 := by
  rw [contByte_toNat]
  exact (by decide : ∀ y, y < 64 → (y + 0x80) &&& 0x3F = y) _ (mod_lt _ (by decide))

theorem shift_or_twelve (a : Nat) {b y : Nat} (hb : b < 64) (hy : y < 64) :
    (a <<< 12 ||| b <<< 6 ||| y) = (a * 64 + b) * 64 + y := by
  have shifts : a <<< 12 = (a <<< 6) <<< 6 := by rw [← shiftLeft_add]
  rw [shifts, ← shiftLeft_or_distrib, shift_or _ _ hy, shift_or _ _ hb]

theorem shift_or_eighteen (a : Nat) {b d y : Nat} (hb : b < 64) (hd : d < 64) (hy : y < 64) :
    (a <<< 18 ||| b <<< 12 ||| d <<< 6 ||| y) = ((a * 64 + b) * 64 + d) * 64 + y := by
  have shifts : a <<< 18 ||| b <<< 12 = (a <<< 12 ||| b <<< 6) <<< 6 := by
    rw [shiftLeft_or_distrib, ← shiftLeft_add, ← shiftLeft_add]
  rw [shifts, ← shiftLeft_or_distrib, shift_or _ _ hy, shift_or_twelve a hb hd]

theorem utf8Count_point (fuel c : Nat) (high : c ≤ 0x10FFFF) (rest : List UInt8) (cnt : Nat) (hi : Bool) :
    utf8Count (fuel + 1) (unicodeToUtf8 c ++ rest) cnt hi =
      utf8Count fuel rest (cnt + 1) (hi || decide (0x80 ≤ c)) := by
  rw [unicodeToUtf8]
  by_cases one : c < 0x80
  · have value := UInt8.toNat_ofNat_of_lt' (show c < 256 by omega)
    rw [if_pos one, singleton_append, utf8Count, value, if_pos one, decide_eq_false (by omega), Bool.or_false]
  rw [if_neg one, decide_eq_true (by omega)]
  by_cases two : c < 0x800
  · obtain ⟨lead, size, -⟩ := lead_two (show c >>> 6 < 32 by omega)
    rw [if_pos two, cons_append, utf8Count, lead, if_neg (by omega), utf8Need, if_pos size]
    simp [contByte_marked]
  by_cases three : c < 0x10000
  · obtain ⟨lead, other, size, -⟩ := lead_three (show c >>> 12 < 16 by omega)
    rw [if_neg two, if_pos three, cons_append, utf8Count, lead, if_neg (by omega), utf8Need, if_neg other,
      if_pos size]
    simp [contByte_marked]
  · obtain ⟨lead, other, third, size, -⟩ := lead_four (show c >>> 18 < 8 by omega)
    rw [if_neg two, if_neg three, if_pos (by omega), cons_append, utf8Count, lead, if_neg (by omega), utf8Need,
      if_neg other, if_neg third, if_pos size]
    simp [contByte_marked]

theorem utf8Decode_point (fuel c : Nat) (high : c ≤ 0x10FFFF) (rest : List UInt8) :
    utf8Decode (fuel + 1) (unicodeToUtf8 c ++ rest) = c :: utf8Decode fuel rest := by
  rw [unicodeToUtf8]
  by_cases one : c < 0x80
  · have value := UInt8.toNat_ofNat_of_lt' (show c < 256 by omega)
    rw [if_pos one, singleton_append, utf8Decode, value, if_pos one]
  rw [if_neg one]
  by_cases two : c < 0x800
  · obtain ⟨lead, size, bits⟩ := lead_two (show c >>> 6 < 32 by omega)
    rw [if_pos two, cons_append, cons_append, nil_append, utf8Decode, lead, if_neg (by omega),
      if_pos size, bits, low6, getD_cons_zero, contByte_low, shift_or _ _ (mod_lt _ (by decide)),
      shiftRight_eq_div_pow]
    exact congrArg₂ List.cons (by omega) rfl
  by_cases three : c < 0x10000
  · obtain ⟨lead, other, size, bits⟩ := lead_three (show c >>> 12 < 16 by omega)
    rw [if_neg two, if_pos three, cons_append, cons_append, cons_append, nil_append, utf8Decode,
      lead, if_neg (by omega), if_neg other, if_pos size, bits, low6, low6, getD_cons_zero,
      getD_cons_succ, getD_cons_zero, contByte_low, contByte_low,
      shift_or_twelve _ (mod_lt _ (by decide)) (mod_lt _ (by decide)), shiftRight_eq_div_pow]
    exact congrArg₂ List.cons (by omega) rfl
  · obtain ⟨lead, other, third, size, bits⟩ := lead_four (show c >>> 18 < 8 by omega)
    rw [if_neg two, if_neg three, if_pos (by omega), cons_append, cons_append, cons_append,
      cons_append, nil_append, utf8Decode, lead, if_neg (by omega), if_neg other, if_neg third, bits, low6,
      low6, low6, getD_cons_zero, getD_cons_succ, getD_cons_zero, getD_cons_succ,
      getD_cons_succ, getD_cons_zero, contByte_low, contByte_low, contByte_low,
      shift_or_eighteen _ (mod_lt _ (by decide)) (mod_lt _ (by decide)) (mod_lt _ (by decide)),
      shiftRight_eq_div_pow]
    exact congrArg₂ List.cons (by omega) rfl

variable (cps : List Nat)

section

variable (high : ∀ c ∈ cps, c ≤ 0x10FFFF)
include high

theorem length_le_bytes : cps.length ≤ (cps.flatMap unicodeToUtf8).length := by
  induction cps with
  | nil => exact zero_le _
  | cons c cps ih =>
    have rest := ih fun d member => high d (mem_cons_of_mem _ member)
    have some := unicodeToUtf8_pos (high c mem_cons_self)
    rw [flatMap_cons, length_append, length_cons]
    omega

theorem utf8Count_points (fuel cnt : Nat) (hi : Bool) (enough : cps.length ≤ fuel) :
    utf8Count fuel (cps.flatMap unicodeToUtf8) cnt hi =
      some (cnt + cps.length, !(hi || cps.any fun c => decide (0x80 ≤ c))) := by
  induction cps generalizing fuel cnt hi with
  | nil => cases fuel <;> simp [utf8Count]
  | cons c cps ih =>
    obtain ⟨k, rfl⟩ : ∃ k, fuel = k + 1 := ⟨fuel - 1, by rw [length_cons] at enough; omega⟩
    rw [length_cons] at enough
    rw [flatMap_cons, utf8Count_point k c (high c mem_cons_self),
      ih (fun d member => high d (mem_cons_of_mem _ member)) k _ _ (by omega), length_cons, any_cons,
      Bool.or_assoc, add_assoc, add_comm 1]

theorem utf8Decode_points (fuel : Nat)
    (enough : cps.length ≤ fuel) : utf8Decode fuel (cps.flatMap unicodeToUtf8) = cps := by
  induction cps generalizing fuel with
  | nil => cases fuel <;> rfl
  | cons c cps ih =>
    obtain ⟨k, rfl⟩ : ∃ k, fuel = k + 1 := ⟨fuel - 1, by rw [length_cons] at enough; omega⟩
    rw [length_cons] at enough
    rw [flatMap_cons, utf8Decode_point k c (high c mem_cons_self),
      ih (fun d member => high d (mem_cons_of_mem _ member)) k (by omega)]

end

theorem ascii_bytes (low : ∀ c ∈ cps, c < 0x80) : (cps.flatMap unicodeToUtf8).map UInt8.toNat = cps := by
  induction cps with
  | nil => rfl
  | cons c cps ih =>
    have small := low c mem_cons_self
    rw [flatMap_cons, map_append, ih fun d member => low d (mem_cons_of_mem _ member), unicodeToUtf8,
      if_pos small, map_singleton, UInt8.toNat_ofNat', mod_eq_of_lt (by omega), singleton_append]

end Decode

structure Operand.Holds (o : Operand) (cps : List Nat) : Prop where
  count : o.n = cps.length
  limit : cps.length ≤ approxMaxBytes
  bytes : o.ascii = true → o.u8.map UInt8.toNat = cps ∧ ∀ c ∈ cps, c < 0x80
  points : o.ascii = false → o.cp = cps
  valid : ∀ c ∈ cps, c ≤ 0x10FFFF

theorem operandGet_holds {v : JsString} {what : String} {o : Operand} (got : operandGet v what = .ok o) :
    o.Holds (codePoints v.units) := by
  rw [operandGet] at got
  have valid := codePoints_le v.units
  cases lent : toCStringLen v with
  | error e =>
    rw [lent] at got
    contradiction
  | ok bytes =>
    have shape : bytes = (codePoints v.units).flatMap unicodeToUtf8 := (toCStringLen_ok lent).trans (utf8Units_eq _)
    have size := length_le_bytes _ valid
    rw [← shape] at size
    have counted := utf8Count_points _ valid bytes.length 0 false size
    rw [← shape, zero_add] at counted
    rw [lent] at got
    dsimp only at got
    split at got
    · contradiction
    rename_i fits
    have limit : (codePoints v.units).length ≤ approxMaxBytes := le_trans size (Nat.le_of_not_lt fits)
    rw [counted] at got
    cases plain : (codePoints v.units).any fun c => decide (0x80 ≤ c) with
    | false =>
      rw [plain] at got
      rw [← Except.ok.inj got]
      have low : ∀ c ∈ codePoints v.units, c < 0x80 := by
        rw [any_eq_false] at plain
        intro c member
        simpa using plain c member
      exact ⟨rfl, limit, fun _ => ⟨by rw [shape, ascii_bytes _ low], low⟩, Bool.noConfusion, valid⟩
    | true =>
      rw [plain] at got
      rw [← Except.ok.inj got]
      refine ⟨rfl, limit, Bool.noConfusion, fun _ => ?_, valid⟩
      exact (congrArg _ shape).trans (utf8Decode_points _ valid _ size)

theorem operandWiden_cp {o : Operand} {cps : List Nat} (holds : o.Holds cps) : (operandWiden o).cp = cps := by
  rw [operandWiden]
  cases ascii : o.ascii with
  | true => exact (holds.bytes ascii).1
  | false => exact holds.points ascii

end DynaJS.Approx
