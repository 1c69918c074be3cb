import Mathlib.Data.Nat.Bitwise
import Mathlib.Data.List.TakeWhile
import Mathlib.Tactic.Ring

/-! The strings of the engine and their UTF-8: `JS_ToCStringLen` of `runtime/class.inc.c` and
`JS_NewStringLen` back. A lone surrogate is written as three bytes and read back as itself. -/
namespace DynaJS.Engine

open List Nat UInt8

inductive Thrown where
  | typeError (message : String)
  | rangeError (message : String)
  | syntaxError (message : String)
  | internalError (message : String)
  | outOfMemory
  deriving DecidableEq, Repr

theorem bind_ok_iff {E X Y : Type} {x : Except E X} {f : X → Except E Y} {r : Y} :
    x >>= f = .ok r ↔ ∃ v, x = .ok v ∧ f v = .ok r := by
  cases x with
  | error e => simp [bind, Except.bind]
  | ok v => simp [bind, Except.bind]

theorem bind_ok {E X Y : Type} {x : Except E X} {f : X → Except E Y} {r : Y} (ran : x >>= f = .ok r) :
    ∃ v, x = .ok v ∧ f v = .ok r := bind_ok_iff.mp ran

def jsStringLenMax : Nat := 2 ^ 30 - 1

/-- A string: its code units, and `is_wide_char`, without which every unit is a byte. -/
structure JsString where
  units : List UInt16
  wide : Bool
  narrow : wide = false → ∀ c ∈ units, c.toNat < 256

theorem narrow_of_all {units : List UInt16} {wide : Bool} (bytes : units.all (·.toNat < 256) = true) :
    wide = false → ∀ c ∈ units, c.toNat < 256 :=
  fun _ c member => of_decide_eq_true (all_eq_true.mp bytes c member)

def isHiSurrogate (c : UInt16) : Bool := c.toNat >>> 10 == 0xD800 >>> 10

def isLoSurrogate (c : UInt16) : Bool := c.toNat >>> 10 == 0xDC00 >>> 10

def getHiSurrogate (c : Nat) : UInt16 := UInt16.ofNat ((c >>> 10) - (0x10000 >>> 10) + 0xD800)

def getLoSurrogate (c : Nat) : UInt16 := UInt16.ofNat ((c &&& 0x3FF) ||| 0xDC00)

def fromSurrogate (hi lo : UInt16) : Nat := 0x10000 + 0x400 * (hi.toNat - 0xD800) + (lo.toNat - 0xDC00)

def contByte (c k : Nat) : UInt8 := ofNat (((c >>> k) &&& 0x3f) ||| 0x80)

def unicodeToUtf8 (c : Nat) : List UInt8 :=
  if c < 0x80 then [ofNat c]
  else if c < 0x800 then [ofNat ((c >>> 6) ||| 0xc0), contByte c 0]
  else if c < 0x10000 then [ofNat ((c >>> 12) ||| 0xe0), contByte c 6, contByte c 0]
  else if c < 0x200000 then [ofNat ((c >>> 18) ||| 0xf0), contByte c 12, contByte c 6, contByte c 0]
  else if c < 0x4000000 then
    [ofNat ((c >>> 24) ||| 0xf8), contByte c 18, contByte c 12, contByte c 6, contByte c 0]
  else if c < 0x80000000 then
    [ofNat ((c >>> 30) ||| 0xfc), contByte c 24, contByte c 18, contByte c 12, contByte c 6, contByte c 0]
  else []

/-- The switch of `unicode_from_utf8`: how many bytes follow a lead byte, the mask for its own
bits, and the least code point that needs so many. -/
def utf8Lead (c : Nat) : Option (Nat × Nat × Nat) :=
  if 0xc0 ≤ c ∧ c ≤ 0xdf then some (1, 0x1f, 0x80)
  else if 0xe0 ≤ c ∧ c ≤ 0xef then some (2, 0xf, 0x800)
  else if 0xf0 ≤ c ∧ c ≤ 0xf7 then some (3, 0x7, 0x10000)
  else if 0xf8 ≤ c ∧ c ≤ 0xfb then some (4, 0x3, 0x200000)
  else if 0xfc ≤ c ∧ c ≤ 0xfd then some (5, 0x1, 0x4000000)
  else none

def utf8Tail : Nat → Nat → List UInt8 → Option (Nat × List UInt8)
  | 0, c, p => some (c, p)
  | _ + 1, _, [] => none
  | l + 1, c, b :: p =>
    if b.toNat < 0x80 ∨ 0xc0 ≤ b.toNat then none else utf8Tail l ((c <<< 6) ||| (b.toNat &&& 0x3f)) p

def unicodeFromUtf8 : List UInt8 → Option (Nat × List UInt8)
  | [] => none
  | b :: p =>
    if b.toNat < 0x80 then some (b.toNat, p)
    else
      match utf8Lead b.toNat with
      | none => none
      | some (l, mask, least) =>
        if p.length < l then none
        else
          match utf8Tail l (b.toNat &&& mask) p with
          | none => none
          | some (c, next) => if c < least then none else some (c, next)

def utf8Units : List UInt16 → List UInt8
  | [] => []
  | [c] => unicodeToUtf8 c.toNat
  | c :: c1 :: l =>
    if isHiSurrogate c && isLoSurrogate c1 then unicodeToUtf8 (fromSurrogate c c1) ++ utf8Units l
    else unicodeToUtf8 c.toNat ++ utf8Units (c1 :: l)

def utf8Latin1 (units : List UInt16) : List UInt8 := units.flatMap fun c =>
    if c.toNat < 0x80 then [ofNat c.toNat]
    else [ofNat ((c.toNat >>> 6) ||| 0xc0), ofNat ((c.toNat &&& 0x3f) ||| 0x80)]

def countHigh (units : List UInt16) : Nat := units.countP fun c => 0x80 ≤ c.toNat

/-- `JS_ToCStringLen` of a string. A narrow ASCII one is lent out as it is. -/
def toCStringLen (s : JsString) : Except Thrown (List UInt8) :=
  if s.wide then
    if jsStringLenMax / 3 < s.units.length then .error (.rangeError "string too long")
    else .ok (utf8Units s.units)
  else if countHigh s.units = 0 then .ok (s.units.map fun c => ofNat c.toNat)
  else if jsStringLenMax < s.units.length + countHigh s.units then .error .outOfMemory
  else .ok (utf8Latin1 s.units)

def isCont (b : UInt8) : Bool := 0x80 ≤ b.toNat && b.toNat < 0xc0

def resync (p : List UInt8) : List UInt8 :=
  match p.dropWhile isCont with
  | [] => []
  | _ :: rest => rest.dropWhile isCont

def decodeUnits : Nat → List UInt8 → List UInt16
  | 0, _ => []
  | _ + 1, [] => []
  | fuel + 1, b :: p =>
    if b.toNat < 128 then UInt16.ofNat b.toNat :: decodeUnits fuel p
    else
      match unicodeFromUtf8 (b :: p) with
      | none => 0xfffd :: decodeUnits fuel (resync (b :: p))
      | some (c, next) =>
        if c < 0x10000 then UInt16.ofNat c :: decodeUnits fuel next
        else if c ≤ 0x10FFFF then getHiSurrogate c :: getLoSurrogate c :: decodeUnits fuel next
        else 0xfffd :: decodeUnits fuel (resync (b :: p))

def newStringLen (buf : List UInt8) : JsString where
  units := decodeUnits buf.length buf
  wide := (decodeUnits buf.length buf).any fun c => 256 ≤ c.toNat
  narrow := fun plain c member => by
    rw [any_eq_false] at plain
    simpa using plain c member

section CodePoint

theorem contByte_toNat (c k : Nat) : (contByte c k).toNat = c / 2 ^ k % 64 + 0x80 := by
  have low : ∀ y, y < 64 → (y ||| 0x80) = y + 0x80 := by decide
  have small : c / 2 ^ k % 64 < 64 := mod_lt _ (by decide)
  rw [contByte, show 0x3f = 2 ^ 6 - 1 by rfl, and_two_pow_sub_one_eq_mod, shiftRight_eq_div_pow, low _ small,
    toNat_ofNat', mod_eq_of_lt (by omega)]

theorem lead_toNat (x base : Nat) (joins : (x ||| base) = x + base) (small : x + base < 256) :
    (ofNat (x ||| base)).toNat = x + base := by
  rw [joins, toNat_ofNat', mod_eq_of_lt (by omega)]

theorem shift_or (a y : Nat) (small : y < 64) : (a <<< 6 ||| y) = a * 64 + y := by
  rw [← shiftLeft_add_eq_or_of_lt (small), shiftLeft_eq]

theorem utf8Tail_cont (l a c k : Nat) (p : List UInt8) :
    utf8Tail (l + 1) a (contByte c k :: p) = utf8Tail l (a * 64 + c / 2 ^ k % 64) p := by
  have small : c / 2 ^ k % 64 < 64 := mod_lt _ (by decide)
  have bits : ∀ y, y < 64 → ((y + 0x80) &&& 0x3f) = y := by decide
  rw [utf8Tail, contByte_toNat, if_neg (by omega), bits _ small, shift_or _ _ small]

theorem unicodeFromUtf8_encoded (c : Nat) (low : 0x80 ≤ c) (high : c ≤ 0x10FFFF) (rest : List UInt8) :
    unicodeFromUtf8 (unicodeToUtf8 c ++ rest) = some (c, rest) := by
  rw [unicodeToUtf8, if_neg (by omega)]
  by_cases two : c < 0x800
  · have lead := lead_toNat (c >>> 6) 0xc0
      ((by decide : ∀ x, x < 32 → (x ||| 0xc0) = x + 0xc0) _ (by omega)) (by omega)
    have masked := (by decide : ∀ x, x < 32 → ((x + 0xc0) &&& 0x1f) = x) (c >>> 6) (by omega)
    rw [if_pos two, cons_append, cons_append, nil_append, unicodeFromUtf8, lead, if_neg (by omega),
      utf8Lead, if_pos (by omega)]
    dsimp only
    rw [if_neg (by simp), masked, utf8Tail_cont, utf8Tail, shiftRight_eq_div_pow,
      show c / 2 ^ 6 * 64 + c / 2 ^ 0 % 64 = c by omega]
    exact if_neg (by omega)
  by_cases three : c < 0x10000
  · have lead := lead_toNat (c >>> 12) 0xe0
      ((by decide : ∀ x, x < 16 → (x ||| 0xe0) = x + 0xe0) _ (by omega)) (by omega)
    have masked := (by decide : ∀ x, x < 16 → ((x + 0xe0) &&& 0xf) = x) (c >>> 12) (by omega)
    rw [if_neg two, if_pos three, cons_append, cons_append, cons_append, nil_append,
      unicodeFromUtf8, lead, if_neg (by omega), utf8Lead, if_neg (by omega), if_pos (by omega)]
    dsimp only
    rw [if_neg (by simp), masked, utf8Tail_cont, utf8Tail_cont, utf8Tail, shiftRight_eq_div_pow,
      show (c / 2 ^ 12 * 64 + c / 2 ^ 6 % 64) * 64 + c / 2 ^ 0 % 64 = c by omega]
    exact if_neg (by omega)
  · have lead := lead_toNat (c >>> 18) 0xf0
      ((by decide : ∀ x, x < 8 → (x ||| 0xf0) = x + 0xf0) _ (by omega)) (by omega)
    have masked := (by decide : ∀ x, x < 8 → ((x + 0xf0) &&& 0x7) = x) (c >>> 18) (by omega)
    rw [if_neg two, if_neg three, if_pos (by omega), cons_append, cons_append, cons_append,
      cons_append, nil_append, unicodeFromUtf8, lead, if_neg (by omega), utf8Lead, if_neg (by omega),
      if_neg (by omega), if_pos (by omega)]
    dsimp only
    rw [if_neg (by simp), masked, utf8Tail_cont, utf8Tail_cont, utf8Tail_cont, utf8Tail, shiftRight_eq_div_pow,
      show ((c / 2 ^ 18 * 64 + c / 2 ^ 12 % 64) * 64 + c / 2 ^ 6 % 64) * 64 + c / 2 ^ 0 % 64 = c by omega]
    exact if_neg (by omega)

theorem unicodeToUtf8_high (c : Nat) (low : 0x80 ≤ c) (high : c ≤ 0x10FFFF) :
    2 ≤ (unicodeToUtf8 c).length ∧ ∀ b ∈ unicodeToUtf8 c, 0x80 ≤ b.toNat := by
  have cont : ∀ k, 0x80 ≤ (contByte c k).toNat := fun k => by
    rw [contByte_toNat]
    omega
  have lead : ∀ x base, 0x80 ≤ base → base < 256 → x < 256 → 0x80 ≤ (ofNat (x ||| base)).toNat := by
    intro x base large small fits
    rw [toNat_ofNat', mod_eq_of_lt (or_lt_two_pow fits small)]
    exact le_trans large right_le_or
  rw [unicodeToUtf8, if_neg (by omega)]
  by_cases two : c < 0x800
  · rw [if_pos two, forall_mem_cons, forall_mem_singleton]
    exact ⟨le_rfl, lead (c >>> 6) 0xc0 (by decide) (by decide) (by omega), cont 0⟩
  by_cases three : c < 0x10000
  · rw [if_neg two, if_pos three, forall_mem_cons, forall_mem_cons, forall_mem_singleton]
    exact ⟨Nat.le_add_left _ _, lead (c >>> 12) 0xe0 (by decide) (by decide) (by omega), cont 6, cont 0⟩
  · rw [if_neg two, if_neg three, if_pos (by omega), forall_mem_cons, forall_mem_cons, forall_mem_cons,
      forall_mem_singleton]
    exact ⟨Nat.le_add_left _ _, lead (c >>> 18) 0xf0 (by decide) (by decide) (by omega), cont 12, cont 6, cont 0⟩

end CodePoint

section Units

variable (c : UInt16)

theorem isHiSurrogate_iff : isHiSurrogate c = true ↔ 0xD800 ≤ c.toNat ∧ c.toNat < 0xDC00 := by
  rw [isHiSurrogate, beq_iff_eq, shiftRight_eq_div_pow]
  omega

theorem isLoSurrogate_iff : isLoSurrogate c = true ↔ 0xDC00 ≤ c.toNat ∧ c.toNat < 0xE000 := by
  rw [isLoSurrogate, beq_iff_eq]
  omega

theorem fromSurrogate_bounds {hi lo : UInt16} (one : isHiSurrogate hi = true) (two : isLoSurrogate lo = true) :
    0x10000 ≤ fromSurrogate hi lo ∧ fromSurrogate hi lo ≤ 0x10FFFF := by
  rw [isHiSurrogate_iff] at one
  rw [isLoSurrogate_iff] at two
  unfold fromSurrogate
  omega

theorem surrogates_split {hi lo : UInt16} (one : isHiSurrogate hi = true) (two : isLoSurrogate lo = true) :
    getHiSurrogate (fromSurrogate hi lo) = hi ∧ getLoSurrogate (fromSurrogate hi lo) = lo := by
  rw [isHiSurrogate_iff] at one
  rw [isLoSurrogate_iff] at two
  have ten : ∀ y, y < 2 ^ 10 → (0xDC00 ||| y) = 0xDC00 + y := by
    intro y small
    rw [show 0xDC00 = 55 <<< 10 by decide, shiftLeft_add_eq_or_of_lt small]
  have low : fromSurrogate hi lo % 2 ^ 10 = lo.toNat - 0xDC00 := by
    unfold fromSurrogate
    omega
  have high : fromSurrogate hi lo / 2 ^ 10 - 0x10000 / 2 ^ 10 + 0xD800 = hi.toNat := by
    unfold fromSurrogate
    omega
  constructor
  · rw [getHiSurrogate, shiftRight_eq_div_pow, shiftRight_eq_div_pow, high]
    exact UInt16.ofNat_toNat
  · rw [getLoSurrogate, show 0x3FF = 2 ^ 10 - 1 by rfl, and_two_pow_sub_one_eq_mod, lor_comm,
      ten _ (mod_lt _ (by decide)), low, show 0xDC00 + (lo.toNat - 0xDC00) = lo.toNat by omega]
    exact UInt16.ofNat_toNat

theorem unicodeToUtf8_ascii {c : Nat} (low : c < 0x80) : unicodeToUtf8 c = [ofNat c] := if_pos low

theorem utf8Units_cons {c : UInt16} (single : isHiSurrogate c = false) (l : List UInt16) :
    utf8Units (c :: l) = unicodeToUtf8 c.toNat ++ utf8Units l := by
  cases l with
  | nil => rw [utf8Units, utf8Units, append_nil]
  | cons c1 l => rw [utf8Units, single, Bool.false_and, if_neg Bool.false_ne_true]

theorem ascii_single {a : UInt16} (low : a.toNat < 128) : isHiSurrogate a = false ∧ isLoSurrogate a = false := by
  rw [← Bool.not_eq_true, ← Bool.not_eq_true, isHiSurrogate_iff, isLoSurrogate_iff]
  omega

/-- An ASCII unit separates what stands before it from what stands after it. -/
theorem utf8Units_append_ascii {a : UInt16} (low : a.toNat < 128) (s t : List UInt16) :
    utf8Units (s ++ a :: t) = utf8Units s ++ ofNat a.toNat :: utf8Units t := by
  have front : utf8Units (a :: t) = ofNat a.toNat :: utf8Units t := by
    rw [utf8Units_cons (ascii_single low).1, unicodeToUtf8_ascii low, singleton_append]
  fun_induction utf8Units s with
  | case1 => exact front
  | case2 c =>
    rw [singleton_append, utf8Units, (ascii_single low).2, Bool.and_false, if_neg Bool.false_ne_true, front]
  | case3 c c1 l pair ih =>
    rw [cons_append, cons_append, utf8Units, if_pos pair, ih, append_assoc]
  | case4 c c1 l other ih =>
    rw [cons_append, cons_append, utf8Units, if_neg other, ← cons_append, ih, append_assoc]

def codeUnits (c : Nat) : List UInt16 :=
  if c < 0x10000 then [UInt16.ofNat c] else [getHiSurrogate c, getLoSurrogate c]

theorem decodeUnits_code (fuel : Nat) {c : Nat} (high : c ≤ 0x10FFFF) (rest : List UInt8) :
    decodeUnits (fuel + 1) (unicodeToUtf8 c ++ rest) = codeUnits c ++ decodeUnits fuel rest := by
  by_cases ascii : c < 0x80
  · have byte := toNat_ofNat_of_lt' (show c < 256 by omega)
    rw [unicodeToUtf8_ascii ascii, singleton_append, decodeUnits, byte, if_pos ascii, codeUnits,
      if_pos (by omega), singleton_append]
  · have whole := unicodeFromUtf8_encoded c (by omega) high rest
    obtain ⟨long, above⟩ := unicodeToUtf8_high c (by omega) high
    obtain ⟨b, p, shape⟩ := exists_cons_of_length_pos (show 0 < (unicodeToUtf8 c).length by omega)
    have first := above b (shape ▸ mem_cons_self)
    rw [shape, cons_append] at whole ⊢
    rw [decodeUnits, if_neg (by omega), whole]
    dsimp only
    by_cases plane : c < 0x10000
    · rw [if_pos plane, codeUnits, if_pos plane, singleton_append]
    · rw [if_neg plane, if_pos high, codeUnits, if_neg plane]
      rfl

theorem unit_le : c.toNat ≤ 0x10FFFF := by
  have small : c.toNat < 65536 := c.toNat_lt
  omega

theorem codeUnits_unit : codeUnits c.toNat = [c] := by
  rw [codeUnits, if_pos c.toNat_lt, UInt16.ofNat_toNat]

theorem unicodeToUtf8_pos {c : Nat} (high : c ≤ 0x10FFFF) : 0 < (unicodeToUtf8 c).length := by
  by_cases ascii : c < 0x80
  · rw [unicodeToUtf8_ascii ascii]
    exact one_pos
  · exact lt_of_lt_of_le two_pos (unicodeToUtf8_high c (by omega) high).1

theorem decodeUnits_utf8Units (u : List UInt16) (fuel : Nat) (enough : (utf8Units u).length ≤ fuel) :
    decodeUnits fuel (utf8Units u) = u := by
  fun_induction utf8Units u generalizing fuel with
  | case1 => cases fuel <;> rfl
  | case2 c =>
    have some := unicodeToUtf8_pos (unit_le c)
    obtain ⟨fuel, rfl⟩ : ∃ n, fuel = n + 1 := ⟨fuel - 1, by omega⟩
    have read := decodeUnits_code fuel (unit_le c) []
    rw [append_nil, codeUnits_unit] at read
    rw [read]
    cases fuel <;> rfl
  | case3 c c1 l pair ih =>
    rw [Bool.and_eq_true] at pair
    have high := (fromSurrogate_bounds pair.1 pair.2).2
    have some := unicodeToUtf8_pos high
    rw [length_append] at enough
    obtain ⟨fuel, rfl⟩ : ∃ n, fuel = n + 1 := ⟨fuel - 1, by omega⟩
    rw [decodeUnits_code fuel high, ih fuel (by omega), codeUnits,
      if_neg (by have := (fromSurrogate_bounds pair.1 pair.2).1; omega), (surrogates_split pair.1 pair.2).1,
      (surrogates_split pair.1 pair.2).2]
    rfl
  | case4 c c1 l other ih =>
    have some := unicodeToUtf8_pos (unit_le c)
    rw [length_append] at enough
    obtain ⟨fuel, rfl⟩ : ∃ n, fuel = n + 1 := ⟨fuel - 1, by omega⟩
    rw [decodeUnits_code fuel (unit_le c), ih fuel (by omega), codeUnits_unit, singleton_append]

theorem newStringLen_utf8Units (u : List UInt16) : (newStringLen (utf8Units u)).units = u :=
  decodeUnits_utf8Units u _ le_rfl

theorem ascii_mem_utf8Units {a : UInt8} (low : a.toNat < 128) (u : List UInt16) :
    a ∈ utf8Units u ↔ UInt16.ofNat a.toNat ∈ u := by
  have code : ∀ c, c ≤ 0x10FFFF → (a ∈ unicodeToUtf8 c ↔ c = a.toNat) := by
    intro c high
    by_cases ascii : c < 0x80
    · rw [unicodeToUtf8_ascii ascii, mem_singleton, ← UInt8.toNat_inj, UInt8.toNat_ofNat',
        mod_eq_of_lt (by omega)]
      exact eq_comm
    · refine iff_of_false (fun member => ?_) (by omega)
      have above := (unicodeToUtf8_high c (by omega) high).2 a member
      omega
  have unit : ∀ c, c.toNat = a.toNat ↔ UInt16.ofNat a.toNat = c := by
    intro c
    rw [← UInt16.toNat_inj, UInt16.toNat_ofNat', mod_eq_of_lt (by omega)]
    exact eq_comm
  fun_induction utf8Units u with
  | case1 => simp
  | case2 c => rw [code _ (unit_le c), unit, mem_singleton]
  | case3 c c1 l pair ih =>
    rw [Bool.and_eq_true] at pair
    have bounds := fromSurrogate_bounds pair.1 pair.2
    have tail : a ∈ utf8Units l ↔ UInt16.ofNat a.toNat ∈ l := ih
    rw [mem_append, tail, code _ bounds.2, mem_cons, mem_cons, ← unit, ← unit]
    have hi := (isHiSurrogate_iff c).mp pair.1
    have lo := (isLoSurrogate_iff c1).mp pair.2
    constructor
    · rintro (far | inside)
      · omega
      · exact .inr (.inr inside)
    · rintro (far | far | inside)
      · omega
      · omega
      · exact .inr inside
  | case4 c c1 l other ih =>
    have tail : a ∈ utf8Units (c1 :: l) ↔ UInt16.ofNat a.toNat ∈ c1 :: l := ih
    rw [mem_append, tail, code _ (unit_le c), unit, ← mem_cons]

theorem utf8Units_ascii {u : List UInt16} (low : ∀ c ∈ u, c.toNat < 128) :
    utf8Units u = u.map fun c => ofNat c.toNat := by
  induction u with
  | nil => rfl
  | cons c u ih =>
    have first := low c mem_cons_self
    rw [utf8Units_cons (ascii_single first).1, unicodeToUtf8_ascii first, singleton_append, map_cons,
      ih fun d member => low d (mem_cons_of_mem _ member)]

theorem utf8Latin1_eq {u : List UInt16} (byte : ∀ c ∈ u, c.toNat < 256) : utf8Latin1 u = utf8Units u := by
  induction u with
  | nil => rfl
  | cons c u ih =>
    have first := byte c mem_cons_self
    have single : isHiSurrogate c = false := by
      rw [← Bool.not_eq_true, isHiSurrogate_iff]
      omega
    rw [utf8Units_cons single, ← ih fun d member => byte d (mem_cons_of_mem _ member), utf8Latin1, flatMap_cons]
    congr 1
    by_cases ascii : c.toNat < 0x80
    · rw [if_pos ascii, unicodeToUtf8_ascii ascii]
    · rw [if_neg ascii, unicodeToUtf8, if_neg ascii, if_pos (by omega)]
      rfl

variable {s : JsString} {bytes : List UInt8} (lent : toCStringLen s = .ok bytes)
include lent

theorem toCStringLen_ok : bytes = utf8Units s.units := by
  rw [toCStringLen] at lent
  cases wide : s.wide with
  | true =>
    rw [wide, if_pos rfl] at lent
    split at lent
    · contradiction
    · exact (Except.ok.inj lent).symm
  | false =>
    rw [wide, if_neg Bool.false_ne_true] at lent
    split at lent
    case isTrue none =>
      rw [countHigh, countP_eq_zero] at none
      rw [← Except.ok.inj lent, utf8Units_ascii]
      intro c member
      simpa using none c member
    case isFalse =>
      split at lent
      · contradiction
      · rw [← Except.ok.inj lent, utf8Latin1_eq (s.narrow wide)]

theorem newStringLen_toCStringLen : (newStringLen bytes).units = s.units := by
  rw [toCStringLen_ok lent, newStringLen_utf8Units]

end Units

end DynaJS.Engine
