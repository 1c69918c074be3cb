import DynaJS.Engine.Strings
import DynaJS.Lib.Radix

/-! Base58 and BaseX of `dyna-basex.inc.c`. The scratch buffer of both loops is read from
its end, so its used part is the list of digits with the least first. -/
namespace DynaJS.Codec

open DynaJS.Radix List Except UInt8 Nat

inductive BxErr where
  | alphabet | limit | oom | character | short | checksum
deriving DecidableEq

def bxMaxInput : Nat := 4096

def bxB58 : List UInt8 :=
  [49, 50, 51, 52, 53, 54, 55, 56, 57, 65, 66, 67, 68, 69, 70, 71, 72, 74, 75, 76, 77, 78, 80, 81, 82, 83, 84, 85, 86,
    87, 88, 89, 90, 97, 98, 99, 100, 101, 102, 103, 104, 105, 106, 107, 109, 110, 111, 112, 113, 114, 115, 116, 117,
    118, 119, 120, 121, 122]

/-- The loop of `bx_index_table`; `none` in the table is `-1`. -/
def bxIndexLoop : List UInt8 → Nat → (UInt8 → Option Nat) → Option (UInt8 → Option Nat)
  | [], _, idx => some idx
  | c :: l, i, idx => if (idx c).isSome then none else bxIndexLoop l (i + 1) (Function.update idx c (some i))

def bxIndexTable (alpha : List UInt8) : Option (UInt8 → Option Nat) :=
  if alpha.length < 2 ∨ 255 < alpha.length then none else bxIndexLoop alpha 0 fun _ => none

def bxLog2Loop (base : Nat) : Nat → Nat → Nat
  | 0, b => b
  | fuel + 1, b => if 2 ^ (b + 1) ≤ base then bxLog2Loop base fuel (b + 1) else b

def bxLog2Floor (base : Nat) : Nat :=
  let b := bxLog2Loop base 31 0
  if b ≠ 0 then b else 1

/-- What the allocator answers: for the scratch buffer and for the result. -/
structure BxMem where
  buf : Bool
  res : Bool

def bxEncode (src alpha : List UInt8) (base : Nat) (mem : BxMem) : Except BxErr (List UInt8) :=
  let zeros := (src.takeWhile (· == 0)).length
  let size := (src.length - zeros) * 8 / bxLog2Floor base + 1
  if ¬ mem.buf then .error .oom
  else
    match (src.drop zeros).foldlM (fun ds c => mulAdd 256 base size ds c.toNat) [] with
    | none => .error .oom
    | some ds =>
      if ¬ mem.res then .error .oom
      else .ok (List.replicate zeros (alpha.getD 0 0) ++ ds.reverse.map (alpha.getD · 0))

/-- The character of digit zero, as `bx_decode` looks for it. -/
def bxZero (idx : UInt8 → Option Nat) : UInt8 :=
  match (List.range 256).find? fun i : Nat => idx (ofNat i) == some 0 with
  | some i => ofNat i
  | none => 0

def bxDecodeLoop (idx : UInt8 → Option Nat) (base size : Nat) : List UInt8 → List Nat → Except BxErr (List Nat)
  | [], ds => .ok ds
  | c :: l, ds =>
    match idx c with
    | none => .error .character
    | some d =>
      match mulAdd base 256 size ds d with
      | none => .error .oom
      | some ds => bxDecodeLoop idx base size l ds

def bxDecode (src : List UInt8) (idx : UInt8 → Option Nat) (base : Nat) (mem : BxMem) : Except BxErr (List UInt8) :=
  let zeros := (src.takeWhile (· == bxZero idx)).length
  let size := (src.length - zeros) * (bxLog2Floor base + 1) / 8 + 1
  if ¬ mem.buf then .error .oom
  else
    match bxDecodeLoop idx base size (src.drop zeros) [] with
    | .error e => .error e
    | .ok ds =>
      if ¬ mem.res then .error .oom
      else .ok (List.replicate zeros 0 ++ ds.reverse.map ofNat)

def basexEncode (data alpha : List UInt8) (mem : BxMem) : Except BxErr (List UInt8) :=
  match bxIndexTable alpha with
  | none => .error .alphabet
  | some _ => if bxMaxInput < data.length then .error .limit else bxEncode data alpha alpha.length mem

def basexDecode (s alpha : List UInt8) (mem : BxMem) : Except BxErr (List UInt8) :=
  match bxIndexTable alpha with
  | none => .error .alphabet
  | some idx => if bxMaxInput < s.length then .error .limit else bxDecode s idx alpha.length mem

def b58Encode (data : List UInt8) (mem : BxMem) : Except BxErr (List UInt8) := basexEncode data bxB58 mem

def b58Decode (s : List UInt8) (mem : BxMem) : Except BxErr (List UInt8) := basexDecode s bxB58 mem

variable (sha256 : List UInt8 → List UInt8)

def checksum (data : List UInt8) : List UInt8 := (sha256 (sha256 data)).take 4

/-- `Base58CheckEncode`; `payload` is the answer to its own allocation. -/
def b58CheckEncode (data : List UInt8) (payload : Bool) (mem : BxMem) : Except BxErr (List UInt8) :=
  if bxMaxInput < data.length then .error .limit
  else if ¬ payload then .error .oom
  else bxEncode (data ++ checksum sha256 data) bxB58 58 mem

def b58CheckDecode (s : List UInt8) (mem : BxMem) : Except BxErr (List UInt8) :=
  match b58Decode s mem with
  | .error e => .error e
  | .ok out =>
    if out.length < 4 then .error .short
    else if checksum sha256 (out.take (out.length - 4)) ≠ out.drop (out.length - 4) then .error .checksum
    else .ok (out.take (out.length - 4))

/-! ### The alphabet -/

section Alphabet

variable {alpha : List UInt8} {idx : UInt8 → Option Nat}

theorem bxIndexLoop_spec {l : List UInt8} {i : Nat} {idx idx' : UInt8 → Option Nat}
    (accepted : bxIndexLoop l i idx = some idx') (c : UInt8) (d : Nat) :
    idx' c = some d ↔ idx c = some d ∨ ∃ k, d = i + k ∧ l[k]? = some c := by
  induction l generalizing i idx with
  | nil =>
    cases Option.some.inj accepted
    simp
  | cons x l ih =>
    rw [bxIndexLoop] at accepted
    split_ifs at accepted with twice
    have free : idx x = none := by simpa using twice
    -- position `i` is the new entry, the positions after it are those of the tail
    have positions : (∃ k, d = i + k ∧ (x :: l)[k]? = some c) ↔
        (d = i ∧ x = c) ∨ ∃ k, d = i + 1 + k ∧ l[k]? = some c := by
      rw [← or_exists_add_one]
      simp [add_right_comm, add_assoc]
    rw [ih accepted, positions]
    by_cases here : c = x
    · subst here
      rw [free]
      simp [eq_comm]
    · rw [Function.update_of_ne here]
      simp [Ne.symm here]

theorem bxIndexTable_spec (accepted : bxIndexTable alpha = some idx) :
    2 ≤ alpha.length ∧ alpha.length ≤ 255 ∧ ∀ c d, idx c = some d ↔ alpha[d]? = some c := by
  unfold bxIndexTable at accepted
  split_ifs at accepted with size
  refine ⟨by omega, by omega, fun c d => ?_⟩
  rw [bxIndexLoop_spec accepted c d]
  simp

section

variable (table : ∀ c d, idx c = some d ↔ alpha[d]? = some c)
include table

theorem idx_digit {d : Nat} (hd : d < alpha.length) : idx (alpha.getD d 0) = some d := by
  rw [table, getD_eq_getElem?_getD, getElem?_eq_getElem hd]
  rfl

theorem idx_char {c : UInt8} {d : Nat} (found : idx c = some d) : alpha.getD d 0 = c ∧ d < alpha.length := by
  have there := (table c d).mp found
  exact ⟨by rw [getD_eq_getElem?_getD, there]; rfl, (List.getElem?_eq_some_iff.mp there).1⟩

theorem bxZero_eq (pos : 0 < alpha.length) : bxZero idx = alpha.getD 0 0 := by
  unfold bxZero
  cases found : (List.range 256).find? fun i => idx (ofNat i) == some 0 with
  | some i =>
    have hit := find?_some found
    exact (idx_char table (by simpa using hit)).1.symm
  | none =>
    have all := find?_eq_none.mp found (alpha.getD 0 0).toNat (mem_range.mpr (UInt8.toNat_lt _))
    rw [UInt8.ofNat_toNat, idx_digit table pos] at all
    simp at all

end

theorem bxLog2Floor_spec : ∀ base, base < 256 → 2 ≤ base →
    0 < bxLog2Floor base ∧ 2 ^ bxLog2Floor base ≤ base ∧ base < 2 ^ (bxLog2Floor base + 1) := by
  decide +kernel

end Alphabet

/-! ### The two loops -/

section Loops

theorem drop_takeWhile {α : Type} (p : α → Bool) (l : List α) : l.drop (l.takeWhile p).length = l.dropWhile p := by
  induction l with
  | nil => rfl
  | cons x l ih =>
    rw [takeWhile_cons, dropWhile_cons]
    cases p x with
    | false => rfl
    | true => exact ih

variable {m b : Nat}

theorem mulAdd_all (hb : 1 < b) (hm : 0 < m) (room : Nat) (done l : List Nat)
    (fits : (digits b (value m (done ++ l))).length ≤ room) :
    l.foldlM (fun ds d => mulAdd m b room ds d) (digits b (value m done)) =
      some (digits b (value m (done ++ l))) := by
  induction l generalizing done with
  | nil =>
    rw [append_nil]
    rfl
  | cons d l ih =>
    have more : done ++ d :: l = done ++ [d] ++ l := by simp
    have next : (digits b (m * value m done + d)).length ≤ room := by
      refine (le_length_digits_le b _ _ ?_).trans fits
      rw [← value_append, more]
      exact value_le_append hm _ _
    rw [foldlM_cons, mulAdd_digits hb hm room _ _ next, ← value_append, more]
    exact ih _ (by rwa [← more])

theorem bits_fit {k n : Nat} {l : List Nat} (hm : 1 < m) (below : ∀ d ∈ l, d < m) (wide : m ≤ 2 ^ k)
    (hb : 1 < b) {j : Nat} (hj : 0 < j) (base : 2 ^ j ≤ b) (length : l.length ≤ n) :
    (digits b (value m l)).length ≤ n * k / j + 1 := by
  refine digits_length_le hb hj base ((value_lt hm below).trans_le ?_)
  rw [Nat.mul_comm, Nat.pow_mul]
  exact (Nat.pow_le_pow_left wide _).trans (Nat.pow_le_pow_right (Nat.two_pow_pos k) length)

theorem byte_below {src : List UInt8} : ∀ d ∈ src.map toNat, d < 256 := by
  intro d member
  obtain ⟨c, -, rfl⟩ := mem_map.mp member
  exact toNat_lt c

theorem byte_zero (c : UInt8) : (c == 0) = (c.toNat == 0) := by
  rw [Bool.eq_iff_iff, beq_iff_eq, beq_iff_eq]
  exact (UInt8.toNat_inj).symm

theorem bxEncode_spec (src alpha : List UInt8) {base : Nat} (low : 2 ≤ base) (high : base ≤ 255) :
    bxEncode src alpha base ⟨true, true⟩ = .ok ((recode 256 base (src.map toNat)).map (alpha.getD · 0)) := by
  obtain ⟨pos, wide, -⟩ := bxLog2Floor_spec base (by omega) low
  have length : ((src.dropWhile (· == 0)).map toNat).length = src.length - (src.takeWhile (· == 0)).length := by
    rw [length_map, ← drop_takeWhile, length_drop]
  have all := mulAdd_all (by omega) (by decide)
    ((src.length - (src.takeWhile (· == 0)).length) * 8 / bxLog2Floor base + 1) []
    ((src.dropWhile (· == 0)).map toNat)
    (bits_fit (by decide) byte_below (by decide) (by omega) pos wide length.le)
  rw [nil_append, value, foldl_nil, digits_zero, foldlM_map] at all
  unfold bxEncode
  rw [if_neg (by decide), drop_takeWhile, all]
  dsimp only
  rw [if_neg (by decide), recode_map fun c _ => byte_zero c, map_append, map_replicate]

variable {alpha : List UInt8} {idx : UInt8 → Option Nat}

/-- The digit of a character, zero for one that is not in the alphabet. -/
def digitOf (idx : UInt8 → Option Nat) (c : UInt8) : Nat := (idx c).getD 0

section

variable (table : ∀ c d, idx c = some d ↔ alpha[d]? = some c)
include table

theorem digitOf_below {s : List UInt8} (pos : 0 < alpha.length) : ∀ d ∈ s.map (digitOf idx), d < alpha.length := by
  intro d member
  obtain ⟨c, -, rfl⟩ := mem_map.mp member
  cases found : idx c with
  | none => rwa [digitOf, found]
  | some d =>
    rw [digitOf, found]
    exact (idx_char table found).2

theorem bxDecodeLoop_eq (low : 2 ≤ alpha.length) (high : alpha.length ≤ 255) (size : Nat) (done l : List UInt8)
    (room : (done.length + l.length) * (bxLog2Floor alpha.length + 1) / 8 + 1 ≤ size) :
    bxDecodeLoop idx alpha.length size l (digits 256 (value alpha.length (done.map (digitOf idx)))) =
      if l.all fun c => (idx c).isSome then .ok (digits 256 (value alpha.length ((done ++ l).map (digitOf idx))))
      else .error .character := by
  obtain ⟨-, -, wide⟩ := bxLog2Floor_spec alpha.length (by omega) low
  induction l generalizing done with
  | nil =>
    rw [append_nil]
    rfl
  | cons c l ih =>
    rw [bxDecodeLoop]
    cases found : idx c with
    | none => simp [found]
    | some d =>
      have digit : digitOf idx c = d := by rw [digitOf, found]; rfl
      have next : alpha.length * value alpha.length (done.map (digitOf idx)) + d =
          value alpha.length ((done ++ [c]).map (digitOf idx)) := by
        rw [map_append, map_singleton, value_append, digit]
      have fits := bits_fit (by omega) (digitOf_below (s := done ++ [c]) table (by omega)) wide.le
        (by decide : 1 < 256) (by decide : 0 < 8) (by decide) (n := done.length + (c :: l).length) (by simp)
      have step := mulAdd_digits (by decide : 1 < 256) (by omega : 0 < alpha.length) size
        (value alpha.length (done.map (digitOf idx))) d (by rw [next]; exact fits.trans room)
      rw [length_cons, ← add_assoc, add_right_comm] at room
      have rest := ih (done ++ [c]) (by rwa [length_append])
      dsimp only
      rw [step, next, all_cons, found]
      rwa [append_assoc] at rest

/-- Text of the alphabet is read as a number, and a foreign character is all that is refused. -/
theorem bxDecode_eq (low : 2 ≤ alpha.length) (high : alpha.length ≤ 255) (s : List UInt8) :
    bxDecode s idx alpha.length ⟨true, true⟩ =
      if s.all fun c => (idx c).isSome then .ok ((recode alpha.length 256 (s.map (digitOf idx))).map ofNat)
      else .error .character := by
  have zero := bxZero_eq table (by omega)
  have first := idx_digit table (by omega : 0 < alpha.length)
  have loop := bxDecodeLoop_eq table low high ((s.length - (s.takeWhile (· == bxZero idx)).length) *
    (bxLog2Floor alpha.length + 1) / 8 + 1) [] (s.dropWhile (· == bxZero idx))
    (by rw [← drop_takeWhile, length_drop, length_nil, zero_add])
  have known : (s.all fun c => (idx c).isSome) = (s.dropWhile (· == bxZero idx)).all fun c => (idx c).isSome := by
    conv_lhs => rw [← takeWhile_append_dropWhile (p := (· == bxZero idx)) (l := s), all_append]
    refine (congrArg (· && _) (all_eq_true.mpr fun c member => ?_)).trans (Bool.true_and _)
    have here : c = bxZero idx := by simpa using mem_takeWhile_imp member
    rw [here, zero, first]
    rfl
  rw [map_nil, value, foldl_nil, digits_zero, nil_append] at loop
  unfold bxDecode
  rw [if_neg (by decide), drop_takeWhile, loop, ← known]
  by_cases all : (s.all fun c => (idx c).isSome) = true
  · rw [if_pos all, if_pos all]
    dsimp only
    rw [if_neg (by decide), recode_map fun c member => ?_, map_append, map_replicate]
    · rfl
    · obtain ⟨d, found⟩ := Option.isSome_iff_exists.mp (all_eq_true.mp all c member)
      obtain ⟨char, below⟩ := idx_char table found
      rw [Bool.eq_iff_iff, beq_iff_eq, beq_iff_eq, digitOf, found, zero]
      refine ⟨fun same => ?_, fun same => ?_⟩
      · rw [same, first] at found
        exact (Option.some.inj found).symm
      · rw [← char]
        exact congrArg (alpha.getD · 0) same
  · rw [if_neg all, if_neg all]

theorem char_digitOf {s : List UInt8} (known : s.all fun c => (idx c).isSome) :
    (s.map (digitOf idx)).map (alpha.getD · 0) = s := by
  rw [map_map]
  refine (map_congr_left fun c member => ?_).trans (map_id _)
  obtain ⟨d, found⟩ := Option.isSome_iff_exists.mp (all_eq_true.mp known c member)
  rw [Function.comp, digitOf, found]
  exact (idx_char table found).1

theorem digitOf_char {digits : List Nat} (below : ∀ d ∈ digits, d < alpha.length) :
    ((digits.map (alpha.getD · 0)).map (digitOf idx)) = digits ∧
      (digits.map (alpha.getD · 0)).all fun c => (idx c).isSome := by
  have digit := fun d member => idx_digit table (below d member)
  constructor
  · rw [map_map]
    refine (map_congr_left fun d member => ?_).trans (map_id _)
    rw [Function.comp, digitOf, digit d member]
    rfl
  · rw [all_map]
    exact all_eq_true.mpr fun d member => by rw [Function.comp, digit d member]; rfl

end

end Loops

/-! ### Round trips -/

section RoundTrip

variable {alpha : List UInt8} {idx : UInt8 → Option Nat} {mem : BxMem}

variable {src alpha out : List UInt8}

theorem bxEncode_ok {base : Nat} (ok : bxEncode src alpha base mem = .ok out) :
    bxEncode src alpha base ⟨true, true⟩ = .ok out := by
  unfold bxEncode at ok ⊢
  dsimp only at ok ⊢
  split_ifs at ok with buf res
  · exact ok
  · split at ok <;> contradiction

theorem bxDecode_iff (accepted : bxIndexTable alpha = some idx) {s : List UInt8}
    (encoded : bxEncode src alpha alpha.length ⟨true, true⟩ = .ok out) :
    bxDecode s idx alpha.length ⟨true, true⟩ = .ok src ↔ s = out := by
  obtain ⟨low, high, table⟩ := bxIndexTable_spec accepted
  rw [bxEncode_spec src alpha low high, ok.injEq] at encoded
  subst encoded
  rw [bxDecode_eq table low high]
  constructor
  · intro decoded
    split at decoded
    · rename_i known
      rw [ok.injEq] at decoded
      have bytes : src.map toNat = recode alpha.length 256 (s.map (digitOf idx)) := by
        rw [← decoded, map_map]
        refine (map_congr_left fun d member => ?_).trans (map_id _)
        exact toNat_ofNat_of_lt (recode_lt (by decide) member)
      rw [bytes, recode_recode (by omega) (digitOf_below table (by omega)), char_digitOf table known]
    · contradiction
  · rintro rfl
    obtain ⟨digits, known⟩ := digitOf_char table fun d member =>
      recode_lt (by omega) member
    rw [if_pos known, digits, recode_recode (by decide) byte_below, map_map]
    congr 1
    exact (map_congr_left fun c _ => UInt8.ofNat_toNat).trans (map_id _)

/-- The bytes that the decoder reads from the string that the encoder returned:
`JS_NewStringLen`, then `JS_ToCStringLen`. Both keep ASCII bytes. -/
structure JsText where
  back : List UInt8 → List UInt8
  ascii : ∀ l : List UInt8, (∀ c ∈ l, c < 128) → back l = l

/-- The engine's own. -/
def engineText : JsText where
  back l := Engine.utf8Units (Engine.newStringLen l).units
  ascii l low := by
    have units : Engine.utf8Units (l.map UInt8.toUInt16) = l := by
      rw [Engine.utf8Units_ascii (by simpa [lt_iff_toNat_lt] using low), map_map]
      exact (map_congr_left fun c _ => c.toUInt8_toUInt16).trans (map_id l)
    nth_rewrite 1 [← units]
    rw [Engine.newStringLen_utf8Units, units]

/-- How many characters some bytes need: one for each leading zero, and the digits of the
rest. -/
def bxTextLength (base : Nat) (src : List UInt8) : Nat :=
  (src.takeWhile (· == 0)).length + (digits base (value 256 ((src.dropWhile (· == 0)).map toNat))).length

theorem bxEncode_length {base : Nat} (low : 2 ≤ base) (high : base ≤ 255)
    (encoded : bxEncode src alpha base mem = .ok out) : out.length = bxTextLength base src := by
  have spec := bxEncode_ok encoded
  rw [bxEncode_spec src alpha low high, ok.injEq] at spec
  rw [← spec, length_map, recode_map fun c _ => byte_zero c, length_append, length_reverse, length_replicate]
  rfl

theorem basexDecode_iff {data : List UInt8} (js : JsText) (encoded : basexEncode data alpha mem = .ok out) :
    basexDecode (js.back out) alpha ⟨true, true⟩ = .ok data ↔
      js.back out = out ∧ bxTextLength alpha.length data ≤ bxMaxInput := by
  unfold basexEncode at encoded
  unfold basexDecode
  cases table : bxIndexTable alpha with
  | none =>
    rw [table] at encoded
    contradiction
  | some idx =>
    rw [table] at encoded
    split_ifs at encoded with large
    obtain ⟨low, high, -⟩ := bxIndexTable_spec table
    rw [← bxEncode_length low high encoded]
    have exact := bxDecode_iff table (s := js.back out) (bxEncode_ok encoded)
    split_ifs with long
    · refine iff_of_false (fun impossible => by contradiction) fun both => ?_
      rw [both.1] at long
      omega
    · rw [exact]
      refine ⟨fun same => ⟨same, ?_⟩, fun both => both.1⟩
      rw [same] at long
      omega

theorem b58_accepted : ∃ idx, bxIndexTable bxB58 = some idx := by
  refine Option.isSome_iff_exists.mp ?_
  decide +kernel

theorem bxEncode_ascii (encoded : bxEncode src bxB58 58 mem = .ok out) : ∀ c ∈ out, c < 128 := by
  have spec := bxEncode_ok encoded
  rw [bxEncode_spec src bxB58 (by decide) (by decide), ok.injEq] at spec
  rw [← spec]
  intro c member
  obtain ⟨d, there, rfl⟩ := mem_map.mp member
  have small : ∀ d, d < 58 → bxB58.getD d 0 < 128 := by decide
  exact small d (recode_lt (by decide) there)

end RoundTrip

theorem b58CheckDecode_iff (long : ∀ l, 4 ≤ (sha256 l).length) (s data : List UInt8) (mem : BxMem) :
    b58CheckDecode sha256 s mem = .ok data ↔ b58Decode s mem = .ok (data ++ checksum sha256 data) := by
  have four : (checksum sha256 data).length = 4 := by
    rw [checksum, length_take]
    have := long (sha256 data)
    omega
  unfold b58CheckDecode
  cases decoded : b58Decode s mem with
  | error e => exact iff_of_false (fun impossible => by contradiction) fun impossible => by contradiction
  | ok r =>
    dsimp only
    rw [ok.injEq]
    constructor
    · intro ran
      split_ifs at ran with short wrong
      rw [← ok.inj ran, not_not.mp wrong]
      exact (take_append_drop _ r).symm
    · rintro rfl
      rw [length_append, four, Nat.add_sub_cancel, take_left, drop_left, if_neg (by omega), if_neg (not_not.mpr rfl)]

/-- The decoder that belongs to an encoder gives back the bytes exactly if the text survives
being a string and is within the limit that the decoder puts on characters. -/
theorem basex_round_trip_iff (js : JsText) (sha256 : List UInt8 → List UInt8) (long : ∀ l, 4 ≤ (sha256 l).length)
    (data out : List UInt8) :
    (∀ alpha mem, basexEncode data alpha mem = .ok out → (basexDecode (js.back out) alpha ⟨true, true⟩ = .ok data ↔
        js.back out = out ∧ bxTextLength alpha.length data ≤ bxMaxInput)) ∧
    (∀ mem, b58Encode data mem = .ok out →
      (b58Decode (js.back out) ⟨true, true⟩ = .ok data ↔ bxTextLength 58 data ≤ bxMaxInput)) ∧
    (∀ payload mem, b58CheckEncode sha256 data payload mem = .ok out →
      (b58CheckDecode sha256 (js.back out) ⟨true, true⟩ = .ok data ↔
        bxTextLength 58 (data ++ checksum sha256 data) ≤ bxMaxInput)) := by
  obtain ⟨idx, accepted⟩ := b58_accepted
  refine ⟨fun alpha mem encoded => basexDecode_iff js encoded, fun mem encoded => ?_, fun payload mem encoded => ?_⟩
  · rw [b58Decode, basexDecode_iff js encoded]
    refine and_iff_right (js.ascii out ?_)
    rw [b58Encode, basexEncode, accepted] at encoded
    dsimp only at encoded
    split at encoded
    · contradiction
    · exact bxEncode_ascii encoded
  · rw [b58CheckEncode] at encoded
    split at encoded
    · contradiction
    split at encoded
    · contradiction
    have plain := js.ascii out (bxEncode_ascii encoded)
    rw [b58CheckDecode_iff sha256 long, b58Decode, basexDecode, accepted, plain,
      ← bxEncode_length (by decide) (by decide) encoded]
    have exact := bxDecode_iff accepted (s := out) (bxEncode_ok encoded)
    split_ifs with large
    · exact iff_of_false (fun impossible => by contradiction) (by omega)
    · exact iff_of_true (exact.mpr rfl) (by omega)

/-- The bytes 0 and 2 in base 2, through the strings of the engine. -/
theorem basex_round_trip_bits : basexDecode (engineText.back [48, 49, 48]) [48, 49] ⟨true, true⟩ = .ok [0, 2] :=
  ((basex_round_trip_iff engineText (fun _ => List.replicate 32 0) (fun _ => by rw [length_replicate]; decide)
    [0, 2] [48, 49, 48]).1 [48, 49] ⟨true, true⟩ (by decide +kernel)).mpr
      ⟨engineText.ascii _ (by decide +kernel), by decide +kernel⟩

/-- Of 4096 bytes the last takes eight characters, which is past the limit. -/
theorem long_text_undecodable :
    ∃ out, basexEncode (List.replicate 4095 0 ++ [255]) [48, 49] ⟨true, true⟩ = .ok out ∧ out.length = 4103 ∧
      basexDecode out [48, 49] ⟨true, true⟩ = .error .limit := by
  obtain ⟨idx, accepted⟩ : ∃ idx, bxIndexTable [48, 49] = some idx := Option.isSome_iff_exists.mp (by decide +kernel)
  have size : (List.replicate 4095 0 ++ [255] : List UInt8).length = 4096 := by
    rw [length_append, length_replicate]
    rfl
  have encoded := bxEncode_spec (List.replicate 4095 0 ++ [255]) [48, 49] (by decide : 2 ≤ 2) (by decide)
  have length : ((recode 256 2 ((List.replicate 4095 0 ++ [255] : List UInt8).map toNat)).map
      (List.getD [48, 49] · (0 : UInt8))).length = 4103 := by
    have digits : (digits 2 (value 256 [255])).length = 8 := by simp [value]
    have zero : toNat 0 = 0 := rfl
    rw [length_map, map_append, map_replicate, map_singleton, zero,
      show toNat 255 = 255 from rfl, recode_zeros 4095 (by decide), length_append, length_replicate,
      length_reverse, digits]
  refine ⟨_, ?_, length, ?_⟩
  · rw [basexEncode, accepted]
    rw [size, if_neg (by decide)]
    exact encoded
  · rw [basexDecode, accepted]
    dsimp only
    rw [length, if_pos (by decide)]

/-! ### Into the view of a caller -/

inductive IntoErr where
  | limit | room | overlaps | oom

def b58eFold (dcap : Nat) (d : List Nat) (b : UInt8) : Option (List Nat) := mulAdd 256 58 dcap d b.toNat

def intoNeed (payload : Nat) : Nat := if payload ≠ 0 then payload * 8 / 5 + 1 else 0

/-- The zeros that `dyn_b58_encode_into` counts, past the data if that is all zeros. -/
def intoZeros (check : Bool) (data cks : List UInt8) : Nat :=
  let zeros := (data.takeWhile (· == 0)).length
  if check ∧ zeros = data.length then zeros + (cks.takeWhile (· == 0)).length else zeros

/-- `dyn_b58_encode_into` with `check` for its `magic`: what it writes into a view of `on` bytes. -/
def b58EncodeInto (check : Bool) (data : List UInt8) (on : Nat) (overlaps : Bool) : Except IntoErr (List UInt8) :=
  let need := intoNeed (if check then data.length + 4 else data.length)
  let cks := if check then checksum sha256 data else []
  let zeros := intoZeros check data cks
  if bxMaxInput < data.length then .error .limit
  else if on < need then .error .room
  else if overlaps then .error .overlaps
  else
    match (data.drop zeros ++ cks).foldlM (b58eFold (need - zeros)) [] with
    | none => .error .oom
    | some ds => .ok (List.replicate zeros (bxB58.getD 0 0) ++ ds.toArray.reverse.toList.map (bxB58.getD · 0))

theorem zeros_before {l : List UInt8} : ∀ d ∈ (l.takeWhile (· == 0)).map toNat, d = 0 := by
  intro d member
  obtain ⟨c, there, rfl⟩ := mem_map.mp member
  have zero : c = 0 := by simpa using mem_takeWhile_imp there
  rw [zero]
  rfl

/-- Bytes in front of which zeros have been counted, with a checksum of which zeros may have been counted too. -/
theorem fold_into {data cks : List UInt8} {payload zeros : Nat} (size : (data ++ cks).length ≤ payload)
    (counted : zeros = ((data ++ cks).takeWhile (· == 0)).length) :
    (data.drop zeros ++ cks).foldlM (b58eFold (intoNeed payload - zeros)) [] =
      some (digits 58 (value 256 (((data ++ cks).dropWhile (· == 0)).map toNat))) := by
  have front : ∀ d ∈ (data.take zeros).map toNat, d = 0 := by
    intro d member
    have cut : (data ++ cks).take zeros = (data ++ cks).takeWhile (· == 0) := by
      rw [counted]
      exact (prefix_iff_eq_take.mp ( takeWhile_prefix _)).symm
    rw [take_append] at cut
    refine zeros_before (l := data ++ cks) d ?_
    rw [← cut, map_append]
    exact mem_append_left _ member
  have same : value 256 ((data.drop zeros ++ cks).map toNat) =
      value 256 (((data ++ cks).dropWhile (· == 0)).map toNat) := by
    rw [← value_zeros front, ← map_append, ← append_assoc, take_append_drop,
      ← takeWhile_append_dropWhile (l := data ++ cks), map_append, value_zeros zeros_before,
      takeWhile_append_dropWhile]
  have fits : (digits 58 (value 256 ((data.drop zeros ++ cks).map toNat))).length ≤ intoNeed payload - zeros := by
    rw [same, intoNeed]
    by_cases none : payload = 0
    · have empty := length_eq_zero_iff.mp (le_zero.mp (none ▸ size))
      simp [empty, value]
    · have wide := bits_fit (n := (data ++ cks).length - zeros) (by decide) byte_below (by decide : 256 ≤ 2 ^ 8)
        (by decide : 1 < 58) (by decide : 0 < 5) (by decide)
        (l := ((data ++ cks).dropWhile (· == 0)).map toNat)
        (by rw [length_map, ← drop_takeWhile, length_drop, counted])
      have inside : zeros ≤ (data ++ cks).length := counted ▸ (takeWhile_sublist _).length_le
      rw [if_pos none]
      omega
  have all := mulAdd_all (by decide) (by decide) _ [] _ fits
  rw [nil_append, value, foldl_nil, digits_zero, foldlM_map] at all
  rwa [same] at all

theorem b58EncodeInto_eq (check : Bool) {data : List UInt8} {on : Nat} (few : data.length ≤ bxMaxInput)
    (room : intoNeed (if check then data.length + 4 else data.length) ≤ on) :
    b58EncodeInto sha256 check data on false =
      .ok ((recode 256 58 ((data ++ if check then checksum sha256 data else []).map toNat)).map (bxB58.getD · 0)) := by
  have size : (data ++ if check then checksum sha256 data else []).length ≤
      if check then data.length + 4 else data.length := by
    cases check <;> simp [checksum]
  have counted : intoZeros check data (if check then checksum sha256 data else []) =
      ((data ++ if check then checksum sha256 data else []).takeWhile (· == 0)).length := by
    cases check with
    | false => simp [intoZeros]
    | true =>
      rw [intoZeros, takeWhile_append]
      split <;> simp_all
  unfold b58EncodeInto
  rw [if_neg few.not_gt, if_neg room.not_gt, if_neg Bool.false_ne_true, fold_into size counted, counted,
    recode_map fun c _ => byte_zero c, map_append, map_replicate]
  dsimp only
  rw [Array.toList_reverse]

theorem bxIndexLoop_accepts {l : List UInt8} (distinct : l.Nodup) {i : Nat} {idx : UInt8 → Option Nat}
    (free : ∀ c ∈ l, idx c = none) : ∃ idx', bxIndexLoop l i idx = some idx' := by
  induction l generalizing i idx with
  | nil => exact ⟨idx, rfl⟩
  | cons x l ih =>
    obtain ⟨other, rest⟩ := nodup_cons.mp distinct
    rw [bxIndexLoop, free x (mem_cons_self ..)]
    refine ih rest fun c member => ?_
    have differ : c ≠ x := fun same => other (same ▸ member)
    rw [Function.update_of_ne differ]
    exact free c (mem_cons_of_mem _ member)

/-- Both directions undo each other for every alphabet, no scratch buffer is too short, and the encoder that
works in place writes what `bx_encode` returns. -/
theorem basex_is_bijection (sha256 : List UInt8 → List UInt8) (alpha : List UInt8) (low : 2 ≤ alpha.length)
    (high : alpha.length ≤ 255) (distinct : alpha.Nodup) :
    ∃ idx, bxIndexTable alpha = some idx ∧
      (∀ x, ∃ s, bxEncode x alpha alpha.length ⟨true, true⟩ = .ok s ∧
        bxDecode s idx alpha.length ⟨true, true⟩ = .ok x) ∧
      (∀ s, (∀ c ∈ s, c ∈ alpha) → ∃ x, bxDecode s idx alpha.length ⟨true, true⟩ = .ok x ∧
        bxEncode x alpha alpha.length ⟨true, true⟩ = .ok s) ∧
      (∀ s, bxDecode s idx alpha.length ⟨true, true⟩ ≠ .error .oom) ∧
      ∀ check data on, data.length ≤ bxMaxInput → intoNeed (if check then data.length + 4 else data.length) ≤ on →
        ∃ s, bxEncode (data ++ if check then checksum sha256 data else []) bxB58 58 ⟨true, true⟩ = .ok s ∧
          b58EncodeInto sha256 check data on false = .ok s := by
  obtain ⟨idx, accepted⟩ : ∃ idx, bxIndexTable alpha = some idx := by
    rw [bxIndexTable, if_neg (by omega)]
    exact bxIndexLoop_accepts distinct fun _ _ => rfl
  obtain ⟨-, -, table⟩ := bxIndexTable_spec accepted
  refine ⟨idx, accepted, fun x => ?_, fun s written => ?_, fun s => ?_, fun check data on few room => ?_⟩
  · have encoded := bxEncode_spec x alpha low high
    exact ⟨_, encoded, (bxDecode_iff accepted encoded).mpr rfl⟩
  · have known : s.all fun c => (idx c).isSome := all_eq_true.mpr fun c member => by
      obtain ⟨d, there⟩ := mem_iff_getElem?.mp (written c member)
      rw [(table c d).mpr there]
      rfl
    have decoded := bxDecode_eq table low high s
    rw [if_pos known] at decoded
    have encoded := bxEncode_spec ((recode alpha.length 256 (s.map (digitOf idx))).map ofNat) alpha low high
    rw [← (bxDecode_iff accepted encoded).mp decoded] at encoded
    exact ⟨_, decoded, encoded⟩
  · rw [bxDecode_eq table low high]
    split <;> simp
  · exact ⟨_, bxEncode_spec _ bxB58 (by decide) (by decide), b58EncodeInto_eq sha256 check few room⟩

theorem basex_is_bijection_binary : ∃ idx, bxIndexTable [48, 49] = some idx ∧
    ∃ s, bxEncode [0, 2] [48, 49] 2 ⟨true, true⟩ = .ok s ∧ bxDecode s idx 2 ⟨true, true⟩ = .ok [0, 2] := by
  obtain ⟨idx, accepted, encodes, -⟩ := basex_is_bijection id [48, 49] (by decide) (by decide) (by decide)
  exact ⟨idx, accepted, encodes [0, 2]⟩

end DynaJS.Codec
