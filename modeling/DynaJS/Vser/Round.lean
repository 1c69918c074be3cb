import DynaJS.Vser.Value

/-! What the decoder reads from what the encoder wrote, head by head and then over whole values. -/
namespace DynaJS.Vser

open Engine List Nat Except

section Bytes

theorem vbBe_succ (v n : Nat) : vbBe v (n + 1) = vbBe (v >>> 8) n ++ [UInt8.ofNat v] := by
  rw [vbBe, range_succ, map_append, map_singleton]
  congr 1
  · refine map_congr_left fun i member => ?_
    rw [mem_range] at member
    rw [← shiftRight_add]
    congr 2
    omega
  · rw [show n + 1 - 1 - n = 0 by omega, shiftRight_zero]

theorem vbBe_length (v n : Nat) : (vbBe v n).length = n := by
  rw [vbBe, length_map, length_range]

theorem vdecBe_vbBe (v n : Nat) (fits : v < 2 ^ (8 * n)) : vdecBe (vbBe v n) = v := by
  induction n generalizing v with
  | zero =>
    have zero : v = 0 := by simpa using fits
    rw [zero]
    rfl
  | succ n ih =>
    have lower : v >>> 8 < 2 ^ (8 * n) := by
      rw [shiftRight_eq_div_pow]
      refine Nat.div_lt_of_lt_mul ?_
      rwa [← Nat.pow_add, show 8 + 8 * n = 8 * (n + 1) by ring]
    have front := ih _ lower
    have byte : (UInt8.ofNat v).toNat < 2 ^ 8 := UInt8.toNat_lt _
    rw [vdecBe] at front
    rw [vbBe_succ, vdecBe, foldl_append, foldl_cons, foldl_nil, ← shiftLeft_add_eq_or_of_lt byte, UInt8.toNat_ofNat']
    omega

theorem vdecArg_vbBe (n : Nat) {v bytes : Nat} (fits : v < 2 ^ (8 * bytes)) (rest : List UInt8) :
    vdecArg n bytes (vbBe v bytes ++ rest) = .ok (v, rest) := by
  have size := vbBe_length v bytes
  rw [vdecArg, if_neg (by rw [length_append]; omega), take_append_of_le_length (by omega),
    drop_append_of_le_length (by omega), take_of_length_le (by omega), drop_of_length_le (by omega),
    vdecBe_vbBe v bytes fits, nil_append]

end Bytes

section Heads

variable (valueToAtom : JsValue → Except Thrown JsString)

theorem cbor_first : ∀ major, major < 8 → ∀ minor, minor < 32 →
    (UInt8.ofNat (major <<< 5 ||| minor)).toNat >>> 5 = major ∧
      (UInt8.ofNat (major <<< 5 ||| minor)).toNat &&& 31 = minor := by
  decide +kernel

theorem cborArg_head (n : Nat) {major arg : Nat} (known : major < 8) (fits : arg < 2 ^ 64) (rest : List UInt8) :
    ∃ b tail, cborHead major arg ++ rest = b :: tail ∧ b.toNat >>> 5 = major ∧
      cborArg n major (b.toNat &&& 31) tail = .ok (arg, rest) := by
  have wide : ∀ minor bytes, minor < 32 → ¬ minor < 24 → (minor = 24 ∨ minor = 25 ∨ minor = 26 ∨ minor = 27) →
      1 <<< (minor - 24) = bytes → arg < 2 ^ (8 * bytes) →
      ∃ b tail, UInt8.ofNat (major <<< 5 ||| minor) :: vbBe arg bytes ++ rest = b :: tail ∧ b.toNat >>> 5 = major ∧
        cborArg n major (b.toNat &&& 31) tail = .ok (arg, rest) := by
    intro minor bytes small large listed size fits
    obtain ⟨hi, lo⟩ := cbor_first major known minor small
    refine ⟨_, _, cons_append, hi, ?_⟩
    rw [lo, cborArg, if_neg large, if_pos listed, size, vdecArg_vbBe n fits]
  rw [cborHead]
  by_cases one : arg < 24
  · obtain ⟨hi, lo⟩ := cbor_first major known arg (by omega)
    rw [if_pos one]
    refine ⟨_, _, rfl, hi, ?_⟩
    rw [lo, cborArg, if_pos one]
    rfl
  rw [if_neg one]
  by_cases two : arg ≤ 0xFF
  · rw [if_pos two]
    exact wide 24 1 (by decide) (by decide) (by decide) rfl (by omega)
  rw [if_neg two]
  by_cases three : arg ≤ 0xFFFF
  · rw [if_pos three]
    exact wide 25 2 (by decide) (by decide) (by decide) rfl (by omega)
  rw [if_neg three]
  split_ifs with four
  · exact wide 26 4 (by decide) (by decide) (by decide) rfl (by omega)
  · exact wide 27 8 (by decide) (by decide) (by decide) rfl (by omega)

variable (fmt : Format)

def vdecKind (n : Nat) (value : Reader) (len : Nat) (rest : List UInt8) :
    LenKind → Except Thrown (JsValue × List UInt8)
  | .str => vdecStr n len rest
  | .bin => vdecBin n len rest
  | .array => vdecArray value len rest
  | .map => vdecMap valueToAtom fmt n value len rest

variable {len : Nat}

theorem vdecCbor_len (n : Nat) (value : Reader) (kind : LenKind) (fits : len < 2 ^ 32) (rest : List UInt8) :
    vdecCbor valueToAtom n value (cborHead kind.major len ++ rest) =
      vdecKind valueToAtom .cbor n value len rest kind := by
  have known : kind.major < 8 := by cases kind <;> decide
  obtain ⟨b, tail, shape, major, arg⟩ := cborArg_head n known (by omega : len < 2 ^ 64) rest
  rw [shape, vdecCbor]
  rw [major, arg]
  cases kind <;> rfl

theorem fix_bytes : ∀ base ∈ [0x80, 0x90], ∀ len < 16, let b := (UInt8.ofNat (base ||| len)).toNat
    b &&& 0xF0 = base ∧ b &&& 0x0F = len ∧ 0x80 ≤ b ∧ b < 0xE0 := by
  decide

theorem fix_str : ∀ len < 32, let b := (UInt8.ofNat (0xA0 ||| len)).toNat
    b &&& 0xE0 = 0xA0 ∧ b &&& 0x1F = len ∧ b &&& 0xF0 ≠ 0x80 ∧ b &&& 0xF0 ≠ 0x90 ∧ 0x80 ≤ b ∧ b < 0xE0 := by
  decide

theorem vdecMsgpack_len (n : Nat) (value : Reader) (kind : LenKind) (fits : len < 2 ^ 32) (rest : List UInt8) :
    vdecMsgpack valueToAtom n value (vencLen .msgpack kind len ++ rest) =
      vdecKind valueToAtom .msgpack n value len rest kind := by
  -- a first byte that announces a length in some bytes
  have wide : ∀ b bytes, len < 2 ^ (8 * bytes) →
      (∀ tail, vdecMsgpack valueToAtom n value (b :: tail) =
        vdecArg n bytes tail >>= fun p => vdecKind valueToAtom .msgpack n value p.1 p.2 kind) →
      vdecMsgpack valueToAtom n value (b :: vbBe len bytes ++ rest) =
      vdecKind valueToAtom .msgpack n value len rest kind := by
    intro b bytes small step
    rw [cons_append, step, vdecArg_vbBe n small]
    rfl
  cases kind with
  | str =>
    dsimp only [vencLen]
    by_cases one : len < 32
    · obtain ⟨top, low, map, array, above, below⟩ := fix_str len one
      rw [if_pos one, singleton_append, vdecMsgpack, if_neg (by omega), if_neg (by omega), if_neg map, if_neg array,
        if_pos top, low]
      rfl
    rw [if_neg one]
    split_ifs
    · exact wide 0xD9 1 (by omega) fun _ => rfl
    · exact wide 0xDA 2 (by omega) fun _ => rfl
    · exact wide 0xDB 4 (by omega) fun _ => rfl
  | bin =>
    dsimp only [vencLen]
    split_ifs
    · exact wide 0xC4 1 (by omega) fun _ => rfl
    · exact wide 0xC5 2 (by omega) fun _ => rfl
    · exact wide 0xC6 4 (by omega) fun _ => rfl
  | array =>
    dsimp only [vencLen]
    by_cases one : len < 16
    · obtain ⟨top, low, above, below⟩ := fix_bytes 0x90 (by decide) len one
      rw [if_pos one, singleton_append, vdecMsgpack, if_neg (by omega), if_neg (by omega), if_neg (by omega),
        if_pos top, low]
      rfl
    rw [if_neg one]
    split_ifs
    · exact wide 0xDC 2 (by omega) fun _ => rfl
    · exact wide 0xDD 4 (by omega) fun _ => rfl
  | map =>
    dsimp only [vencLen]
    by_cases one : len < 16
    · obtain ⟨top, low, above, below⟩ := fix_bytes 0x80 (by decide) len one
      rw [if_pos one, singleton_append, vdecMsgpack, if_neg (by omega), if_neg (by omega), if_pos top, low]
      rfl
    rw [if_neg one]
    split_ifs
    · exact wide 0xDE 2 (by omega) fun _ => rfl
    · exact wide 0xDF 4 (by omega) fun _ => rfl

theorem vdecValue_len (n left : Nat) (kind : LenKind) (fits : len < 2 ^ 32) (rest : List UInt8) :
    vdecValue valueToAtom fmt n (left + 1) (vencLen fmt kind len ++ rest) =
      vdecKind valueToAtom fmt n (vdecValue valueToAtom fmt n left) len rest kind := by
  cases fmt with
  | cbor => exact vdecCbor_len valueToAtom n _ kind fits rest
  | msgpack => exact vdecMsgpack_len valueToAtom n _ kind fits rest

theorem vdecKeyLen_len (n : Nat) (fits : len < 2 ^ 32) (rest : List UInt8) :
    vdecKeyLen fmt n (vencLen fmt .str len ++ rest) = some (.ok (len, rest)) := by
  cases fmt with
  | cbor =>
    obtain ⟨b, tail, shape, major, arg⟩ := cborArg_head n (by decide : LenKind.str.major < 8)
      (by omega : len < 2 ^ 64) rest
    change vdecKeyLen .cbor n (cborHead LenKind.str.major len ++ rest) = _
    rw [shape, vdecKeyLen, if_neg (not_not_intro (show b.toNat >>> 5 = 3 from major))]
    rw [cborArg] at arg
    by_cases small : b.toNat &&& 31 < 24
    · rw [if_pos small] at arg ⊢
      rw [arg]
    rw [if_neg small] at arg ⊢
    by_cases listed : b.toNat &&& 31 = 24 ∨ b.toNat &&& 31 = 25 ∨ b.toNat &&& 31 = 26 ∨ b.toNat &&& 31 = 27
    · rw [if_pos listed] at arg
      rw [if_pos (by omega), arg]
    · rw [if_neg listed, if_pos (by decide)] at arg
      contradiction
  | msgpack =>
    dsimp only [vencLen]
    by_cases one : len < 32
    · obtain ⟨top, low, -⟩ := fix_str len one
      rw [if_pos one, singleton_append, vdecKeyLen, if_pos top, low]
    rw [if_neg one]
    by_cases two : len ≤ 0xFF
    · rw [if_pos two]
      change some (vdecArg n 1 (vbBe len 1 ++ rest)) = _
      rw [vdecArg_vbBe n (by omega)]
    rw [if_neg two]
    split_ifs with three
    · change some (vdecArg n 2 (vbBe len 2 ++ rest)) = _
      rw [vdecArg_vbBe n (by omega)]
    · change some (vdecArg n 4 (vbBe len 4 ++ rest)) = _
      rw [vdecArg_vbBe n (by omega)]

theorem toSigned_toUnsigned {bytes : Nat} (some_byte : 0 < bytes) {v : Int} (negative : v < 0)
    (low : -(2 ^ (8 * bytes - 1) : Nat) ≤ v) :
    toSigned bytes (toUnsigned bytes v) = v ∧ toUnsigned bytes v < 2 ^ (8 * bytes) := by
  obtain ⟨k, size⟩ : ∃ k, 8 * bytes = k + 1 := ⟨8 * bytes - 1, by omega⟩
  have double : (2 ^ (k + 1) : Nat) = 2 * 2 ^ k := by rw [pow_succ, mul_comm]
  rw [size, Nat.add_sub_cancel] at low
  rw [toSigned, toUnsigned, size, Nat.add_sub_cancel, double]
  generalize (2 ^ k : Nat) = half at *
  have shifted : v % ((2 * half : Nat) : Int) = v + (2 * half : Nat) := by
    rw [← Int.add_emod_right, Int.emod_eq_of_lt (by omega) (by omega)]
  rw [shifted]
  constructor
  · rw [if_neg (by omega)]
    omega
  · omega

theorem vdecCbor_int (n : Nat) (value : Reader) {v : Int} (low : -2 ^ 63 ≤ v) (high : v < 2 ^ 63) (rest : List UInt8) :
    vdecCbor valueToAtom n value (vencInt .cbor v ++ rest) = .ok (.number (Double.ofInt v), rest) := by
  dsimp only [vencInt]
  by_cases negative : v < 0
  · obtain ⟨b, tail, shape, major, arg⟩ := cborArg_head n (by decide : 1 < 8)
      (by omega : (-(v + 1)).toNat < 2 ^ 64) rest
    rw [if_pos negative, shape, vdecCbor]
    rw [major, arg]
    change (if int64Max < (-(v + 1)).toNat then _ else _) = _
    rw [if_neg (by unfold int64Max; omega), show -1 - ((-(v + 1)).toNat : Int) = v by omega]
  · obtain ⟨b, tail, shape, major, arg⟩ := cborArg_head n (by decide : 0 < 8) (by omega : v.toNat < 2 ^ 64) rest
    rw [if_neg negative, shape, vdecCbor]
    rw [major, arg]
    change ok (JsValue.number (Double.ofInt (v.toNat : Int)), rest) = _
    rw [show (v.toNat : Int) = v by omega]

theorem fix_int : ∀ k, k < 32 → 0xE0 ≤ (UInt8.ofNat (0xE0 ||| k)).toNat ∧
    toSigned 1 (UInt8.ofNat (0xE0 ||| k)).toNat = (k : Int) - 32 := by
  decide

theorem vdecMsgpack_int (n : Nat) (value : Reader) {v : Int} (low : -2 ^ 63 ≤ v) (high : v < 2 ^ 63)
    (rest : List UInt8) :
    vdecMsgpack valueToAtom n value (vencInt .msgpack v ++ rest) = .ok (.number (Double.ofInt v), rest) := by
  have plain : ∀ bytes, v.toNat < 2 ^ (8 * bytes) → 0 ≤ v →
      (vdecArg n bytes (vbBe v.toNat bytes ++ rest) >>= fun p =>
        ok (JsValue.number (Double.ofInt p.1), p.2)) = .ok (.number (Double.ofInt v), rest) := by
    intro bytes fits positive
    rw [vdecArg_vbBe n fits]
    change ok (JsValue.number (Double.ofInt (v.toNat : Int)), rest) = _
    rw [show (v.toNat : Int) = v by omega]
  have signed : ∀ bytes, 0 < bytes → v < 0 → -(2 ^ (8 * bytes - 1) : Nat) ≤ v →
      (vdecArg n bytes (vbBe (toUnsigned bytes v) bytes ++ rest) >>= fun p =>
        ok (JsValue.number (Double.ofInt (toSigned bytes p.1)), p.2)) = .ok (.number (Double.ofInt v), rest) := by
    intro bytes some_byte negative fits
    obtain ⟨back, small⟩ := toSigned_toUnsigned some_byte negative fits
    rw [vdecArg_vbBe n small]
    change ok (JsValue.number (Double.ofInt (toSigned bytes (toUnsigned bytes v))), rest) = _
    rw [back]
  dsimp only [vencInt]
  by_cases fixed : 0 ≤ v ∧ v < 128
  · have byte := UInt8.toNat_ofNat_of_lt' (show v.toNat < 256 by omega)
    rw [if_pos fixed, singleton_append, vdecMsgpack, byte, if_pos (by omega), show (v.toNat : Int) = v by omega]
  rw [if_neg fixed]
  by_cases small : v < 0 ∧ -32 ≤ v
  · obtain ⟨above, back⟩ := fix_int (v + 32).toNat (by omega)
    rw [if_pos small, singleton_append, vdecMsgpack, if_neg (by omega), if_pos above, back,
      show ((v + 32).toNat : Int) - 32 = v by omega]
  rw [if_neg small]
  by_cases positive : 0 ≤ v
  · rw [if_pos positive]
    by_cases one : v ≤ 0xFF
    · rw [if_pos one]
      exact plain 1 (by omega) positive
    rw [if_neg one]
    by_cases two : v ≤ 0xFFFF
    · rw [if_pos two]
      exact plain 2 (by omega) positive
    split_ifs with four
    · exact plain 4 (by omega) positive
    · exact plain 8 (by omega) positive
  · rw [if_neg positive]
    by_cases one : -128 ≤ v
    · rw [if_pos one]
      exact signed 1 (by decide) (by omega) (by omega)
    rw [if_neg one]
    by_cases two : -32768 ≤ v
    · rw [if_pos two]
      exact signed 2 (by decide) (by omega) (by omega)
    split_ifs with four
    · exact signed 4 (by decide) (by omega) (by omega)
    · exact signed 8 (by decide) (by omega) (by omega)

theorem vdecValue_float (n left : Nat) (d : Double) (rest : List UInt8) : vdecValue valueToAtom fmt n (left + 1)
      ((match fmt with | .cbor => 0xFB | .msgpack => 0xCB) :: vbBe d.bits.toNat 8 ++ rest) =
      .ok (.number d, rest) := by
  have fits : d.bits.toNat < 2 ^ (8 * 8) := d.bits.toNat_lt
  have read : (vdecArg n 8 (vbBe d.bits.toNat 8 ++ rest) >>= fun r => .ok (JsValue.number ⟨UInt64.ofNat r.1⟩, r.2)) =
      ok (JsValue.number d, rest) := by
    rw [vdecArg_vbBe n fits rest]
    change ok (JsValue.number ⟨UInt64.ofNat d.bits.toNat⟩, rest) = _
    rw [UInt64.ofNat_toNat]
  cases fmt with
  | cbor => exact read
  | msgpack => exact read

/-- A number comes back bit by bit, whatever the undefined cast gives. -/
theorem vdecValue_number (n left : Nat) {top : Int} (int64 : -2 ^ 63 ≤ top ∧ top < 2 ^ 63) (d : Double)
    (rest : List UInt8) :
    vdecValue valueToAtom fmt n (left + 1) (vencNumber fmt top d ++ rest) = .ok (.number d, rest) := by
  have float := vdecValue_float valueToAtom fmt n left d rest
  have whole : ∀ v, -2 ^ 63 ≤ v → v < 2 ^ 63 → vdecValue valueToAtom fmt n (left + 1) (vencInt fmt v ++ rest) =
      .ok (.number (Double.ofInt v), rest) := by
    intro v low high
    cases fmt with
    | cbor => exact vdecCbor_int valueToAtom n _ low high rest
    | msgpack => exact vdecMsgpack_int valueToAtom n _ low high rest
  unfold vencNumber
  cases value : d.intValue with
  | none => exact float
  | some v =>
    dsimp only
    by_cases range : -2 ^ 63 ≤ v ∧ v ≤ 2 ^ 63 ∧ ¬ (v = 0 ∧ d.sign = true)
    · rw [if_pos range]
      by_cases same : Double.ofInt (if v = 2 ^ 63 then top else v) = d
      · rw [if_pos same]
        split_ifs at same ⊢ with edge
        · rw [whole top int64.1 int64.2, same]
        · rw [whole v range.1 (by omega), same]
      · rw [if_neg same]
        exact float
    · rw [if_neg range]
      exact float

end Heads

end DynaJS.Vser
