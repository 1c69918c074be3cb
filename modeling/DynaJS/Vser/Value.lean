import DynaJS.Engine.Strings
import DynaJS.Engine.Double
import Mathlib.Data.List.Sort

/-! The encoder and the decoder of `dyna-vserialize.c` for MessagePack and CBOR. -/
namespace DynaJS.Vser

open Engine UInt8

inductive Format where
  | msgpack
  | cbor
  deriving DecidableEq, Repr

/-- A value as the encoder meets it. An object lists its enumerable own properties in the order
in which they are enumerated; `other` is a symbol or a function. -/
inductive JsValue where
  | undefined
  | null
  | bool (b : Bool)
  | number (d : Double)
  | string (s : JsString)
  | bytes (b : List UInt8)
  | array (l : List JsValue)
  | object (props : List (JsString × JsValue))
  | other

def vsMaxDepth : Nat := 256

def vsMaxItems : Nat := 2 ^ 26

section Encode

def vbBe (v bytes : Nat) : List UInt8 :=
  (List.range bytes).map fun i : Nat => ofNat (v >>> ((bytes - 1 - i) * 8))

def cborHead (major n : Nat) : List UInt8 :=
  let m := major <<< 5
  if n < 24 then [ofNat (m ||| n)]
  else if n ≤ 0xFF then ofNat (m ||| 24) :: vbBe n 1
  else if n ≤ 0xFFFF then ofNat (m ||| 25) :: vbBe n 2
  else if n ≤ 0xFFFFFFFF then ofNat (m ||| 26) :: vbBe n 4
  else ofNat (m ||| 27) :: vbBe n 8

def toUnsigned (bytes : Nat) (v : Int) : Nat := (v % (2 ^ (8 * bytes) : Nat)).toNat

variable (fmt : Format)

def vencInt (v : Int) : List UInt8 :=
  match fmt with
  | .cbor => if v < 0 then cborHead 1 (-(v + 1)).toNat else cborHead 0 v.toNat
  | .msgpack =>
    if 0 ≤ v ∧ v < 128 then [ofNat v.toNat]
    else if v < 0 ∧ -32 ≤ v then [ofNat (0xE0 ||| (v + 32).toNat)]
    else if 0 ≤ v then
      if v ≤ 0xFF then 0xCC :: vbBe v.toNat 1
      else if v ≤ 0xFFFF then 0xCD :: vbBe v.toNat 2
      else if v ≤ 0xFFFFFFFF then 0xCE :: vbBe v.toNat 4
      else 0xCF :: vbBe v.toNat 8
    else if -128 ≤ v then 0xD0 :: vbBe (toUnsigned 1 v) 1
    else if -32768 ≤ v then 0xD1 :: vbBe (toUnsigned 2 v) 2
    else if -2147483648 ≤ v then 0xD2 :: vbBe (toUnsigned 4 v) 4
    else 0xD3 :: vbBe (toUnsigned 8 v) 8

inductive LenKind where
  | str
  | bin
  | array
  | map
  deriving DecidableEq, Repr

def LenKind.major : LenKind → Nat
  | .str => 3
  | .bin => 2
  | .array => 4
  | .map => 5

def vencLen (kind : LenKind) (n : Nat) : List UInt8 :=
  match fmt with
  | .cbor => cborHead kind.major n
  | .msgpack =>
    match kind with
    | .str =>
      if n < 32 then [ofNat (0xA0 ||| n)]
      else if n ≤ 0xFF then 0xD9 :: vbBe n 1
      else if n ≤ 0xFFFF then 0xDA :: vbBe n 2
      else 0xDB :: vbBe n 4
    | .bin =>
      if n ≤ 0xFF then 0xC4 :: vbBe n 1
      else if n ≤ 0xFFFF then 0xC5 :: vbBe n 2
      else 0xC6 :: vbBe n 4
    | .array =>
      if n < 16 then [ofNat (0x90 ||| n)]
      else if n ≤ 0xFFFF then 0xDC :: vbBe n 2
      else 0xDD :: vbBe n 4
    | .map =>
      if n < 16 then [ofNat (0x80 ||| n)]
      else if n ≤ 0xFFFF then 0xDE :: vbBe n 2
      else 0xDF :: vbBe n 4

/-- The number branch of `venc_value`. The cast of `2 ^ 63` to `int64_t` is undefined in C:
`top` is what it gives. -/
def vencNumber (top : Int) (d : Double) : List UInt8 :=
  let asFloat := (match fmt with | .cbor => 0xFB | .msgpack => 0xCB) :: vbBe d.bits.toNat 8
  match d.intValue with
  | none => asFloat
  | some v =>
    if -2 ^ 63 ≤ v ∧ v ≤ 2 ^ 63 ∧ ¬ (v = 0 ∧ d.sign = true) then
      let iv := if v = 2 ^ 63 then top else v
      -- neither side is a NaN or a negative zero, so `==` compares the bits
      if Double.ofInt iv = d then vencInt fmt iv else asFloat
    else asFloat

/-- `venc_key_cmp` up to the index, whose order the sort below keeps. -/
def VencKeyLe (a b : List UInt8 × Except Thrown (List UInt8)) : Prop :=
  a.1.length < b.1.length ∨ (a.1.length = b.1.length ∧ a.1 ≤ b.1)

instance : DecidableRel VencKeyLe := fun a b =>
  inferInstanceAs (Decidable (a.1.length < b.1.length ∨ (a.1.length = b.1.length ∧ a.1 ≤ b.1)))

def vencPlain (fmt : Format) : List (JsString × Except Thrown (List UInt8)) → Except Thrown (List UInt8)
  | [] => .ok []
  | (key, val) :: props => do
    let ks ← toCStringLen key
    let body ← val
    let rest ← vencPlain fmt props
    return vencLen fmt .str ks.length ++ ks ++ body ++ rest

def vencKeyed (fmt : Format) : List (List UInt8 × Except Thrown (List UInt8)) → Except Thrown (List UInt8)
  | [] => .ok []
  | (ks, val) :: props => do
    let body ← val
    let rest ← vencKeyed fmt props
    return vencLen fmt .str ks.length ++ ks ++ body ++ rest

/-- `venc_map_sorted` or `venc_map_plain`, over properties whose values are already given as
what encoding them does. -/
def vencObject (sorted : Bool) (props : List (JsString × Except Thrown (List UInt8))) : Except Thrown (List UInt8) :=
  if sorted then do
    let keyed ← props.mapM fun p => (toCStringLen p.1).map fun ks => (ks, p.2)
    let body ← vencKeyed fmt (keyed.insertionSort VencKeyLe)
    return vencLen fmt .map props.length ++ body
  else do
    let body ← vencPlain fmt props
    return vencLen fmt .map props.length ++ body

mutual

/-- `venc_value`; values are trees, so `venc_push` finds no cycle. -/
def vencValue (fmt : Format) (sorted : Bool) (top : Int) (depth : Nat) (v : JsValue) : Except Thrown (List UInt8) :=
  if vsMaxDepth ≤ depth then .error (.rangeError "encode: nesting exceeds 256")
  else
    match v with
    | .undefined => .ok [match fmt with | .cbor => 0xF7 | .msgpack => 0xC0]
    | .null => .ok [match fmt with | .cbor => 0xF6 | .msgpack => 0xC0]
    | .bool t =>
      .ok [match fmt with | .cbor => if t then 0xF5 else 0xF4 | .msgpack => if t then 0xC3 else 0xC2]
    | .number d => .ok (vencNumber fmt top d)
    | .string s => (toCStringLen s).map fun bytes => vencLen fmt .str bytes.length ++ bytes
    | .other => .error (.typeError "encode: a symbol or function has no encoding")
    | .bytes b => .ok (vencLen fmt .bin b.length ++ b)
    | .array l =>
      if vsMaxItems < l.length then .error (.rangeError "encode: array too long")
      else (vencArray fmt sorted top (depth + 1) l).map fun body => vencLen fmt .array l.length ++ body
    | .object props => vencObject fmt sorted (vencProps fmt sorted top (depth + 1) props)

def vencArray (fmt : Format) (sorted : Bool) (top : Int) (depth : Nat) : List JsValue → Except Thrown (List UInt8)
  | [] => .ok []
  | v :: l => do
    let one ← vencValue fmt sorted top depth v
    let rest ← vencArray fmt sorted top depth l
    return one ++ rest

def vencProps (fmt : Format) (sorted : Bool) (top : Int) (depth : Nat) :
    List (JsString × JsValue) → List (JsString × Except Thrown (List UInt8))
  | [] => []
  | (k, v) :: props => (k, vencValue fmt sorted top depth v) :: vencProps fmt sorted top depth props

end

def int32Max : Nat := 2 ^ 31 - 1

def vsEncode (sorted : Bool) (top : Int) (v : JsValue) : Except Thrown (List UInt8) := do
  let out ← vencValue fmt sorted top 0 v
  if int32Max < out.length then throw (.rangeError "invalid array buffer length")
  return out

end Encode

section Decode

def position (n : Nat) (rest : List UInt8) : Nat := (n - rest.length) % 2 ^ 32

def truncated (n : Nat) (rest : List UInt8) : Thrown :=
  let i := position n rest
  .syntaxError s!"decode: truncated at byte {i}"

def vdecBe (p : List UInt8) : Nat := p.foldl (fun v b => v <<< 8 ||| b.toNat) 0

def vdecArg (n bytes : Nat) (rest : List UInt8) : Except Thrown (Nat × List UInt8) :=
  if rest.length < bytes then .error (truncated n rest) else .ok (vdecBe (rest.take bytes), rest.drop bytes)

def vdecBounded (count per : Nat) (rest : List UInt8) : Except Thrown Unit :=
  if vsMaxItems < count ∨ (per ≠ 0 ∧ rest.length / per < count) then
    .error (.rangeError s!"decode: declared length {count} exceeds the remaining input")
  else .ok ()

def vdecTake (n len : Nat) (rest : List UInt8) : Except Thrown (List UInt8 × List UInt8) := do
  vdecBounded len 1 rest
  if rest.length < len then .error (truncated n rest) else .ok (rest.take len, rest.drop len)

def vdecStr (n len : Nat) (rest : List UInt8) : Except Thrown (JsValue × List UInt8) :=
  (vdecTake n len rest).map fun (p, rest) => (.string (newStringLen p), rest)

def vdecBin (n len : Nat) (rest : List UInt8) : Except Thrown (JsValue × List UInt8) :=
  (vdecTake n len rest).map fun (p, rest) => (.bytes p, rest)

abbrev Reader := List UInt8 → Except Thrown (JsValue × List UInt8)

def vdecItems (value : Reader) : Nat → List UInt8 → Except Thrown (List JsValue × List UInt8)
  | 0, rest => .ok ([], rest)
  | count + 1, rest => do
    let (v, rest) ← value rest
    let (l, rest) ← vdecItems value count rest
    return (v :: l, rest)

def vdecArray (value : Reader) (count : Nat) (rest : List UInt8) : Except Thrown (JsValue × List UInt8) := do
  vdecBounded count 1 rest
  let (l, rest) ← vdecItems value count rest
  return (.array l, rest)

def vdecKeyLen (fmt : Format) (n : Nat) (rest : List UInt8) : Option (Except Thrown (Nat × List UInt8)) :=
  match rest with
  | [] => none
  | b :: tail =>
    match fmt with
    | .cbor =>
      let minor := b.toNat &&& 31
      if b.toNat >>> 5 ≠ 3 then none
      else if minor < 24 then some (.ok (minor, tail))
      else if minor ≤ 27 then some (vdecArg n (1 <<< (minor - 24)) tail)
      else none
    | .msgpack =>
      if b.toNat &&& 0xE0 = 0xA0 then some (.ok (b.toNat &&& 0x1F, tail))
      else if b = 0xD9 ∨ b = 0xDA ∨ b = 0xDB then
        some (vdecArg n (if b = 0xD9 then 1 else if b = 0xDA then 2 else 4) tail)
      else none

variable (valueToAtom : JsValue → Except Thrown JsString)

/-- `vdec_key`; `valueToAtom` is what `JS_ValueToAtom` makes of another value. -/
def vdecKey (fmt : Format) (n : Nat) (value : Reader) (rest : List UInt8) : Except Thrown (JsString × List UInt8) :=
  match vdecKeyLen fmt n rest with
  | some head => do
    let (len, rest) ← head
    (vdecTake n len rest).map fun (p, rest) => (newStringLen p, rest)
  | none => do
    let (kv, rest) ← value rest
    let key ← valueToAtom kv
    return (key, rest)

def defineProperty (props : List (JsString × JsValue)) (key : JsString) (v : JsValue) : List (JsString × JsValue) :=
  if props.any fun p => p.1.units == key.units then
    props.map fun p => if p.1.units == key.units then (p.1, v) else p
  else props ++ [(key, v)]

/-- The loop of `vdec_map`; a small object is made from all its properties at once, which
defines them in the same order. -/
def vdecEntries (valueToAtom : JsValue → Except Thrown JsString) (fmt : Format) (n : Nat) (value : Reader) :
    Nat → List (JsString × JsValue) → List UInt8 → Except Thrown (List (JsString × JsValue) × List UInt8)
  | 0, props, rest => .ok (props, rest)
  | count + 1, props, rest => do
    let (key, rest) ← vdecKey valueToAtom fmt n value rest
    let (v, rest) ← value rest
    vdecEntries valueToAtom fmt n value count (defineProperty props key v) rest

def vdecMap (fmt : Format) (n : Nat) (value : Reader) (count : Nat)
    (rest : List UInt8) : Except Thrown (JsValue × List UInt8) := do
  vdecBounded count 2 rest
  let (props, rest) ← vdecEntries valueToAtom fmt n value count [] rest
  return (.object props, rest)

def int64Max : Nat := 2 ^ 63 - 1

def toSigned (bytes v : Nat) : Int := if v < 2 ^ (8 * bytes - 1) then v else v - (2 ^ (8 * bytes) : Nat)

def ofHalf (h : Nat) : Double :=
  let e := (h >>> 10) &&& 0x1F
  let m := h &&& 0x3FF
  let val :=
    if e = 0 then Double.ldexp m (-24)
    else if e ≠ 31 then Double.ldexp (m + 1024) ((e : Int) - 25)
    else if m ≠ 0 then Double.nan else Double.infinity
  if h >>> 15 ≠ 0 then val.neg else val

def cborArg (n major minor : Nat) (rest : List UInt8) : Except Thrown (Nat × List UInt8) :=
  if minor < 24 then .ok (minor, rest)
  else if minor = 24 ∨ minor = 25 ∨ minor = 26 ∨ minor = 27 then vdecArg n (1 <<< (minor - 24)) rest
  else if major ≠ 7 then
    .error (.syntaxError "decode: indefinite lengths are not accepted; every length is declared")
  else .ok (0, rest)

def vdecCbor (n : Nat) (value : Reader) (rest : List UInt8) : Except Thrown (JsValue × List UInt8) :=
  match rest with
  | [] => .error (truncated n [])
  | b :: rest => do
    let major := b.toNat >>> 5
    let minor := b.toNat &&& 31
    let (arg, rest) ← cborArg n major minor rest
    match major with
    | 0 => .ok (.number (Double.ofInt arg), rest)
    | 1 =>
      if int64Max < arg then
        -- `-1.0 - (double)arg`, rounded once more
        .ok (.number (Double.ofInt (-1 - ((Double.ofInt arg).intValue.getD 0))), rest)
      else .ok (.number (Double.ofInt (-1 - (arg : Int))), rest)
    | 2 => vdecBin n arg rest
    | 3 => vdecStr n arg rest
    | 4 => vdecArray value arg rest
    | 5 => vdecMap valueToAtom .cbor n value arg rest
    | 6 => value rest
    | _ =>
      match minor with
      | 20 => .ok (.bool false, rest)
      | 21 => .ok (.bool true, rest)
      | 22 => .ok (.null, rest)
      | 23 => .ok (.undefined, rest)
      | 27 => .ok (.number ⟨UInt64.ofNat arg⟩, rest)
      | 26 => .ok (.number (Double.ofFloat (arg % 2 ^ 32)), rest)
      | 25 => .ok (.number (ofHalf (arg % 2 ^ 32)), rest)
      | _ => .error (.syntaxError s!"decode: unsupported simple value {minor}")

def vdecMpWide (n : Nat) (value : Reader) (b : UInt8) (rest : List UInt8) : Except Thrown (JsValue × List UInt8) :=
  match b.toNat with
  | 0xC4 => vdecArg n 1 rest >>= fun (v, rest) => vdecBin n v rest
  | 0xC5 => vdecArg n 2 rest >>= fun (v, rest) => vdecBin n v rest
  | 0xC6 => vdecArg n 4 rest >>= fun (v, rest) => vdecBin n v rest
  | 0xCA => vdecArg n 4 rest >>= fun (v, rest) => .ok (.number (Double.ofFloat v), rest)
  | 0xCB => vdecArg n 8 rest >>= fun (v, rest) => .ok (.number ⟨UInt64.ofNat v⟩, rest)
  | 0xCC => vdecArg n 1 rest >>= fun (v, rest) => .ok (.number (Double.ofInt v), rest)
  | 0xCD => vdecArg n 2 rest >>= fun (v, rest) => .ok (.number (Double.ofInt v), rest)
  | 0xCE => vdecArg n 4 rest >>= fun (v, rest) => .ok (.number (Double.ofInt v), rest)
  | 0xCF => vdecArg n 8 rest >>= fun (v, rest) => .ok (.number (Double.ofInt v), rest)
  | 0xD0 => vdecArg n 1 rest >>= fun (v, rest) => .ok (.number (Double.ofInt (toSigned 1 v)), rest)
  | 0xD1 => vdecArg n 2 rest >>= fun (v, rest) => .ok (.number (Double.ofInt (toSigned 2 v)), rest)
  | 0xD2 => vdecArg n 4 rest >>= fun (v, rest) => .ok (.number (Double.ofInt (toSigned 4 v)), rest)
  | 0xD3 => vdecArg n 8 rest >>= fun (v, rest) => .ok (.number (Double.ofInt (toSigned 8 v)), rest)
  | 0xD9 => vdecArg n 1 rest >>= fun (v, rest) => vdecStr n v rest
  | 0xDA => vdecArg n 2 rest >>= fun (v, rest) => vdecStr n v rest
  | 0xDB => vdecArg n 4 rest >>= fun (v, rest) => vdecStr n v rest
  | 0xDC => vdecArg n 2 rest >>= fun (v, rest) => vdecArray value v rest
  | 0xDD => vdecArg n 4 rest >>= fun (v, rest) => vdecArray value v rest
  | 0xDE => vdecArg n 2 rest >>= fun (v, rest) => vdecMap valueToAtom .msgpack n value v rest
  | 0xDF => vdecArg n 4 rest >>= fun (v, rest) => vdecMap valueToAtom .msgpack n value v rest
  | byte =>
    let hex := String.ofList ((Nat.toDigits 16 byte).map Char.toUpper)
    let i := position n (b :: rest)
    .error (.syntaxError s!"decode: unsupported type byte 0x{hex} at {i}")

def vdecMsgpack (n : Nat) (value : Reader) (rest : List UInt8) : Except Thrown (JsValue × List UInt8) :=
  match rest with
  | [] => .error (truncated n [])
  | b :: rest =>
    if b.toNat < 0x80 then .ok (.number (Double.ofInt b.toNat), rest)
    else if 0xE0 ≤ b.toNat then .ok (.number (Double.ofInt (toSigned 1 b.toNat)), rest)
    else if b.toNat &&& 0xF0 = 0x80 then vdecMap valueToAtom .msgpack n value (b.toNat &&& 0x0F) rest
    else if b.toNat &&& 0xF0 = 0x90 then vdecArray value (b.toNat &&& 0x0F) rest
    else if b.toNat &&& 0xE0 = 0xA0 then vdecStr n (b.toNat &&& 0x1F) rest
    else if b = 0xC0 then .ok (.null, rest)
    else if b = 0xC2 then .ok (.bool false, rest)
    else if b = 0xC3 then .ok (.bool true, rest)
    else vdecMpWide valueToAtom n value b rest

def vdecValue (valueToAtom : JsValue → Except Thrown JsString) (fmt : Format) (n : Nat) : Nat → Reader
  | 0, _ => .error (.rangeError "decode: nesting exceeds 256")
  | left + 1, rest =>
    match fmt with
    | .cbor => vdecCbor valueToAtom n (vdecValue valueToAtom fmt n left) rest
    | .msgpack => vdecMsgpack valueToAtom n (vdecValue valueToAtom fmt n left) rest

def vsDecode (fmt : Format) (p : List UInt8) : Except Thrown JsValue := do
  let (out, rest) ← vdecValue valueToAtom fmt p.length vsMaxDepth p
  if rest = [] then return out
  else
    let left := rest.length % 2 ^ 32
    throw (.syntaxError s!"decode: {left} trailing bytes after the value")

end Decode

end DynaJS.Vser
