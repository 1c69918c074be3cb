import Mathlib.Data.Nat.Bitwise
import Mathlib.Tactic.Ring

/-! Doubles by their bits: sign, exponent and fraction, and the conversions to and from
integers that the C casts make. -/
namespace DynaJS.Engine

structure Double where
  bits : UInt64
  deriving DecidableEq, Repr

namespace Double

variable (d : Double)

def sign : Bool := 2 ^ 63 ≤ d.bits.toNat

def exponent : Nat := d.bits.toNat / 2 ^ 52 % 2048

def fraction (d : Double) : Nat := d.bits.toNat % 2 ^ 52

/-- Rounding up may carry a fraction of `2 ^ 52` into the exponent. -/
def ofParts (neg : Bool) (exponent fraction : Nat) : Double :=
  ⟨UInt64.ofNat ((if neg then 2 ^ 63 else 0) + exponent * 2 ^ 52 + fraction)⟩

def magnitude : Option Nat :=
  let m := if d.exponent = 0 then d.fraction else d.fraction + 2 ^ 52
  let k := max d.exponent 1
  if 1075 ≤ k then some (m * 2 ^ (k - 1075))
  else if m % 2 ^ (1075 - k) = 0 then some (m / 2 ^ (1075 - k))
  else none

def intValue : Option Int :=
  if d.exponent = 2047 then none else d.magnitude.map fun a : Nat => if d.sign then -(a : Int) else a

def ofMagnitude (neg : Bool) (a : Nat) : Double :=
  if a = 0 then ofParts neg 0 0
  else if a.log2 ≤ 52 then ofParts neg (a.log2 + 1023) (a * 2 ^ (52 - a.log2) - 2 ^ 52)
  else
    let s := a.log2 - 52
    let q := a / 2 ^ s
    let r := a % 2 ^ s
    let q := if 2 ^ (s - 1) < r ∨ (r = 2 ^ (s - 1) ∧ q % 2 = 1) then q + 1 else q
    ofParts neg (a.log2 + 1023) (q - 2 ^ 52)

def ofInt (v : Int) : Double := ofMagnitude (decide (v < 0)) v.natAbs

/-- `ldexp` of a small number, inside the range of normal doubles. -/
def ldexp (m : Nat) (e : Int) : Double :=
  if m = 0 then ofParts false 0 0 else ofParts false ((m.log2 : Int) + e + 1023).toNat (m * 2 ^ (52 - m.log2) - 2 ^ 52)

def neg : Double := ⟨d.bits ^^^ 0x8000000000000000⟩

def infinity : Double := ofParts false 2047 0

def nan : Double := ofParts false 2047 (2 ^ 51)

/-- The cast of a `float`, given by its bits, to `double`; a NaN becomes quiet. -/
def ofFloat (bits : Nat) : Double :=
  let e : Nat := bits / 2 ^ 23 % 256
  let f : Nat := bits % 2 ^ 23
  let d :=
    if e = 255 then if f = 0 then infinity else ofParts false 2047 (f * 2 ^ 29 ||| 2 ^ 51)
    else if e = 0 then ldexp f (-149)
    else ldexp (f + 2 ^ 23) ((e : Int) - 150)
  if 2 ^ 31 ≤ bits then d.neg else d

def truncated : Nat :=
  let m := if d.exponent = 0 then d.fraction else d.fraction + 2 ^ 52
  let k := max d.exponent 1
  if 1075 ≤ k then m * 2 ^ (k - 1075) else m / 2 ^ (1075 - k)

/-- `JS_ToInt64` of a number: the cast inside its range, then the low 64 bits, and 0 for what is
larger still, infinite or a NaN. -/
def toInt64 : Int :=
  if d.exponent ≤ 1023 + 62 then if d.sign then -(d.truncated : Int) else d.truncated
  else if d.exponent ≤ 1023 + 62 + 53 then
    let v := BitVec.ofNat 64 ((d.fraction + 2 ^ 52) <<< (d.exponent - 1023 - 52))
    (if d.sign then -v else v).toInt
  else 0

end Double

end DynaJS.Engine
