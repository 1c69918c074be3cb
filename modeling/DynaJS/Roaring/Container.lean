import DynaJS.Lib.BitSet
import DynaJS.Lib.Search

/-! The containers of the roaring bitmap of `dyna-structures-db.inc.c`: an array, a
bitmap or a full chunk of 65536 values, and the operations on pairs of them. -/
namespace DynaJS.Roaring

open DynaJS.BitSet

def arrMax : Nat := 4096

def wordCount : Nat := 1024

def chunkSize : Nat := 65536

inductive Body where
  | none
  | arr (a : List Nat)
  | bmp (w : Words)
  | full

structure Ct where
  key : Nat
  body : Body
  card : Nat
  cap : Nat

/-- The places an allocation stands at. Each is reached at most once for a key in
one operation, so a key and a place name a point of failure. -/
inductive Site where
  | reserve | array | grow | words | adopt
  deriving DecidableEq, Repr

abbrev Memory := Site → Bool

inductive RbOp where
  | and | or | xor | andnot
  deriving DecidableEq, Repr

def rbOnes : Words := fun _ => BitVec.allOnes 64

def arrToWords (a : List Nat) : Words := a.foldl setBit fun _ => 0

/-- `rb_words_of`. For type 0 the source reads through a null pointer; no valid bitmap holds that type. -/
def wordsOf : Body → Words
  | .none => fun _ => 0
  | .arr a => arrToWords a
  | .bmp w => w
  | .full => rbOnes

@[irreducible] def popcnt (w : Words) : Nat := count w wordCount

def adoptWords (out : Ct) (w : Words) (card : Nat) (mem : Memory) : Option Ct :=
  if card = 0 then some { out with card := card, body := .none }
  else if card = chunkSize then some { out with card := card, body := .full }
  else if card ≤ arrMax then
    if mem .adopt then
      some { out with card := card, body := .arr (elements w wordCount), cap := card }
    else none
  else some { out with card := card, body := .bmp w, cap := 0 }

def ctCopy (src : Ct) (mem : Memory) : Option Ct :=
  match src.body with
  | .arr _ => if mem .array then some { src with cap := src.card } else none
  | .bmp _ => if mem .words then some { src with cap := 0 } else none
  | _ => some { src with cap := 0 }

def arrHas (a : List Nat) (lo : Nat) : Bool × Nat :=
  let l := Search.lowerBound (fun m => ¬ a.getD m 0 < lo) 0 a.length
  (l < a.length ∧ a.getD l 0 = lo, l)

def ctHas (c : Ct) (lo : Nat) : Bool :=
  match c.body with
  | .arr a => (arrHas a lo).1
  | body => bit (wordsOf body) lo

/-- What an operation keeps: of a value only in the left operand, only in the
right one, or in both. -/
def RbOp.takes : RbOp → Bool → Bool → Bool
  | .and, x, y => x && y
  | .or, x, y => x || y
  | .xor, x, y => x != y
  | .andnot, x, y => x && !y

def RbOp.word : RbOp → BitVec 64 → BitVec 64 → BitVec 64
  | .and, x, y => x &&& y
  | .or, x, y => x ||| y
  | .xor, x, y => x ^^^ y
  | .andnot, x, y => x &&& ~~~y

def mergeArrays (op : RbOp) : List Nat → List Nat → List Nat
  | [], [] => []
  | x :: xs, [] => if op ≠ .and then x :: mergeArrays op xs [] else mergeArrays op xs []
  | [], y :: ys =>
    if op = .or ∨ op = .xor then y :: mergeArrays op [] ys else mergeArrays op [] ys
  | x :: xs, y :: ys =>
    if x < y then
      if op ≠ .and then x :: mergeArrays op xs (y :: ys) else mergeArrays op xs (y :: ys)
    else if y < x then
      if op = .or ∨ op = .xor then y :: mergeArrays op (x :: xs) ys else mergeArrays op (x :: xs) ys
    else if op = .and ∨ op = .or then x :: mergeArrays op xs ys
    else mergeArrays op xs ys
termination_by xs ys => xs.length + ys.length

def mergeCap (op : RbOp) (a b : Nat) : Nat :=
  match op with
  | .and => min a b
  | .andnot => a
  | _ => a + b

def arrArrOp (key : Nat) (a b : Ct) (x y : List Nat) (op : RbOp) (mem : Memory) : Option (Nat × Ct) :=
  let cap := mergeCap op a.card b.card
  if cap ≠ 0 ∧ mem .array = false then none
  else
    let o := mergeArrays op x y
    let card := o.length
    if card = 0 then some (0, ⟨key, .none, 0, 0⟩)
    else if card ≤ arrMax then some (card, ⟨key, .arr o, card, cap⟩)
    else if mem .words then
      (adoptWords ⟨key, .none, 0, 0⟩ (arrToWords o) card mem).map (card, ·)
    else none

def arrFilterOp (key : Nat) (a : Ct) (x : List Nat) (yw : Words) (op : RbOp) (mem : Memory) : Option (Nat × Ct) :=
  if mem .array = false then none
  else
    let o := x.filter fun v => bit yw v = decide (op = .and)
    if o.length = 0 then some (0, ⟨key, .none, 0, 0⟩)
    else some (o.length, ⟨key, .arr o, o.length, a.card⟩)

def wordsOp (key : Nat) (wa wb : Words) (op : RbOp) (mem : Memory) : Option (Nat × Ct) :=
  if mem .words = false then none
  else
    let w : Words := fun i => op.word (wa i) (wb i)
    let card := popcnt w
    (adoptWords ⟨key, .none, 0, 0⟩ w card mem).map (card, ·)

def ctOpBoth (a b : Ct) (op : RbOp) (mem : Memory) : Option (Nat × Ct) :=
  match a.body, b.body with
  | .arr x, .arr y => arrArrOp a.key a b x y op mem
  | .arr x, body =>
    if op = .and ∨ op = .andnot then arrFilterOp a.key a x (wordsOf body) op mem
    else wordsOp a.key (arrToWords x) (wordsOf body) op mem
  | body, .arr y =>
    -- The operands change places: the result is a part of the array.
    if op = .and then arrFilterOp b.key b y (wordsOf body) op mem
    else wordsOp a.key (wordsOf body) (arrToWords y) op mem
  | x, y => wordsOp a.key (wordsOf x) (wordsOf y) op mem

def ctOpOne (s : Ct) (left : Bool) (op : RbOp) (mem : Memory) : Option (Nat × Ct) :=
  if op = .and ∨ (op = .andnot ∧ left = false) then some (0, ⟨s.key, .none, 0, 0⟩)
  else (ctCopy s mem).map (s.card, ·)

def ctOpCardBoth (a b : Ct) (op : RbOp) : Nat :=
  match a.body, b.body with
  | .arr x, .arr y => (mergeArrays op x y).length
  | .arr x, body =>
    if op = .and ∨ op = .andnot then
      (x.filter fun v => bit (wordsOf body) v = decide (op = .and)).length
    else popcnt fun i => op.word (arrToWords x i) (wordsOf body i)
  | body, .arr y =>
    if op = .and then (y.filter fun v => bit (wordsOf body) v = decide (op = .and)).length
    else popcnt fun i => op.word (wordsOf body i) (arrToWords y i)
  | x, y => popcnt fun i => op.word (wordsOf x i) (wordsOf y i)

def ctOpCardOne (s : Ct) (left : Bool) (op : RbOp) : Nat :=
  if op = .and ∨ (op = .andnot ∧ left = false) then 0 else s.card

end DynaJS.Roaring
