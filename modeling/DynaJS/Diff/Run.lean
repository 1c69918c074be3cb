import DynaJS.Diff.Snake
import Mathlib.Algebra.Group.Nat.Defs
import Mathlib.Algebra.Group.Int.Defs

/-! `dyn_diff_run`: a stack of segments to compare and of hunks to emit. -/
namespace DynaJS.Diff

def diffMaxTokens : Nat := 4 * 1024 * 1024

/-- The tokens of a text by their ids; `dyn_toks_push` refuses more than the maximum. -/
structure Tokens where
  ids : List Nat
  few : ids.length ≤ diffMaxTokens

inductive Op where
  | del
  | eq
  | ins
  deriving DecidableEq, Repr

structure Hunk where
  op : Op
  a0 : Nat
  a1 : Nat
  b0 : Nat
  b1 : Nat
  deriving DecidableEq, Repr

def scriptAdd (s : List Hunk) (op : Op) (a0 a1 b0 b1 : Nat) : List Hunk :=
  if (op = .del ∧ a0 = a1) ∨ (op = .ins ∧ b0 = b1) ∨ (op = .eq ∧ a0 = a1) then s
  else
    match s with
    | [] => [⟨op, a0, a1, b0, b1⟩]
    | h :: rest => if h.op = op then { h with a1 := a1, b1 := b1 } :: rest else ⟨op, a0, a1, b0, b1⟩ :: h :: rest

inductive Kind where
  | diff
  | eq
  | del
  | ins

structure Item where
  kind : Kind
  a0 : Int
  a1 : Int
  b0 : Int
  b1 : Int

def toInt32 (x : Int) : Int := Int.bmod x (2 ^ 32)

def toUint32 (x : Int) : Nat := (x % 2 ^ 32).toNat

def findToken (S : List Nat) (token : Option Nat) (stop : Int) : Nat → Int → Int
  | 0, _ => -1
  | fuel + 1, i => if i < stop then if S[i.toNat]? = token then i else findToken S token stop fuel (i + 1) else -1

def diffReplace (it : Item) : List Item := [⟨.del, it.a0, it.a1, it.b0, it.b0⟩, ⟨.ins, it.a0, it.a0, it.b0, it.b1⟩]

variable (A B : List Nat)

def diffSingle (it : Item) : List Item :=
  let N := it.a1 - it.a0
  let M := it.b1 - it.b0
  let hit :=
    if M = 1 then findToken A B[it.b0.toNat]? it.a1 N.toNat it.a0 else findToken B A[it.a0.toNat]? it.b1 M.toNat it.b0
  if hit < 0 then diffReplace it
  else if M = 1 then
    [⟨.del, it.a0, hit, it.b0, it.b0⟩, ⟨.eq, hit, hit + 1, it.b0, it.b1⟩, ⟨.del, hit + 1, it.a1, it.b1, it.b1⟩]
  else [⟨.ins, it.a0, it.a0, it.b0, hit⟩, ⟨.eq, it.a0, it.a1, hit, hit + 1⟩, ⟨.ins, it.a1, it.a1, hit + 1, it.b1⟩]

def diffSplit (it : Item) (w : SnakeWs) : Except Int (List Item × SnakeWs) :=
  match middleSnake A B it.a0 it.a1 it.b0 it.b1 w with
  | (w, .found _ x y u v) =>
    if (x = it.a0 ∧ y = it.b0 ∧ u = it.a0 ∧ v = it.b0) ∨ (it.a1 ≤ x ∧ it.b1 ≤ y) ∨
      (u ≤ it.a0 ∧ v ≤ it.b0) then .ok (diffReplace it, w)
    else .ok ([⟨.diff, it.a0, x, it.b0, y⟩, ⟨.eq, x, u, y, v⟩, ⟨.diff, u, it.a1, v, it.b1⟩], w)
  | (w, _) => .error (if w.overflow then -2 else -1)

def diffApart (it : Item) (w : SnakeWs) : Except Int (List Item × SnakeWs) :=
  let N := it.a1 - it.a0
  let M := it.b1 - it.b0
  if N ≤ 0 then .ok ([⟨.ins, it.a0, it.a0, it.b0, it.b1⟩], w)
  else if M ≤ 0 then .ok ([⟨.del, it.a0, it.a1, it.b0, it.b0⟩], w)
  else if N = 1 ∨ M = 1 then .ok (diffSingle A B it, w)
  else diffSplit A B it w

def diffItem (it : Item) (w : SnakeWs) : Except Int (List Item × SnakeWs) :=
  let N := it.a1 - it.a0
  let M := it.b1 - it.b0
  if N ≤ 0 ∧ M ≤ 0 then .ok ([], w)
  else
    -- the loops for `p` and `sfx` compare one index of each segment, as along a diagonal
    let p := (slide (sameAhead A B it.a0 it.b0) N M N.toNat 0 0).1
    let sfx := (slide (sameBack A B it.a1 it.b1) (N - p) (M - p) (N - p).toNat 0 0).1
    if p ≠ 0 ∨ sfx ≠ 0 then
      .ok ([⟨.eq, it.a0, it.a0 + p, it.b0, it.b0 + p⟩, ⟨.diff, it.a0 + p, it.a1 - sfx, it.b0 + p, it.b1 - sfx⟩,
        ⟨.eq, it.a1 - sfx, it.a1, it.b1 - sfx, it.b1⟩], w)
    else diffApart A B it w

def diffLoop (A B : List Nat) : Nat → List Item → SnakeWs → List Hunk → Option (Except Int (List Hunk))
  | _, [], _, out => some (.ok out)
  | 0, _ :: _, _, _ => none
  | fuel + 1, it :: st, w, out =>
    match it.kind with
    | .eq => diffLoop A B fuel st w
        (scriptAdd out .eq (toUint32 it.a0) (toUint32 it.a1) (toUint32 it.b0) (toUint32 it.b1))
    | .del => diffLoop A B fuel st w
        (scriptAdd out .del (toUint32 it.a0) (toUint32 it.a1) (toUint32 it.b0) (toUint32 it.b0))
    | .ins => diffLoop A B fuel st w
        (scriptAdd out .ins (toUint32 it.a0) (toUint32 it.a0) (toUint32 it.b0) (toUint32 it.b1))
    | .diff =>
      match diffItem A B it w with
      | .error e => some (.error e)
      | .ok (items, w) => diffLoop A B fuel (items ++ st) w out

def diffRun (A B : Tokens) (w : SnakeWs) (out : List Hunk) : Option (Except Int (List Hunk)) :=
  diffLoop A.ids B.ids (4 * (A.ids.length + B.ids.length) + 1)
    [⟨.diff, 0, toInt32 A.ids.length, 0, toInt32 B.ids.length⟩] w out

end DynaJS.Diff
