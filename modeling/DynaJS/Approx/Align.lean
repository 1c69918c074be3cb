import DynaJS.Approx.Text
import DynaJS.Engine.Double
import DynaJS.Lib.Local
import Mathlib.Tactic.Linarith

/-! `dyn_smith_waterman`: local alignment by two rows and a trace kept by diagonals. Scores are
32-bit integers, and sums wrap. -/
namespace DynaJS.Approx

open Function Engine Local

def swMaxCells : Nat := 400000000

def swMaxTrace : Nat := 268435456

def swScoreLimit : Int := 1000

structure SwOptions where
  names : List String
  matched : Option Double
  mismatch : Option Double
  gap : Option Double
  band : Option Double
  diagonal : Option Double
  traceback : Option Bool

structure SwOpts where
  matched : Int
  mismatch : Int
  gap : Int
  band : Int
  diagonal : Int
  traceback : Bool

def swKeys : List String := ["match", "mismatch", "gap", "band", "diagonal", "traceback"]

def swRangeError (key : String) (lo hi : Int) : Thrown :=
  .rangeError ("SmithWaterman: " ++ key ++ " must be an integer in [" ++ toString lo ++ ", " ++ toString hi ++ "]")

def swIntOpt (key : String) (lo hi : Int) (v : Option Double) (out : Int) : Except Thrown Int :=
  match v with
  | none => .ok out
  | some d =>
    match d.intValue with
    | none => .error (swRangeError key lo hi)
    | some x => if lo ≤ x ∧ x ≤ hi then .ok x else .error (swRangeError key lo hi)

def swReadValues (o : SwOptions) : Except Thrown SwOpts := do
  let matched ← swIntOpt "match" 1 swScoreLimit o.matched 2
  let mismatch ← swIntOpt "mismatch" (-swScoreLimit) swScoreLimit o.mismatch (-1)
  let gap ← swIntOpt "gap" (-swScoreLimit) 0 o.gap (-1)
  if matched < mismatch then .error (.rangeError "SmithWaterman: mismatch must not exceed match")
  else do
    let band ← swIntOpt "band" 0 (2 ^ 30) o.band (-1)
    let diagonal ← swIntOpt "diagonal" (-2 ^ 30) (2 ^ 30) o.diagonal 0
    .ok ⟨matched, mismatch, gap, band, diagonal, o.traceback.getD true⟩

def swReadOpts (opts : Option SwOptions) : Except Thrown SwOpts :=
  match opts with
  | none => .ok ⟨2, -1, -1, -1, 0, true⟩
  | some o =>
    match o.names.find? fun name => !swKeys.contains name with
    | some name => .error (.typeError ("SmithWaterman: unknown option \"" ++ name ++
        "\" (valid: match, mismatch, gap, band, diagonal, traceback)"))
    | none => swReadValues o

/-- A sequence: a string, or the words of a typed array of four bytes each. -/
inductive SwInput where
  | text (s : JsString)
  | tokens (t : List UInt32)

def Operand.values (o : Operand) : List Nat := if o.ascii then o.u8.map UInt8.toNat else o.cp

def swSequences (a b : SwInput) : Except Thrown (List Nat × List Nat) :=
  match a, b with
  | .text s, .text t => do
    let A ← operandGet s "a"
    let B ← operandGet t "b"
    if A.ascii != B.ascii then .ok ((operandWiden A).values, (operandWiden B).values) else .ok (A.values, B.values)
  | .tokens s, .tokens t => .ok (s.map UInt32.toNat, t.map UInt32.toNat)
  | _, _ => .error (.typeError "SmithWaterman: a and b must both be strings or both be 4-byte typed arrays")

structure SwGrid where
  a : List Nat
  b : List Nat
  o : SwOpts
  width : Nat
  lo : Int
  hi : Int

def swGrid (a b : List Nat) (o : SwOpts) : SwGrid :=
  if 0 ≤ o.band then ⟨a, b, o, (2 * o.band + 1).toNat, o.diagonal - o.band, o.diagonal + o.band⟩
  else ⟨a, b, o, b.length + 1, -(a.length : Int), b.length⟩

def swScore (a b : List Nat) (o : SwOpts) (i j : Nat) : Int := if a[i]? = b[j]? then o.matched else o.mismatch

variable (g : SwGrid)

def swCol (i j : Nat) : Nat := if 0 ≤ g.o.band then ((j : Int) - i - g.lo).toNat else j

def wrap32 (x : Int) : Int := Int.bmod x (2 ^ 32)

structure SwFill where
  cur : Nat → Int
  trace : Nat → Nat → Option Op
  best : Int
  bi : Nat
  bj : Nat

def swValue (diag up left score gap : Int) : Int × Option Op :=
  let d := wrap32 (diag + score)
  let u := wrap32 (up + gap)
  let l := wrap32 (left + gap)
  let v := if 0 < d then d else 0
  let v := if v < u then u else v
  let v := if v < l then l else v
  (v, if v = 0 then none else if v = d then some .both else if v = u then some .first else some .second)

def swCell (i : Nat) (prev : Nat → Int) (s : SwFill) (j : Nat) : SwFill :=
  let r := swValue (prev (j - 1)) (prev j) (s.cur (j - 1)) (swScore g.a g.b g.o (i - 1) (j - 1)) g.o.gap
  { cur := update s.cur j r.1
    trace :=
      if g.o.traceback then update s.trace (i - 1) (update (s.trace (i - 1)) (swCol g i j) r.2)
      else s.trace
    best := if s.best < r.1 then r.1 else s.best
    bi := if s.best < r.1 then i else s.bi
    bj := if s.best < r.1 then j else s.bj }

def swCells (g : SwGrid) (i : Nat) (prev : Nat → Int) : Nat → Nat → SwFill → SwFill
  | 0, _, s => s
  | count + 1, j, s => swCells g i prev count (j + 1) (swCell g i prev s j)

def swFrom (i : Nat) : Nat := if (i : Int) + g.lo < 1 then 1 else ((i : Int) + g.lo).toNat

def swTo (i : Nat) : Nat :=
  if (g.b.length : Int) < i + g.hi then g.b.length else if (i : Int) + g.hi < 0 then 0 else ((i : Int) + g.hi).toNat

def swClear (m j0 : Nat) (cur : Nat → Int) : Nat → Int :=
  let cur := if 2 ≤ j0 ∧ j0 - 1 ≤ m then update cur (j0 - 1) 0 else cur
  let cur := if 3 ≤ j0 ∧ j0 - 2 ≤ m then update cur (j0 - 2) 0 else cur
  update cur 0 0

def swRow (i : Nat) (prev : Nat → Int) (s : SwFill) : SwFill :=
  let j0 := swFrom g i
  let j1 := swTo g i
  let s := swCells g i prev (j1 + 1 - j0) j0 { s with cur := swClear g.b.length j0 s.cur }
  if j1 + 1 ≤ g.b.length ∧ j0 ≤ j1 + 1 then { s with cur := update s.cur (j1 + 1) 0 } else s

def swRows (g : SwGrid) : Nat → Nat → (Nat → Int) → SwFill → SwFill
  | 0, _, _, s => s
  | count + 1, i, prev, s => swRows g count (i + 1) (swRow g i prev s).cur { swRow g i prev s with cur := prev }

def swFill : SwFill := swRows g g.a.length 1 (fun _ => 0) ⟨fun _ => 0, fun _ _ => none, 0, 0, 0⟩

structure SwBack where
  ops : List Op
  hits : Nat
  i : Nat
  j : Nat

def swTraceback (g : SwGrid) (trace : Nat → Nat → Option Op) : Nat → Nat → Nat → SwBack
  | 0, i, j => ⟨[], 0, i, j⟩
  | fuel + 1, i, j =>
    if 0 < i ∧ 0 < j then
      let k : Int := if 0 ≤ g.o.band then (j : Int) - i - g.lo else j
      if k < 0 ∨ (g.width : Int) ≤ k then ⟨[], 0, i, j⟩
      else
        match trace (i - 1) k.toNat with
        | none => ⟨[], 0, i, j⟩
        | some .both =>
          let r := swTraceback g trace fuel (i - 1) (j - 1)
          { r with ops := .both :: r.ops, hits := r.hits + if g.a[i - 1]? = g.b[j - 1]? then 1 else 0 }
        | some .first =>
          let r := swTraceback g trace fuel (i - 1) j
          { r with ops := .first :: r.ops }
        | some .second =>
          let r := swTraceback g trace fuel i (j - 1)
          { r with ops := .second :: r.ops }
    else ⟨[], 0, i, j⟩

def swRuns : List Op → List (Nat × Op)
  | [] => []
  | op :: l =>
    match swRuns l with
    | [] => [(1, op)]
    | (run, next) :: rest => if op = next then (run + 1, op) :: rest else (1, op) :: (run, next) :: rest

def swLetter : Op → String
  | .both => "M"
  | .first => "I"
  | .second => "D"

def swCigar (ops : List Op) : String := String.join ((swRuns ops).map fun r => toString r.1 ++ swLetter r.2)

structure SwResult where
  score : Int
  aStart : Nat
  aEnd : Nat
  bStart : Nat
  bEnd : Nat
  details : Option (Nat × String)

def swRun (a b : List Nat) (o : SwOpts) : Except Thrown SwResult :=
  let g := swGrid a b o
  let n := a.length
  let cells := if n = 0 then 0 else if swMaxCells / n < g.width then 2 ^ 64 - 1 else n * g.width
  if swMaxCells < cells then
    .error (.rangeError ("SmithWaterman: " ++ toString n ++ " x " ++ toString b.length ++
      " exceeds 400000000 cells; pass \x7b band \x7d or shorten the input"))
  else if o.traceback ∧ swMaxTrace < cells then
    .error (.rangeError ("SmithWaterman: traceback over " ++ toString cells ++
      " cells exceeds 268435456; pass \x7b band \x7d, \x7b traceback: false \x7d or shorten the input"))
  else
    let s := swFill g
    if o.traceback then
      let r := swTraceback g s.trace (s.bi + s.bj) s.bi s.bj
      if s.best = 0 then .ok ⟨0, 0, 0, 0, 0, some (0, "")⟩
      else .ok ⟨s.best, r.i, s.bi, r.j, s.bj, some (r.hits, swCigar r.ops.reverse)⟩
    else .ok ⟨s.best, 0, s.bi, 0, s.bj, none⟩

def smithWaterman (a b : SwInput) (opts : Option SwOptions) : Except Thrown SwResult := do
  let o ← swReadOpts opts
  let (x, y) ← swSequences a b
  swRun x y o

end DynaJS.Approx
