import Mathlib.Algebra.Group.Nat.Defs
import Mathlib.Data.List.DropRight
import DynaJS.Semver.Version

/-! The version and range parsers of `dyna-semver.c`, on the bytes of a string. -/
namespace DynaJS.Semver

def svMaxSafe : Nat := 9007199254740991

def svIsDigit (c : UInt8) : Bool := 48 ≤ c && c ≤ 57

def svWsChar : List UInt8 → Nat
  | 0xC2 :: 0xA0 :: _ => 2
  | 0xE1 :: 0x9A :: 0x80 :: _ => 3
  | 0xE2 :: 0x80 :: d :: _ => if (0x80 ≤ d && d ≤ 0x8A) || d == 0xA8 || d == 0xA9 || d == 0xAF then 3 else 0
  | 0xE2 :: 0x81 :: 0x9F :: _ => 3
  | 0xE3 :: 0x80 :: 0x80 :: _ => 3
  | 0xEF :: 0xBB :: 0xBF :: _ => 3
  | c :: _ => if (9 ≤ c && c ≤ 13) || c == 32 then 1 else 0
  | [] => 0

def svWsLead : Nat → List UInt8 → List UInt8
  | 0, s => s
  | fuel + 1, s => if svWsChar s = 0 then s else svWsLead fuel (s.drop (svWsChar s))

def svWsTrail : Nat → List UInt8 → List UInt8
  | 0, s => s
  | fuel + 1, s =>
    match [1, 2, 3].find? fun k : Nat => k ≤ s.length && svWsChar (s.drop (s.length - k)) == k with
    | none => s
    | some k => svWsTrail fuel (s.take (s.length - k))

variable (s : List UInt8)

def svParseNum : Option Nat :=
  if s.length = 0 ∨ 16 < s.length then none
  else if 1 < s.length ∧ s.head? = some 48 then none
  else if ¬ s.all svIsDigit then none
  else
    let v := s.foldl (fun v c => v * 10 + (c.toNat - 48)) 0
    if svMaxSafe < v then none else some v

def svParseId (isBuild : Bool) (id : List UInt8) : Option Id :=
  let alldig := id.all svIsDigit
  if id.length = 0 then none
  else if ¬ id.all fun c => svIsDigit c || (97 ≤ c && c ≤ 122) || (65 ≤ c && c ≤ 90) || c == 45 then none
  else if ¬ isBuild ∧ alldig ∧ 1 < id.length ∧ id.head? = some 48 then none
  else if ¬ isBuild ∧ alldig ∧ 16 ≤ id.length ∧ (id.foldlM (fun v c =>
        let d := c.toNat - 48
        if (2 ^ 64 - 1 - d) / 10 < v then none
        else if svMaxSafe < v * 10 + d then none
        else some (v * 10 + d)) 0).isNone then none
  else some ⟨id, alldig⟩

def svParseIds (isBuild : Bool) : Option (List Id) :=
  let parts := s.splitOn 46
  if 24 < parts.length then none else parts.mapM (svParseId isBuild)

def dropV : List UInt8 → List UInt8
  | 118 :: s => s
  | s => s

def takeNum : Option (Nat × List UInt8) :=
  (svParseNum (s.takeWhile svIsDigit)).map fun v => (v, s.dropWhile svIsDigit)

def takeDot : List UInt8 → Option (List UInt8)
  | 46 :: s => some s
  | _ => none

def takePre : List UInt8 → Option (List Id × List UInt8)
  | 45 :: s => (svParseIds (s.takeWhile (· != 43)) false).map fun ids => (ids, s.dropWhile (· != 43))
  | s => some ([], s)

def takeBuild : List UInt8 → Option (List Id × List UInt8)
  | 43 :: s => (svParseIds s true).map fun ids => (ids, [])
  | s => some ([], s)

def semverParse : Option SemVer := do
  let s := svWsLead s.length s
  let s := dropV (svWsTrail s.length s)
  let (major, s) ← takeNum s
  let s ← takeDot s
  let (minor, s) ← takeNum s
  let s ← takeDot s
  let (patch, s) ← takeNum s
  let (pre, s) ← takePre s
  let (build, s) ← takeBuild s
  if s = [] then some ⟨major, minor, patch, pre, build⟩ else none

inductive Op where
  | lt | lte | gt | gte | eq | tilde | caret
deriving DecidableEq, Repr

structure Comparator where
  op : Op
  v : SemVer
deriving DecidableEq, Repr

abbrev CompSet := List Comparator

abbrev Range := List CompSet

structure XRange where
  xM : Bool
  xm : Bool
  xp : Bool
  M : Nat
  m : Nat
  p : Nat
  pre : List Id

def svZero : Id := ⟨[48], true⟩

variable (set : CompSet)

def svAddCmp (op : Op) (M m p : Nat) (pre : List Id) (addZero : Bool) : Option CompSet :=
  if 24 ≤ set.length then none
  else if addZero then some (set ++ [⟨op, ⟨M, m, p, [svZero], []⟩⟩])
  else if 24 < pre.length then none
  else some (set ++ [⟨op, ⟨M, m, p, pre, []⟩⟩])

def partialTokens : Nat → List UInt8 → Option (List (Option Nat) × List UInt8)
  | 0, s => some ([], s)
  | t + 1, s =>
    let tk := s.takeWhile fun c => c != 46 && c != 45 && c != 43
    let rest := s.dropWhile fun c => c != 46 && c != 45 && c != 43
    if tk.length = 0 then none
    else
      (if tk = [120] ∨ tk = [88] ∨ tk = [42] then some none else (svParseNum tk).map some).bind fun num =>
        match t, rest with
        | t + 1, 46 :: rest => (partialTokens (t + 1) rest).map fun r => (num :: r.1, r.2)
        | _, rest => some ([num], rest)

def parsePartial : Option XRange :=
  let s := dropV s
  if s = [] then some ⟨true, true, true, 0, 0, 0, []⟩
  else
    (partialTokens 3 s).bind fun (nums, s) =>
      let at' (t : Nat) : Option Nat := (nums[t]?).join
      let xM := (at' 0).isNone
      let xm := xM || (at' 1).isNone
      let xp := xm || (at' 2).isNone
      let x : XRange := ⟨xM, xm, xp, if xM then 0 else (at' 0).getD 0, (at' 1).getD 0, (at' 2).getD 0, []⟩
      if s.head? = some 45 ∨ s.head? = some 43 then
        if nums.length < 3 then none
        else
          (takePre s).bind fun (ids, s) =>
            (takeBuild s).bind fun (_, s) =>
              if s = [] then some { x with pre := if ¬ (xM || xm || xp) then ids else [] } else none
      else if s = [] then some x else none

def expandCaret (x : XRange) : Option CompSet :=
  if x.xM then svAddCmp set .gte 0 0 0 [] false
  else if x.xm then do svAddCmp (← svAddCmp set .gte x.M 0 0 [] false) .lt (x.M + 1) 0 0 [] true
  else if x.xp then do
    let set ← svAddCmp set .gte x.M x.m 0 [] false
    if x.M = 0 then svAddCmp set .lt x.M (x.m + 1) 0 [] true else svAddCmp set .lt (x.M + 1) 0 0 [] true
  else do
    let set ← svAddCmp set .gte x.M x.m x.p x.pre false
    if x.M ≠ 0 then svAddCmp set .lt (x.M + 1) 0 0 [] true
    else if x.m ≠ 0 then svAddCmp set .lt x.M (x.m + 1) 0 [] true
    else svAddCmp set .lt x.M x.m (x.p + 1) [] true

def expandTilde (x : XRange) : Option CompSet :=
  if x.xM then svAddCmp set .gte 0 0 0 [] false
  else if x.xm then do svAddCmp (← svAddCmp set .gte x.M 0 0 [] false) .lt (x.M + 1) 0 0 [] true
  else do
    let set ← svAddCmp set .gte x.M x.m (if x.xp then 0 else x.p) (if x.xp then [] else x.pre) false
    svAddCmp set .lt x.M (x.m + 1) 0 [] true

def expandOp (op : Op) (x : XRange) : Option CompSet :=
  if ¬ (x.xM || x.xm || x.xp) then svAddCmp set op x.M x.m x.p x.pre false
  else if x.xM then
    if op = .gt ∨ op = .lt then svAddCmp set .lt 0 0 0 [] true else svAddCmp set .gte 0 0 0 [] false
  else
    let m := if x.xm then 0 else x.m
    match op with
    | .eq =>
      if x.xm then do svAddCmp (← svAddCmp set .gte x.M 0 0 [] false) .lt (x.M + 1) 0 0 [] true
      else do svAddCmp (← svAddCmp set .gte x.M x.m 0 [] false) .lt x.M (x.m + 1) 0 [] true
    | .gt => if x.xm then svAddCmp set .gte (x.M + 1) 0 0 [] false else svAddCmp set .gte x.M (m + 1) 0 [] false
    | .lte => if x.xm then svAddCmp set .lt (x.M + 1) 0 0 [] true else svAddCmp set .lt x.M (m + 1) 0 [] true
    | .gte => svAddCmp set .gte x.M m 0 [] false
    | .lt => svAddCmp set .lt x.M m 0 [] true
    | _ => none

def hyphenLower (lo : XRange) : Option CompSet :=
  if lo.xM then some set
  else if lo.xm then svAddCmp set .gte lo.M 0 0 [] false
  else if lo.xp then svAddCmp set .gte lo.M lo.m 0 [] false
  else svAddCmp set .gte lo.M lo.m lo.p lo.pre false

def hyphenUpper (hi : XRange) : Option CompSet :=
  if hi.xM then some set
  else if hi.xm then svAddCmp set .lt (hi.M + 1) 0 0 [] true
  else if hi.xp then svAddCmp set .lt hi.M (hi.m + 1) 0 [] true
  else svAddCmp set .lte hi.M hi.m hi.p hi.pre false

def expandHyphen (lo hi : XRange) : Option CompSet := do hyphenUpper (← hyphenLower set lo) hi

def svIsSpace (c : UInt8) : Bool := c == 32 || c == 9 || c == 10 || c == 13 || c == 11 || c == 12

def parseOp : List UInt8 → Option Op
  | [] => some .eq
  | [61] => some .eq
  | [62] => some .gt
  | [60] => some .lt
  | [126] => some .tilde
  | [94] => some .caret
  | [62, 61] => some .gte
  | [60, 61] => some .lte
  | [126, 62] => some .tilde
  | _ => none

/-- The operator, the version and the rest of a text that starts with a comparator. -/
def parseWord (s : List UInt8) : Option (Op × XRange × List UInt8) :=
  let isOp (c : UInt8) : Bool := c == 60 || c == 62 || c == 61 || c == 126 || c == 94
  (parseOp (s.takeWhile isOp)).bind fun op =>
    let s := (s.dropWhile isOp).dropWhile svIsSpace
    let word := s.takeWhile fun c => !svIsSpace c
    if word = [] then none
    else (parsePartial word).map fun x => (op, x, s.dropWhile fun c => !svIsSpace c)

def parseComparators : Nat → List UInt8 → CompSet → Option CompSet
  | 0, _, set => some set
  | fuel + 1, s, set =>
    let s := s.dropWhile svIsSpace
    if s = [] then some set
    else
      (parseWord s).bind fun (op, x, s) =>
        (match op with
          | .caret => expandCaret set x
          | .tilde => expandTilde set x
          | op => expandOp set op x).bind fun set => parseComparators fuel s set

/-- The two sides of the first hyphen with a space on each side. -/
def splitHyphen (s : List UInt8) : Option (List UInt8 × List UInt8) :=
  ((List.range s.length).find? fun k : Nat =>
    1 ≤ k && k + 1 < s.length && s.getD k 0 == 45 && svIsSpace (s.getD (k - 1) 0) &&
      svIsSpace (s.getD (k + 1) 0)).map fun k =>
    ((s.take k).rdropWhile svIsSpace, (s.drop (k + 1)).dropWhile svIsSpace)

def parseSet : Option CompSet :=
  let s := (s.dropWhile svIsSpace).rdropWhile svIsSpace
  if s = [] then some []
  else
    match splitHyphen s with
    | some (lo, hi) => (parsePartial lo).bind fun lo => (parsePartial hi).bind fun hi => expandHyphen [] lo hi
    | none => parseComparators s.length s []

def splitBars : List UInt8 → List UInt8 → List (List UInt8)
  | part, 124 :: 124 :: s => part.reverse :: splitBars [] s
  | part, c :: s => splitBars (c :: part) s
  | part, [] => [part.reverse]

def parseRange : Option Range :=
  let parts := splitBars [] s
  if 16 < parts.length then none
  else parts.mapM fun part => (parseSet part).bind fun set =>
    if set = [] then svAddCmp [] .gte 0 0 0 [] false else some set

end DynaJS.Semver
