import DynaJS.Ds.Gapvec
import DynaJS.Lib.Spans

/-! The range set of `dyn-ds.c`. Endpoints are the ordered values of the source,
doubles without NaN there, any linear order here. -/
namespace DynaJS.Ds

open Spans

abbrev Rset (α : Type) := Gapvec (Span α)

def spanSize : Nat := 16

variable {α : Type} [LinearOrder α]

def hiAbove (x : α) (strict : Bool) (c : Span α) : Bool :=
  if strict then x < c.hi else x ≤ c.hi

variable (s : Rset α)

def rsFirstHi (x : α) (strict : Bool) : Nat := s.firstWhere (hiAbove x strict)

def rsetNew (memory : Nat → Span α) : Rset α := ⟨memory, 0, 0, 0⟩

def rsetClear : Rset α := { s with len := 0, gs := 0 }

def rsetLower (x : α) : Nat := rsFirstHi s x true

def addLoop (s : Rset α) : Nat → Nat → Span α → Nat × Span α
  | 0, j, merged => (j, merged)
  | fuel + 1, j, merged =>
    if j < s.len ∧ (s.gvAt j).lo ≤ merged.hi then
      let c := s.gvAt j
      addLoop s fuel (j + 1) ⟨if c.lo < merged.lo then c.lo else merged.lo,
          if merged.hi < c.hi then c.hi else merged.hi⟩
    else (j, merged)

variable (lo hi : α)

def rsetAdd (ok : Bool) : Int × Rset α :=
  if ¬ lo < hi then (0, s)
  else
    let i := rsFirstHi s lo false
    let r := addLoop s s.len i ⟨lo, hi⟩
    s.splice spanSize i (r.1 - i) [r.2] ok

def removeLoop (s : Rset α) (hi : α) : Nat → Nat → Nat
  | 0, j => j
  | fuel + 1, j => if j < s.len ∧ (s.gvAt j).lo < hi then removeLoop s hi fuel (j + 1) else j

def rsetRemove (ok : Bool) : Int × Rset α :=
  if ¬ lo < hi then (0, s)
  else
    let i := rsetLower s lo
    let j := removeLoop s hi s.len i
    if j = i then (0, s)
    else
      let left := if (s.gvAt i).lo < lo then [⟨(s.gvAt i).lo, lo⟩] else []
      let right := if hi < (s.gvAt (j - 1)).hi then [⟨hi, (s.gvAt (j - 1)).hi⟩] else []
      s.splice spanSize i (j - i) (left ++ right) ok

def rsetContains (x : α) : Bool :=
  let i := rsetLower s x
  i < s.len && (s.gvAt i).lo ≤ x

def rsetEncloses : Bool :=
  if ¬ lo < hi then true
  else
    let i := rsetLower s lo
    i < s.len && (s.gvAt i).lo ≤ lo && hi ≤ (s.gvAt i).hi

def rsetIntersects : Bool :=
  if ¬ lo < hi then false
  else
    let i := rsetLower s lo
    i < s.len && (s.gvAt i).lo < hi

/-- The loop of `dyn_rset_complement` over the spans from `i` on, with the cursor
`cur`. The `n`-th allocation outcome serves the `add` of the `n`-th span. -/
def complementLoop (s : Rset α) (hi : α) (ok : Nat → Bool) : Nat → Nat → α → Rset α → Int × α × Rset α
  | 0, _, cur, out => (0, cur, out)
  | fuel + 1, i, cur, out =>
    if i < s.len then
      let c := s.gvAt i
      if c.hi ≤ cur then complementLoop s hi ok fuel (i + 1) cur out
      else if hi ≤ c.lo then (0, cur, out)
      else
        let added := if cur < c.lo then rsetAdd out cur c.lo (ok i) else (0, out)
        if added.1 < 0 then (-1, cur, added.2)
        else
          let cur := if cur < c.hi then c.hi else cur
          if hi ≤ cur then (0, cur, added.2)
          else complementLoop s hi ok fuel (i + 1) cur added.2
    else (0, cur, out)

def rsetComplement (out : Rset α) (ok : Nat → Bool) : Int × Rset α :=
  let out := rsetClear out
  if ¬ lo < hi then (0, out)
  else
    let r := complementLoop s hi ok s.len 0 lo out
    if r.1 < 0 then (-1, r.2.2)
    else if r.2.1 < hi then rsetAdd r.2.2 r.2.1 hi (ok s.len)
    else (0, r.2.2)

end DynaJS.Ds
