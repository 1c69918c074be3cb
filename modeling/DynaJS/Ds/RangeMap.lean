import DynaJS.Ds.Gapvec
import DynaJS.Lib.Pieces

/-! The range map of `dyn-ds.c`: labelled spans in a gap vector. Endpoints are the
ordered values of the source, doubles without NaN there, any linear order here. A
cell is whatever the callbacks make of it. -/
namespace DynaJS.Ds

open Pieces

abbrev Rmap (α C : Type) := Gapvec (Piece α C)

def rmapSpanSize : Nat := 32

/-- `dyn_cell_dup_fn` and `dyn_cell_free_fn` with the user data `U` they run on. The
release may be absent. -/
structure Callbacks (U C : Type) where
  dup : U → C → U × C
  fn : Option (U → C → U)

variable {α C U : Type} [LinearOrder α] (cb : Callbacks U C)

def Callbacks.release (ud : U) (c : C) : U :=
  match cb.fn with
  | none => ud
  | some fn => fn ud c

variable (m : Rmap α C)

def rmFirstHiAbove (x : α) : Nat := m.firstWhere fun c => decide (x < c.hi)

def rmapNew (memory : Nat → Piece α C) : Rmap α C := ⟨memory, 0, 0, 0⟩

/-- What `rmap_carve` leaves: its return code, the map, the user data of the
callbacks and the position for a new span. -/
structure Carve (α C U : Type) where
  rc : Int
  map : Rmap α C
  ud : U
  pos : Nat

/-- The second half of `rmap_carve`, over the spans `[i, j)` that meet the interval:
trim the first, trim the last, release and delete what is left of them. -/
def carveTrim (lo hi : α) (ud : U) (ok : Bool) (i j : Nat) :
    Carve α C U :=
  let first := (m.gvAt i).lo < lo
  let m := if first then m.gvPut i { m.gvAt i with hi := lo } else m
  let i := if first then i + 1 else i
  let last := i < j ∧ hi < (m.gvAt (j - 1)).hi
  let m := if last then m.gvPut (j - 1) { m.gvAt (j - 1) with lo := hi } else m
  let j := if last then j - 1 else j
  if i < j then
    let ud := ((List.range' i (j - i)).map fun k => (m.gvAt k).val).foldl cb.release ud
    ⟨0, (m.splice rmapSpanSize i (j - i) [] ok).2, ud, i⟩
  else ⟨0, m, ud, i⟩

def rmapCarve (lo hi : α) (ud : U) (ok : Bool) :
    Carve α C U :=
  let i := rmFirstHiAbove m lo
  let j := m.skipWhile (fun c => decide (c.lo < hi)) m.len i
  if j = i then ⟨0, m, ud, i⟩
  else if (m.gvAt i).lo < lo ∧ hi < (m.gvAt (j - 1)).hi ∧ j - i = 1 then
    let copy := cb.dup ud (m.gvAt i).val
    let r := m.splice rmapSpanSize (i + 1) 0 [⟨hi, (m.gvAt i).hi, copy.2⟩] ok
    if r.1 < 0 then ⟨-1, r.2, cb.release copy.1 copy.2, i⟩
    else ⟨0, r.2.gvPut i { r.2.gvAt i with hi := lo }, copy.1, i + 1⟩
  else carveTrim cb m lo hi ud ok i j

/-- `dyn_rmap_put`. The flags are the outcomes of the two `realloc` calls, should they
be made: the one of the carving and the one for the new span. -/
def rmapPut (lo hi : α) (v : C) (ud : U) (ok ok' : Bool) : Int × Rmap α C × U :=
  if ¬ lo < hi then (0, m, ud)
  else
    let c := rmapCarve cb m lo hi ud ok
    if c.rc < 0 then (-1, c.map, c.ud)
    else
      let r := c.map.splice rmapSpanSize c.pos 0 [⟨lo, hi, v⟩] ok'
      (r.1, r.2, c.ud)

def rmapRemove (lo hi : α) (ud : U) (ok : Bool) : Int × Rmap α C × U :=
  if ¬ lo < hi then (0, m, ud)
  else
    let c := rmapCarve cb m lo hi ud ok
    (c.rc, c.map, c.ud)

def rmapGet (x : α) : Option C :=
  let i := rmFirstHiAbove m x
  if i < m.len ∧ (m.gvAt i).lo ≤ x then some (m.gvAt i).val else none

structure Rmap.Valid (m : Rmap α C) : Prop where
  wf : m.Wf
  ordered : InOrder m.toList

theorem rmapNew_valid (memory : Nat → Piece α C) : (rmapNew memory).Valid :=
  ⟨⟨Nat.le_refl _, Nat.le_refl _, .inl rfl⟩, inOrder_nil⟩

variable {m : Rmap α C}

variable (v : m.Valid)
include v

theorem rmap_proper {i : Nat} (h : i < m.len) :
    (m.gvAt i).lo < (m.gvAt i).hi := v.ordered.proper _ (Gapvec.gvAt_mem h)

theorem rmap_apart {i j : Nat} (h : i < j) (hj : j < m.len) : (m.gvAt i).hi ≤ (m.gvAt j).lo := by
  have pairs := List.pairwise_iff_getElem.mp v.ordered.apart i j (by simp; omega) (by simpa) h
  simpa [Gapvec.toList] using pairs

theorem rmFirstHiAbove_splits (x : α) :
    Search.Splits (fun i => decide (x < (m.gvAt i).hi)) 0 m.len (rmFirstHiAbove m x) := by
  refine Gapvec.firstWhere_splits v.wf (fun c => decide (x < c.hi)) fun i j _ h hj hit => ?_
  rcases Nat.eq_or_lt_of_le h with rfl | less
  · exact hit
  · have := rmap_apart v less hj
    have := rmap_proper v hj
    simp only [decide_eq_true_eq] at hit ⊢
    order

theorem rmapGet_iff (x : α) (c : C) : rmapGet m x = some c ↔ Gives id m.toList x c := by
  have found := rmFirstHiAbove_splits v x
  simp only [rmapGet]
  generalize rmFirstHiAbove m x = r at found
  have gives : Gives id m.toList x c ↔ ∃ i, i < m.len ∧ (m.gvAt i).Covers x ∧ (m.gvAt i).val = c := by
    constructor
    · rintro ⟨s, hs, h⟩
      obtain ⟨i, hi, rfl⟩ := List.mem_map.mp hs
      exact ⟨i, List.mem_range.mp hi, h⟩
    · rintro ⟨i, hi, h⟩
      exact ⟨_, Gapvec.gvAt_mem hi, h⟩
  rw [gives]
  constructor
  · intro h
    split at h
    · rename_i hit
      have above : x < (m.gvAt r).hi := by simpa using found.after r (Nat.le_refl _) hit.1
      exact ⟨r, hit.1, ⟨hit.2, above⟩, Option.some.inj h⟩
    · contradiction
  · rintro ⟨i, hi, ⟨h₁, h₂⟩, rfl⟩
    have here : r = i := by
      rcases Nat.lt_trichotomy i r with before | rfl | behind
      · have : (m.gvAt i).hi ≤ x := by simpa using found.before i (Nat.zero_le _) before
        order
      · rfl
      · have : x < (m.gvAt r).hi := by simpa using found.after r (Nat.le_refl _) (by omega)
        have := rmap_apart v behind hi
        order
    rw [here, if_pos ⟨hi, h₁⟩]

end DynaJS.Ds
