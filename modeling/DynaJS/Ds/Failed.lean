import DynaJS.Ds.RangeMapRun
import DynaJS.Ds.RangeSetRun
import DynaJS.Ds.MsetRun
import DynaJS.Ds.Mmap
import DynaJS.Ds.BimapFailed
import DynaJS.Ds.TableRun
import DynaJS.Ds.BtreeRun

/-! Calls that return -1. For every container of `dyn-ds.c` the contents are what its
lookups, its size and its enumerations tell a caller; a failed call leaves them alone,
except for one order of events in `dyn_rmap_put`. -/
namespace DynaJS.Ds

open Spans Pieces

section Keyed

variable {K V : Type} [DecidableEq K] {hash : K → Nat}

inductive MsetReached (hash : K → Nat) : Mset K → Prop
  | new : MsetReached hash msetNew
  | call {m} (op : MsetOp K) : MsetReached hash m → MsetReached hash (op.exec hash m).2
  | clear {m} : MsetReached hash m → MsetReached hash (msetClear m)

theorem MsetReached.valid {m : Mset K} (reached : MsetReached hash m) : m.Valid hash := by
  induction reached with
  | new => exact msetNew_valid
  | call op _ ih => exact (msetOp_outcome ih op).valid
  | clear _ ih => exact msetClear_valid ih

/-- `dyn_mset_count`, `dyn_mset_distinct`, `dyn_mset_total` and the entries of
`dyn_mset_at`. -/
def msetContents (hash : K → Nat) (m : Mset K) : (K → Nat) × Nat × Nat × Set (K × Nat) :=
  (msetCount hash m, msetDistinct m, msetTotal m, {p | ∃ r ∈ m.recs, (r.key, r.count) = p})

theorem mset_failed {m : Mset K} (v : m.Valid hash) (op : MsetOp K) (failed : (op.exec hash m).1 = -1) :
    msetContents hash (op.exec hash m).2 = msetContents hash m := by
  rcases (msetOp_outcome v op).result with ⟨rc, _⟩ | ⟨_, recs, ix, total, _⟩
  · rw [failed] at rc
    contradiction
  · have counts : msetCount hash (op.exec hash m).2 = msetCount hash m := by
      funext k
      simp only [msetCount, Mset.countAt, recs, ix]
    simp only [msetContents, counts, msetDistinct, msetTotal, recs, total]

/-- `dyn_mmap_cells_for`, `dyn_mmap_keys`, `dyn_mmap_size` and the entries of
`dyn_mmap_cells_at`. -/
def mmapContents (hash : K → Nat) (m : Mmap K V) : (K → List V) × Nat × Nat × Set (K × List V) :=
  (mmapCellsFor hash m, m.recs.length, m.total, {p | ∃ r ∈ m.recs, (r.key, r.vals) = p})

theorem mmap_failed {m : Mmap K V} (v : m.Valid hash) (k : K) (val : V) (mem : Nat → Bool)
    (failed : (mmapPut hash m k val mem).1 = -1) :
    mmapContents hash (mmapPut hash m k val mem).2 = mmapContents hash m := by
  rcases (mmapPut_spec v k val mem).2 with ⟨rc, _⟩ | ⟨_, recs, ix, total, _⟩
  · rw [failed] at rc
    contradiction
  · simp only [mmapContents, mmapCellsFor_eq, recs, ix, total]

/-- `dyn_bimap_get`, `dyn_bimap_key_for`, `dyn_bimap_size` and the entries of
`dyn_bimap_at`. -/
def bimapContents (hash : K → Nat) (b : Bimap K) : (K → Option K) × (K → Option K) × Nat × Set (K × K) :=
  (bimapGet hash b, bimapKeyFor hash b, b.recs.length, pairSet b)

theorem bimapContents_same {b b' : Bimap K} (same : SameBimap hash b b') :
    bimapContents hash b' = bimapContents hash b := by
  have gets : bimapGet hash b' = bimapGet hash b := by
    funext k
    simp only [bimapGet_eq, recFor, same.fwd, same.recs]
  have keys : bimapKeyFor hash b' = bimapKeyFor hash b := by
    funext v
    simp only [bimapKeyFor_eq, recFor, same.rev, same.recs]
  simp only [bimapContents, gets, keys, pairSet, same.recs]

end Keyed

section Table

variable {V : Type} {hash : List UInt8 → Nat}

/-- `dyn_table_get`, `dyn_table_size`, the entries of `dyn_table_at` and those a slice
query shows. -/
def tableContents (hash : List UInt8 → Nat) (t : Table V) :
    (List UInt8 → List UInt8 → Bool → Option V) × Nat × Set ((List UInt8 × List UInt8) × V) ×
      (List UInt8 → Bool → (Nat → Bool) → Option (Set (Option (TableRec V)))) :=
  (tableGet hash t, t.recs.length, {p | ∃ x ∈ t.recs, (x.pos, x.val) = p},
    fun k b mem => (tableSlice hash t k b mem).map fun l => {x | ∃ i ∈ l, t.recs[i]? = x})

theorem tableBuildSlices_cap (t : Table V) (cap : Nat) (mem : Nat → Bool) :
    tableBuildSlices { t with cap := cap } mem =
      ((tableBuildSlices t mem).1, { (tableBuildSlices t mem).2 with cap := cap }) := by
  unfold tableBuildSlices
  cases sliceReserve t.sliceCap t.recs.length mem with
  | none => rfl
  | some c =>
    cases buildLoop t.recs (fun n => mem (n + 2)) (t.recs.length - t.sliced) t.sliced (t.row, t.col) <;> rfl

/-- Nothing a caller sees depends on the capacity of the record array. -/
theorem tableContents_cap (t : Table V) (cap : Nat) :
    tableContents hash { t with cap := cap } = tableContents hash t := by
  have slices : ∀ k b mem, tableSlice hash { t with cap := cap } k b mem = tableSlice hash t k b mem := by
    intro k b mem
    simp only [tableSlice, tableSliceFirst, tableBuildSlices_cap]
    by_cases unbuilt : ¬ t.slicesValid ∨ t.sliced ≠ t.recs.length
    · simp only [if_pos unbuilt]
      split_ifs <;> rfl
    · simp only [if_neg unbuilt]
      rfl
  simp only [tableContents, slices]
  rfl

theorem table_failed {t : Table V} (v : t.Valid hash) {M : List UInt8 × List UInt8 → Option V}
    (R : Represents t.recs M) (r c : List UInt8) (val : V) (mem : Nat → Bool)
    (failed : (tablePut hash t r c val mem).1 = -1) :
    tableContents hash (tablePut hash t r c val mem).2.1 = tableContents hash t := by
  rcases (tablePut_spec v R r c val mem).2 with ⟨_, ⟨cap, eq⟩, _⟩ | ⟨rc, _⟩
  · rw [eq, tableContents_cap]
  · rw [failed] at rc
    split_ifs at rc

end Table

section Ranges

variable {α V : Type} [LinearOrder α]

inductive RsetReached : Rset α → Prop
  | new (memory : Nat → Span α) : RsetReached (rsetNew memory)
  | call {s} (op : RsetOp α) : RsetReached s → RsetReached (op.exec s).2
  | clear {s} : RsetReached s → RsetReached (rsetClear s)
  | complement {s out} (lo hi : α) (ok : Nat → Bool) : RsetReached s → RsetReached out →
      RsetReached (rsetComplement s lo hi out ok).2

theorem complementLoop_valid (s : Rset α) (hi : α) (ok : Nat → Bool) (fuel i : Nat) (cur : α)
    {out : Rset α} (v : out.Valid) : (complementLoop s hi ok fuel i cur out).2.2.Valid := by
  induction fuel generalizing i cur out with
  | zero => exact v
  | succ fuel ih =>
    have added : (if cur < (s.gvAt i).lo then rsetAdd out cur (s.gvAt i).lo (ok i) else (0, out)).2.Valid := by
      split_ifs
      · exact (rsetAdd_step v _ _ _).1
      · exact v
    unfold complementLoop
    dsimp only
    generalize (if cur < (s.gvAt i).lo then rsetAdd out cur (s.gvAt i).lo (ok i) else (0, out)) = r at *
    split_ifs <;> first | exact v | exact ih _ _ v | exact added | exact ih _ _ added

theorem RsetReached.valid {s : Rset α} (reached : RsetReached s) : s.Valid := by
  induction reached with
  | new memory => exact rsetNew_valid memory
  | call op _ ih => exact (rsetOp_step ih op).1
  | clear _ ih => exact rsetClear_valid ih.wf
  | @complement s out lo hi ok _ _ _ ih =>
    have cleared := rsetClear_valid ih.wf
    have looped := complementLoop_valid s hi ok s.len 0 lo cleared
    unfold rsetComplement
    dsimp only
    by_cases h : lo < hi
    · rw [if_neg (not_not.mpr h)]
      split_ifs
      · exact looped
      · exact (rsetAdd_step looped _ _ _).1
      · exact looped
    · rw [if_pos h]
      exact cleared

/-- `dyn_rset_contains`, `dyn_rset_encloses`, `dyn_rset_intersects`, `dyn_rset_count` and
the spans of `dyn_rset_at`. -/
def rsetContents (s : Rset α) : (α → Bool) × (α → α → Bool) × (α → α → Bool) × Nat × List (Span α) :=
  (rsetContains s, rsetEncloses s, rsetIntersects s, s.len, s.toList)

theorem rset_failed {s : Rset α} (v : s.Valid) (op : RsetOp α) (failed : (op.exec s).1 = -1) :
    rsetContents (op.exec s).2 = rsetContents s := by
  obtain ⟨v', ⟨rc, _⟩ | ⟨_, same, _⟩⟩ := rsetOp_step v op
  · rw [failed] at rc
    contradiction
  · generalize (op.exec s).2 = s' at *
    have len : s'.len = s.len := by rw [← s'.toList_length, same, s.toList_length]
    have contains : rsetContains s' = rsetContains s := by
      funext x
      rw [Bool.eq_iff_iff, rsetContains_iff v', rsetContains_iff v, same]
    have encloses : rsetEncloses s' = rsetEncloses s := by
      funext lo hi
      by_cases h : lo < hi
      · rw [Bool.eq_iff_iff, rsetEncloses_iff v' h, rsetEncloses_iff v h, same]
      · simp only [rsetEncloses, if_pos h]
    have intersects : rsetIntersects s' = rsetIntersects s := by
      funext lo hi
      by_cases h : lo < hi
      · rw [Bool.eq_iff_iff, rsetIntersects_iff v' h, rsetIntersects_iff v h, same]
      · simp only [rsetIntersects, if_pos h]
    simp only [rsetContents, contains, encloses, intersects, len, same]

/-- `dyn_rmap_get`, `dyn_rmap_count` and the spans of `dyn_rmap_at`. -/
def rmapContents (m : Rmap α (Cell V)) : (α → Option V) × Nat × List (α × α × V) :=
  (fun x => (rmapGet m x).map Cell.val, m.len, m.toList.map fun c => (c.lo, c.hi, c.val.val))

theorem rmapContents_same {m m' : Rmap α (Cell V)} (v : m.Valid) (v' : m'.Valid)
    (same : m'.toList = m.toList) : rmapContents m' = rmapContents m := by
  have len : m'.len = m.len := by rw [← m'.toList_length, same, m.toList_length]
  have get : rmapGet m' = rmapGet m := by
    funext x
    apply Option.ext
    intro c
    rw [rmapGet_iff v', rmapGet_iff v, same]
  simp only [rmapContents, get, len, same]

/-- The carving of a put is done and the span it makes room for is refused. -/
def LeftCarved (s : RmapState α V) (lo hi : α) (v : V) (ok ok' : Bool) : Prop :=
  let c := rmapCarve ledger s.map lo hi { s.book with handed := s.book.handed + 1 } ok
  lo < hi ∧ c.rc = 0 ∧ (c.map.splice rmapSpanSize c.pos 0 [⟨lo, hi, ⟨v, s.book.made⟩⟩] ok').1 = -1

def Meets (m : Rmap α (Cell V)) (lo hi : α) : Prop := ∃ x, lo ≤ x ∧ x < hi ∧ (rmapGet m x).isSome

/-- A put that trims spans or splits one, deletes none and then finds every slot in use, with no more to be had. -/
def Crowded (m : Rmap α (Cell V)) (lo hi : α) (ok' : Bool) : Prop :=
  lo < hi ∧ Meets m lo hi ∧ ¬ Inside m.toList lo hi ∧ (ok' = false ∨ m.cap = 2 ^ 31) ∧
    (Straddled m.toList lo hi ∧ m.len + 1 = m.cap ∨ ¬ Straddled m.toList lo hi ∧ m.len = m.cap)

theorem rmapCarve_clear {U C : Type} (cb : Callbacks U C) {m : Rmap α C} (v : m.Valid) {lo hi : α}
    (h : lo < hi) (clear : ∀ x, lo ≤ x → x < hi → rmapGet m x = none) (ud : U) (ok : Bool) :
    (rmapCarve cb m lo hi ud ok).map = m := by
  obtain ⟨pre, mid, post, lay, hi', hj⟩ := carve_layout v lo hi
  simp only [rmapCarve]
  rw [hj, hi']
  cases mid with
  | nil => rw [if_pos (by simp)]
  | cons c rest =>
    have ends := lay.ends c List.mem_cons_self
    have starts := lay.starts c List.mem_cons_self
    have member : c ∈ m.toList := by rw [lay.list]; simp
    have proper := v.ordered.proper c member
    -- The larger of the two lower ends is a point of both.
    have none_at := clear (max c.lo lo) (le_max_right _ _) (max_lt starts h)
    have some_at := (rmapGet_iff v (max c.lo lo) c.val).mpr ⟨c, member, ⟨le_max_left _ _, max_lt proper ends⟩, rfl⟩
    rw [none_at] at some_at
    contradiction

variable {s : RmapState α V}

variable (v : s.map.Valid)
include v

theorem crowded_iff (lo hi : α) (w : V) (ok ok' : Bool) :
    LeftCarved s lo hi w ok ok' ∧ Meets s.map lo hi ↔ Crowded s.map lo hi ok' := by
  by_cases h : lo < hi
  · have top := capacity_le v.wf.capacity
    simp only [LeftCarved, Crowded, h, true_and]
    rcases rmapCarve_spec (f := Cell.val) ledger (fun _ _ => rfl) v h
      { s.book with handed := s.book.handed + 1 } ok with ⟨pre, post, carved⟩ | ⟨rc, -, -, -, -, full, across⟩
    · rw [Gapvec.splice_refused_iff carved.wf (by decide) (by decide), List.length_singleton, carved.rc]
      have bound := carved.wf.room
      rcases carved.room with ⟨cap, len, across, free⟩ | ⟨less, ⟨full, across⟩ | inside⟩ | ⟨cap, len, across, free⟩
      · simp only [across, free]
        rw [len, cap] at bound ⊢
        grind
      · grind
      · grind
      · simp only [across, free]
        rw [len, cap] at bound ⊢
        grind
    · rw [rc]
      grind
  · simp [LeftCarved, Crowded, h]

/-- A put that returns -1 keeps the spans unless it stopped after carving. -/
theorem rmapPut_failed (lo hi : α) (w : V) (ok ok' : Bool) (done : ¬ LeftCarved s lo hi w ok ok')
    (failed : ((RmapOp.put lo hi w ok ok').exec s).1 = -1) :
    ((RmapOp.put lo hi w ok ok').exec s).2.map.toList = s.map.toList := by
  by_cases h : lo < hi
  · rcases rmapPut_cases v h w ok ok' with
      ⟨_, _, carved, _, ⟨_, eq, _⟩ | ⟨rc, _⟩⟩ | ⟨_, eq, _, same, _⟩
    · rw [eq] at failed
      contradiction
    · exact absurd ⟨h, carved.rc, rc⟩ done
    · rw [eq]
      exact same
  · simp [RmapOp.exec, if_neg h] at failed

/-- A put that stopped after carving returns -1 and has emptied its interval. -/
theorem rmapPut_leftCarved {lo hi : α} {w : V} {ok ok' : Bool} (left : LeftCarved s lo hi w ok ok') :
    ((RmapOp.put lo hi w ok ok').exec s).1 = -1 ∧
    (∀ x, lo ≤ x → x < hi → rmapGet ((RmapOp.put lo hi w ok ok').exec s).2.map x = none) ∧
    (¬ Meets s.map lo hi → ((RmapOp.put lo hi w ok ok').exec s).2.map.toList = s.map.toList) := by
  obtain ⟨h, rc, refused⟩ := left
  have clear : ¬ Meets s.map lo hi → (rmapCarve ledger s.map lo hi
      { s.book with handed := s.book.handed + 1 } ok).map = s.map := fun none =>
    rmapCarve_clear ledger v h (fun x h₁ h₂ => by
      by_contra there
      exact none ⟨x, h₁, h₂, Option.ne_none_iff_isSome.mp there⟩) _ _
  rcases rmapPut_cases v h w ok ok' with
    ⟨pre, post, carved, wf, ⟨rc', _⟩ | ⟨_, eq, list⟩⟩ | ⟨rc', _⟩
  · rw [refused] at rc'
    contradiction
  · rw [eq]
    refine ⟨rfl, fun x h₁ h₂ => ?_, fun none => list.trans (by rw [← carved.list, clear none])⟩
    have ordered := carved.clear.ordered
    rw [← list] at ordered
    rw [Option.eq_none_iff_forall_ne_some]
    intro u there
    have gives := (rmapGet_iff ⟨wf, ordered⟩ x u).mp there
    rw [list] at gives
    exact carved.clear.gives gives ⟨h₁, h₂⟩
  · rw [rc] at rc'
    contradiction

variable (bal : Settled (refs s.map.toList) s.book)
include bal

theorem rmapRemove_failed (lo hi : α) (ok : Bool) (failed : ((RmapOp.remove lo hi ok : RmapOp α V).exec s).1 = -1) :
    ((RmapOp.remove lo hi ok : RmapOp α V).exec s).2.map.toList = s.map.toList := by
  by_cases h : lo < hi
  · rcases (rmapRemove_spec v bal h ok _ rfl).2.2 with ⟨rc, _⟩ | ⟨_, same, _⟩
    · rw [failed] at rc
      contradiction
    · exact same
  · simp [RmapOp.exec, rmapRemove, h] at failed

theorem rmap_failed_iff (op : RmapOp α V) :
    ((op.exec s).1 = -1 → rmapContents (op.exec s).2.map = rmapContents s.map) ↔
      ∀ lo hi w ok ok', op = .put lo hi w ok ok' → ¬ Crowded s.map lo hi ok' := by
  have valid := (rmapOp_step v bal op).1
  constructor
  · rintro keeps lo hi w ok ok' rfl crowded
    obtain ⟨left, x, h₁, h₂, there⟩ := (crowded_iff v lo hi w ok ok').mpr crowded
    obtain ⟨rc, emptied, _⟩ := rmapPut_leftCarved v left
    have same := congrFun (congrArg Prod.fst (keeps rc)) x
    simp only [rmapContents, emptied x h₁ h₂, Option.map_none] at same
    rw [eq_comm, Option.map_eq_none_iff] at same
    rw [same] at there
    contradiction
  · intro safe failed
    apply rmapContents_same v valid
    cases op with
    | put lo hi w ok ok' =>
      by_cases left : LeftCarved s lo hi w ok ok'
      · exact (rmapPut_leftCarved v left).2.2 fun meets =>
          safe lo hi w ok ok' rfl ((crowded_iff v lo hi w ok ok').mp ⟨left, meets⟩)
      · exact rmapPut_failed v lo hi w ok ok' left failed
    | remove lo hi ok => exact rmapRemove_failed v bal lo hi ok failed

end Ranges

end DynaJS.Ds
