import DynaJS.Ds.Records

/-! The multiset of `dyn-ds.c`. Keys are byte strings there and any type with decidable
equality here; `hash` stands for `ix_hash`. The `n`-th value of `mem` is the outcome of
the `n`-th allocation a call makes. -/
namespace DynaJS.Ds

open Function List

structure MsetRec (K : Type) where
  key : K
  h : Nat
  count : Nat
deriving DecidableEq

structure Mset (K : Type) where
  recs : List (MsetRec K)
  cap : Nat
  ix : Ix K
  total : Nat

def msetRecSize : Nat := 32

def u64Max : Nat := 2 ^ 64 - 1

def u64SatAdd (a b : Nat) : Nat :=
  let s := (a + b) % 2 ^ 64
  if s < a then u64Max else s

def u64Sub (a b : Nat) : Nat := (a + 2 ^ 64 - b) % 2 ^ 64

def msetNew {K : Type} : Mset K := ⟨[], 0, ixEmpty, 0⟩

def msetClear {K : Type} (m : Mset K) : Mset K := { m with recs := [], ix := ixEmpty, total := 0 }

variable {K : Type} [DecidableEq K]

def Mset.countAt (m : Mset K) (i : Nat) : Nat := ((m.recs[i]?).map MsetRec.count).getD 0

def Mset.setCountAt (m : Mset K) (i c : Nat) : Mset K :=
  { m with recs := m.recs.modify i fun r => { r with count := c } }

def msetErase (m : Mset K) (i pos : Nat) : Mset K :=
  let ix := ixErase m.ix pos
  let recs := swapRemove m.recs i
  { m with
    recs := recs
    ix := if i ≠ m.recs.length - 1 then
        match recs[i]? with
        | none => ix
        | some r => ixMove ix r.h r.key i
      else ix }

def msetAppend (m : Mset K) (h : Nat) (k : K) (c : Nat) (mem : Nat → Bool) : Int × Mset K :=
  match dsReserve m.cap (m.recs.length + 1) msetRecSize (mem 0) with
  | none => (-1, m)
  | some cap =>
    let m := { m with cap := cap }
    if ¬ mem 1 then (-1, m)
    else
      match ixInsert m.ix h k m.recs.length (mem 2) with
      | none => (-1, m)
      | some ix =>
        (0, { m with recs := m.recs ++ [⟨k, h, c⟩], ix := ix, total := u64SatAdd m.total c })

variable (hash : K → Nat)

/-- `dyn_mset_add`: the return code, the multiset and the value of `*out`, which a call
that returns -1 does not write. -/
def msetAdd (m : Mset K) (k : K) (delta : Int) (mem : Nat → Bool) : Int × Mset K × Option Nat :=
  let h := hash k
  let pos := ixFind m.ix h k
  let cur := match pos with
    | none => 0
    | some p => m.countAt (m.ix.idxAt p)
  if delta < 0 then
    let sub := (-(delta + 1)).toNat + 1
    let nv := if cur ≤ sub then 0 else cur - sub
    let m := { m with total := u64Sub m.total (cur - nv) }
    match pos with
    | none => (0, m, some nv)
    | some p =>
      let idx := m.ix.idxAt p
      (0, if nv = 0 then msetErase m idx p else m.setCountAt idx nv, some nv)
  else if delta = 0 then (0, m, some cur)
  else
    match pos with
    | some p =>
      let nc := u64SatAdd cur delta.toNat
      let m := { m with total := u64SatAdd m.total (nc - cur) }
      (0, m.setCountAt (m.ix.idxAt p) nc, some nc)
    | none =>
      let r := msetAppend m h k delta.toNat mem
      (r.1, r.2, if r.1 = 0 then some delta.toNat else none)

def msetSetCount (m : Mset K) (k : K) (c : Nat) (mem : Nat → Bool) : Int × Mset K :=
  let h := hash k
  match ixFind m.ix h k with
  | some p =>
    let idx := m.ix.idxAt p
    let m := { m with total := u64SatAdd (u64Sub m.total (m.countAt idx)) c }
    (0, if c = 0 then msetErase m idx p else m.setCountAt idx c)
  | none => if c = 0 then (0, m) else msetAppend m h k c mem

def msetCount (m : Mset K) (k : K) : Nat :=
  match ixFind m.ix (hash k) k with
  | none => 0
  | some p => m.countAt (m.ix.idxAt p)

def msetDistinct (m : Mset K) : Nat := m.recs.length

/-- A record array and an index that agree, with counts a `uint64_t` holds and no
record left at zero. -/
structure Mset.Valid (m : Mset K) : Prop where
  index : Indexes hash m.ix (m.recs.map MsetRec.key)
  hashes : ∀ r ∈ m.recs, r.h = hash r.key
  counts : ∀ r ∈ m.recs, 0 < r.count ∧ r.count ≤ u64Max
  capacity : Capacity m.cap
  room : m.recs.length ≤ m.cap
  total : m.total ≤ u64Max

variable {hash}

theorem msetNew_valid : (msetNew : Mset K).Valid hash :=
  ⟨indexes_empty, by simp [msetNew], by simp [msetNew], .inl rfl, Nat.le_refl _, by simp [msetNew]⟩

variable {m : Mset K}

theorem msetClear_valid (v : m.Valid hash) : (msetClear m).Valid hash :=
  ⟨indexes_empty, by simp [msetClear], by simp [msetClear], v.capacity, Nat.zero_le _, by simp [msetClear]⟩

variable {k : K}

theorem msetCount_eq (m : Mset K) :
    msetCount hash m = (fun r => (r.map MsetRec.count).getD 0) ∘ recFor hash m.ix m.recs := by
  funext k
  unfold msetCount Mset.countAt comp recFor ixGet
  cases ixFind m.ix (hash k) k <;> rfl

theorem msetCount_mem (v : m.Valid hash) {r : MsetRec K} (hr : r ∈ m.recs) : msetCount hash m r.key = r.count := by
  rw [msetCount_eq, comp_apply, (recFor_iff v.index _ r).mpr ⟨hr, rfl⟩]
  rfl

theorem msetCount_absent (v : m.Valid hash) (absent : ∀ r ∈ m.recs, r.key ≠ k) : msetCount hash m k = 0 := by
  rw [msetCount_eq, comp_apply, recFor, v.index.missing.mpr absent]
  rfl

def Mset.sum (m : Mset K) : Nat := (m.recs.map MsetRec.count).sum

/-- What a successful call that gives `k` the count `c` does to everything but the
running total. -/
structure Counted (hash : K → Nat) (m m' : Mset K) (k : K) (c : Nat) : Prop where
  valid : m'.Valid hash
  counts : msetCount hash m' = update (msetCount hash m) k c
  sum : m'.sum + msetCount hash m k = m.sum + c

variable (v : m.Valid hash)
include v

section

variable {p : Nat} (found : ixFind m.ix (hash k) k = some p)
include found

theorem msetErase_valid : (msetErase m (m.ix.idxAt p) p).Valid hash := by
  obtain ⟨r, there, _⟩ := v.index.record found
  have split := perm_swapRemove there
  have kept : ∀ s ∈ swapRemove m.recs (m.ix.idxAt p), s ∈ m.recs := fun s hs =>
    split.mem_iff.mpr (mem_cons_of_mem _ hs)
  have index := indexes_erased v.index v.hashes found (msetErase m (m.ix.idxAt p) p).ix
    (fun last => if_neg last) fun hole r here => by simp only [msetErase, if_pos hole, here]
  refine ⟨index, fun s hs => v.hashes s (kept s hs),
    fun s hs => v.counts s (kept s hs), v.capacity, ?_, v.total⟩
  have := v.room
  have := split.length_eq
  rw [length_cons] at this
  show (swapRemove m.recs _).length ≤ m.cap
  omega

theorem msetErase_counted : Counted hash m (msetErase m (m.ix.idxAt p) p) k 0 := by
  obtain ⟨r, there, rfl⟩ := v.index.record found
  have valid := msetErase_valid v found
  have split := perm_swapRemove there
  refine ⟨valid, ?_, ?_⟩
  · rw [msetCount_eq, msetCount_eq, recFor_remove v.index valid.index split, comp_update]
    rfl
  · have sum := (split.map MsetRec.count).sum_eq
    rw [msetCount_mem v (mem_of_getElem? there), Mset.sum, Mset.sum, sum]
    exact Nat.add_comm _ _

theorem setCountAt_counted {c : Nat} (positive : 0 < c) (bound : c ≤ u64Max) :
    Counted hash m (m.setCountAt (m.ix.idxAt p) c) k c := by
  obtain ⟨r, there, rfl⟩ := v.index.record found
  have member := mem_of_getElem? there
  have recs : (m.setCountAt (m.ix.idxAt p) c).recs = m.recs.set (m.ix.idxAt p) { r with count := c } := by
    simp [Mset.setCountAt, modify_eq_set_getElem?, there]
  obtain ⟨rest, before, after⟩ := perm_set there { r with count := c }
  rw [← recs] at after
  have others : ∀ s ∈ rest, s ∈ m.recs := fun s hs => before.mem_iff.mpr (mem_cons_of_mem _ hs)
  have index : Indexes hash m.ix ((m.setCountAt (m.ix.idxAt p) c).recs.map MsetRec.key) := by
    rw [recs, map_set, set_of_getElem? (by simp [there])]
    exact v.index
  refine ⟨⟨index, fun s hs => ?_, fun s hs => ?_, v.capacity, ?_, v.total⟩, ?_, ?_⟩
  · rcases mem_cons.mp (after.mem_iff.mp hs) with rfl | old
    · exact v.hashes r member
    · exact v.hashes s (others s old)
  · rcases mem_cons.mp (after.mem_iff.mp hs) with rfl | old
    · exact ⟨positive, bound⟩
    · exact v.counts s (others s old)
  · rw [recs, length_set]
    exact v.room
  · rw [msetCount_eq, msetCount_eq]
    show _ ∘ recFor hash m.ix _ = _
    rw [recFor_exchange v.index index before after rfl, comp_update]
    rfl
  · have first := (before.map MsetRec.count).sum_eq
    have second := (after.map MsetRec.count).sum_eq
    simp only [map_cons, sum_cons] at first second
    rw [msetCount_mem v member, Mset.sum, Mset.sum]
    omega

end

theorem msetAppend_spec {c : Nat} (missing : ixFind m.ix (hash k) k = none) (positive : 0 < c) (bound : c ≤ u64Max)
    (mem : Nat → Bool) :
    let r := msetAppend m (hash k) k c mem
    (r.1 = 0 ∧ Counted hash m r.2 k c ∧ r.2.total = u64SatAdd m.total c) ∨
    (r.1 = -1 ∧ r.2.Valid hash ∧ r.2.recs = m.recs ∧ r.2.ix = m.ix ∧ r.2.total = m.total ∧
      Refused mem m.recs.length) := by
  unfold msetAppend
  cases reserved : dsReserve m.cap (m.recs.length + 1) msetRecSize (mem 0) with
  | none => exact .inr ⟨rfl, v, rfl, rfl, rfl, refused_records v.capacity (by decide) (by decide) reserved⟩
  | some cap =>
    obtain ⟨fits, grown, capacity⟩ := dsReserve_sound v.capacity reserved
    have wide : ({ m with cap := cap } : Mset K).Valid hash :=
      ⟨v.index, v.hashes, v.counts, capacity, v.room.trans grown, v.total⟩
    dsimp only
    split_ifs with copied
    · cases inserted : ixInsert m.ix (hash k) k m.recs.length (mem 2) with
      | none => exact .inr ⟨rfl, wide, rfl, rfl, rfl, v.index.refused inserted⟩
      | some ix =>
        have absent := v.index.missing.mp (ixFind_none.mp missing)
        have index : Indexes hash ix ((m.recs ++ [(⟨k, hash k, c⟩ : MsetRec K)]).map MsetRec.key) := by
          rw [map_append]
          exact v.index.append (ixFind_none.mp missing) (by rw [length_map]; exact inserted)
        refine .inl ⟨rfl, ⟨⟨index, ?_, ?_, capacity, by simpa using fits, ?_⟩, ?_, ?_⟩, rfl⟩
        · rw [forall_mem_append, forall_mem_singleton]
          exact ⟨v.hashes, rfl⟩
        · rw [forall_mem_append, forall_mem_singleton]
          exact ⟨v.counts, positive, bound⟩
        · simp only [u64SatAdd, u64Max]
          split_ifs <;> omega
        · rw [msetCount_eq, msetCount_eq]
          rw [recFor_append v.index index, comp_update]
          rfl
        · rw [msetCount_absent v absent]
          simp [Mset.sum]
    · exact .inr ⟨rfl, wide, rfl, rfl, rfl, refused_copy copied⟩

end DynaJS.Ds
