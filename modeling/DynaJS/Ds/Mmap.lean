import DynaJS.Ds.Records

/-! The multimap of `dyn-ds.c`: one record for each key, with the values in the order
they came. Keys are byte strings there and of any type with decidable equality here. The
`n`-th value of `mem` is the outcome of the `n`-th allocation a call makes. -/
namespace DynaJS.Ds

open Function List Nat

/-- `mmap_rec`; `vals` are the first `len` cells and `cap` is their capacity. -/
structure MmapRec (K V : Type) where
  key : K
  h : Nat
  vals : List V
  cap : Nat
deriving DecidableEq

structure Mmap (K V : Type) where
  recs : List (MmapRec K V)
  cap : Nat
  ix : Ix K
  total : Nat

def mmapRecSize : Nat := 40

def cellSize : Nat := 16

variable {K V : Type} [DecidableEq K]

def mmapNew : Mmap K V := ⟨[], 0, ixEmpty, 0⟩

variable (hash : K → Nat)

variable (m : Mmap K V)

def mmapPut (k : K) (v : V) (mem : Nat → Bool) : Int × Mmap K V :=
  match ixFind m.ix (hash k) k with
  | none =>
    match dsReserve m.cap (m.recs.length + 1) mmapRecSize (mem 0) with
    | none => (-1, m)
    | some cap =>
      let m := { m with cap := cap }
      if ¬ mem 1 then (-1, m)
      else
        match dsReserve 0 1 cellSize (mem 2) with
        | none => (-1, m)
        | some vcap =>
          match ixInsert m.ix (hash k) k m.recs.length (mem 3) with
          | none => (-1, m)
          | some ix =>
            (0, { m with
              recs := m.recs ++ [⟨k, hash k, [v], vcap⟩]
              ix := ix
              total := (m.total + 1) % 2 ^ 64 })
  | some pos =>
    let idx := m.ix.idxAt pos
    match m.recs[idx]? with
    | none => (0, m)
    | some r =>
      match dsReserve r.cap (r.vals.length + 1) cellSize (mem 0) with
      | none => (-1, m)
      | some cap =>
        (0, { m with
          recs := m.recs.set idx { r with vals := r.vals ++ [v], cap := cap }
          total := (m.total + 1) % 2 ^ 64 })

def mmapErase (idx pos : Nat) : Mmap K V :=
  let ix := ixErase m.ix pos
  let recs := swapRemove m.recs idx
  { m with
    recs := recs
    ix := if idx ≠ m.recs.length - 1 then
        match recs[idx]? with
        | none => ix
        | some r => ixMove ix r.h r.key idx
      else ix }

def mmapRemoveAt (k : K) (i : Nat) : Int × Mmap K V × Option V :=
  match ixFind m.ix (hash k) k with
  | none => (0, m, none)
  | some pos =>
    let idx := m.ix.idxAt pos
    match m.recs[idx]? with
    | none => (0, m, none)
    | some r =>
      if r.vals.length ≤ i then (0, m, none)
      else
        let vals := r.vals.eraseIdx i
        let m := { m with
          recs := m.recs.set idx { r with vals := vals }
          total := (m.total + 2 ^ 64 - 1) % 2 ^ 64 }
        (1, if vals.length = 0 then mmapErase m idx pos else m, r.vals[i]?)

def mmapRemoveKey (k : K) : Nat × Mmap K V × List V :=
  match ixFind m.ix (hash k) k with
  | none => (0, m, [])
  | some pos =>
    let idx := m.ix.idxAt pos
    match m.recs[idx]? with
    | none => (0, m, [])
    | some r =>
      let m := { m with total := (m.total + 2 ^ 64 - r.vals.length) % 2 ^ 64 }
      (r.vals.length, mmapErase m idx pos, r.vals)

def mmapCellsFor (k : K) : List V :=
  match ixFind m.ix (hash k) k with
  | none => []
  | some pos => ((m.recs[m.ix.idxAt pos]?).map MmapRec.vals).getD []

def mmapCount (k : K) : Nat := (mmapCellsFor hash m k).length

def mmapAt (k : K) (i : Nat) : Option V := (mmapCellsFor hash m k)[i]?

def Mmap.sum : Nat := (m.recs.map fun r => r.vals.length).sum

structure Mmap.Valid (m : Mmap K V) : Prop where
  index : Indexes hash m.ix (m.recs.map MmapRec.key)
  hashes : ∀ r ∈ m.recs, r.h = hash r.key
  filled : ∀ r ∈ m.recs, 0 < r.vals.length ∧ r.vals.length ≤ r.cap ∧ Capacity r.cap
  capacity : Capacity m.cap
  room : m.recs.length ≤ m.cap
  total : m.total = m.sum

variable {hash}

theorem mmapNew_valid : (mmapNew : Mmap K V).Valid hash :=
  ⟨indexes_empty, by simp [mmapNew], by simp [mmapNew], .inl rfl, le_refl _, rfl⟩

theorem mmapCellsFor_eq :
    mmapCellsFor hash m = (fun r => (r.map MmapRec.vals).getD []) ∘ recFor hash m.ix m.recs := by
  funext k
  unfold mmapCellsFor comp recFor ixGet
  cases ixFind m.ix (hash k) k <;> rfl

variable {m : Mmap K V}

section

variable (v : m.Valid hash)
include v

theorem Mmap.Valid.find (k : K) : (ixFind m.ix (hash k) k = none ∧ mmapCellsFor hash m k = []) ∨
    ∃ pos r, ixFind m.ix (hash k) k = some pos ∧ m.recs[m.ix.idxAt pos]? = some r ∧ r.key = k ∧
      mmapCellsFor hash m k = r.vals := by
  cases found : ixFind m.ix (hash k) k with
  | none => exact .inl ⟨rfl, by simp [mmapCellsFor, found]⟩
  | some pos =>
    obtain ⟨r, there, same⟩ := v.index.record found
    exact .inr ⟨pos, r, rfl, there, same, by simp [mmapCellsFor, found, there]⟩

omit v in
theorem sum_le_of_forall {R : Type} (f : R → Nat) (l : List R) {b : Nat} (h : ∀ r ∈ l, f r ≤ b) :
    (l.map f).sum ≤ l.length * b := by
  have := sum_le_card_nsmul (l.map f) b (by simpa using h)
  simpa using this

theorem Mmap.Valid.sum_lt : m.sum < 2 ^ 62 := by
  have each : ∀ r ∈ m.recs, r.vals.length ≤ 2 ^ 31 := fun r hr =>
    le_trans (v.filled r hr).2.1 (capacity_le (v.filled r hr).2.2)
  have few : m.recs.length ≤ 375809640 := by
    have := v.index.valid.full
    rwa [v.index.size] at this
  calc m.sum ≤ m.recs.length * 2 ^ 31 := sum_le_of_forall _ _ each
    _ ≤ 375809640 * 2 ^ 31 := mul_le_mul_right _ few
    _ < 2 ^ 62 := by decide

omit [DecidableEq K] v in
theorem sum_perm {l : List (MmapRec K V)} (p : m.recs.Perm l) :
    m.sum = (l.map fun r => r.vals.length).sum := (p.map _).sum_eq

/-- The total does not wrap when cells of one record go. -/
theorem Mmap.Valid.less {idx : Nat} {r : MmapRec K V} (there : m.recs[idx]? = some r) {n : Nat}
    (few : n ≤ r.vals.length) : (m.total + 2 ^ 64 - n) % 2 ^ 64 + n = m.total := by
  have bound := v.sum_lt
  obtain ⟨rest, before, _⟩ := perm_set there r
  have part := sum_perm before
  simp only [map_cons, sum_cons] at part
  rw [v.total]
  omega

theorem Mmap.Valid.set {idx : Nat} {r : MmapRec K V}
    (there : m.recs[idx]? = some r) (r' : MmapRec K V) (total : Nat) (key : r'.key = r.key)
    (h : r'.h = r.h) (filled : 0 < r'.vals.length ∧ r'.vals.length ≤ r'.cap ∧ Capacity r'.cap)
    (sum : total + r.vals.length = m.total + r'.vals.length) :
    ({ m with recs := m.recs.set idx r', total := total } : Mmap K V).Valid hash ∧
    mmapCellsFor hash { m with recs := m.recs.set idx r', total := total } =
      update (mmapCellsFor hash m) r.key r'.vals := by
  obtain ⟨rest, before, after⟩ := perm_set there r'
  have member := mem_of_getElem? there
  have keys : (m.recs.set idx r').map MmapRec.key = m.recs.map MmapRec.key := by
    rw [map_set, key]
    exact set_of_getElem? (by simp [there])
  have index : Indexes hash m.ix ((m.recs.set idx r').map MmapRec.key) := keys ▸ v.index
  have others : ∀ x ∈ rest, x ∈ m.recs := fun x hx => before.mem_iff.mpr (mem_cons_of_mem _ hx)
  have cells := recFor_exchange v.index index before after key
  refine ⟨⟨index, fun x hx => ?_, fun x hx => ?_, v.capacity, by simpa using v.room, ?_⟩, ?_⟩
  · rcases mem_cons.mp (after.mem_iff.mp hx) with rfl | hx
    · rw [h, key]
      exact v.hashes r member
    · exact v.hashes x (others x hx)
  · rcases mem_cons.mp (after.mem_iff.mp hx) with rfl | hx
    · exact filled
    · exact v.filled x (others x hx)
  · have old := v.total
    have new : ({ m with recs := m.recs.set idx r', total := total } : Mmap K V).sum = _ := sum_perm after
    rw [sum_perm before] at old
    rw [new]
    simp only [map_cons, sum_cons] at old ⊢
    omega
  · rw [mmapCellsFor_eq, mmapCellsFor_eq]
    rw [cells, comp_update]
    rfl

theorem Mmap.Valid.erase {k : K} {pos : Nat} {r : MmapRec K V}
    (found : ixFind m.ix (hash k) k = some pos) (there : m.recs[m.ix.idxAt pos]? = some r)
    (key : r.key = k) (recs : List (MmapRec K V)) (total : Nat)
    (recs_eq : swapRemove recs (m.ix.idxAt pos) = swapRemove m.recs (m.ix.idxAt pos))
    (length : recs.length = m.recs.length) (sum : total + r.vals.length = m.total) :
    (mmapErase { m with recs := recs, total := total } (m.ix.idxAt pos) pos).Valid hash ∧
    mmapCellsFor hash (mmapErase { m with recs := recs, total := total } (m.ix.idxAt pos) pos) =
      update (mmapCellsFor hash m) k [] := by
  have listed := indexes_erased v.index v.hashes found
    (mmapErase { m with recs := recs, total := total } (m.ix.idxAt pos) pos).ix
    (fun last => by simp only [mmapErase, length, if_neg last])
    fun hole r here => by simp only [mmapErase, recs_eq, length, if_pos hole, here]
  have split := perm_swapRemove there
  rw [← recs_eq] at listed split
  have others : ∀ x ∈ swapRemove recs (m.ix.idxAt pos), x ∈ m.recs := fun x hx =>
    split.mem_iff.mpr (mem_cons_of_mem _ hx)
  refine ⟨⟨listed, fun x hx => v.hashes x (others x hx), fun x hx => v.filled x (others x hx), v.capacity, ?_, ?_⟩, ?_⟩
  · have := v.room
    have := split.length_eq
    rw [length_cons] at this
    show (swapRemove recs _).length ≤ m.cap
    omega
  · have old := v.total
    rw [sum_perm split, map_cons, sum_cons] at old
    show total = ((swapRemove recs _).map _).sum
    omega
  · rw [mmapCellsFor_eq, mmapCellsFor_eq]
    show _ ∘ recFor hash _ (swapRemove recs _) = _
    rw [recFor_remove v.index listed split, key, comp_update]
    rfl

theorem mmapPut_spec (k : K) (val : V) (mem : Nat → Bool) :
    let r := mmapPut hash m k val mem
    r.2.Valid hash ∧
    ((r.1 = 0 ∧ mmapCellsFor hash r.2 = update (mmapCellsFor hash m) k (mmapCellsFor hash m k ++ [val])) ∨
      (r.1 = -1 ∧ r.2.recs = m.recs ∧ r.2.ix = m.ix ∧ r.2.total = m.total ∧
        (Refused mem m.recs.length ∨ Refused mem (mmapCount hash m k)))) := by
  have bound := v.sum_lt
  have step : (m.total + 1) % 2 ^ 64 = m.total + 1 := by
    rw [v.total]
    exact mod_eq_of_lt (by omega)
  unfold mmapPut
  rcases v.find k with ⟨found, empty⟩ | ⟨pos, r, found, there, key, cells⟩
  · rw [found]
    cases reserved : dsReserve m.cap (m.recs.length + 1) mmapRecSize (mem 0) with
    | none =>
      exact ⟨v, .inr ⟨rfl, rfl, rfl, rfl, .inl (refused_records v.capacity (by decide) (by decide) reserved)⟩⟩
    | some cap =>
      obtain ⟨enough, _, capacity⟩ := dsReserve_sound v.capacity reserved
      have wider : ({ m with cap := cap } : Mmap K V).Valid hash :=
        ⟨v.index, v.hashes, v.filled, capacity, by dsimp only; omega, v.total⟩
      dsimp only
      by_cases copied : ¬ mem 1
      · rw [if_pos copied]
        exact ⟨wider, .inr ⟨rfl, rfl, rfl, rfl, .inl (refused_copy copied)⟩⟩
      rw [if_neg copied]
      cases cells : dsReserve 0 1 cellSize (mem 2) with
      | none =>
        refine ⟨wider, .inr ⟨rfl, rfl, rfl, rfl, .inr ?_⟩⟩
        rw [mmapCount, empty]
        exact refused_records (.inl rfl) (by decide) (by decide) cells
      | some vcap =>
        obtain ⟨one, _, vcapacity⟩ := dsReserve_sound (.inl rfl) cells
        cases inserted : ixInsert m.ix (hash k) k m.recs.length (mem 3) with
        | none => exact ⟨wider, .inr ⟨rfl, rfl, rfl, rfl, .inl (v.index.refused inserted)⟩⟩
        | some ix =>
          have index : Indexes hash ix
              ((m.recs ++ [(⟨k, hash k, [val], vcap⟩ : MmapRec K V)]).map MmapRec.key) := by
            rw [map_append]
            exact v.index.append (ixFind_none.mp found) (by rw [length_map]; exact inserted)
          refine ⟨⟨index, ?_, ?_, capacity, by simpa using enough, ?_⟩, .inl ⟨rfl, ?_⟩⟩
          · rw [forall_mem_append, forall_mem_singleton]
            exact ⟨v.hashes, rfl⟩
          · rw [forall_mem_append, forall_mem_singleton]
            exact ⟨v.filled, one_pos, one, vcapacity⟩
          · dsimp only
            rw [step, v.total]
            simp [Mmap.sum]
          · rw [empty, mmapCellsFor_eq, mmapCellsFor_eq]
            rw [recFor_append v.index index, comp_update]
            rfl
  · have full := v.filled r (mem_of_getElem? there)
    simp only [found, there]
    cases reserved : dsReserve r.cap (r.vals.length + 1) cellSize (mem 0) with
    | none =>
      refine ⟨v, .inr ⟨rfl, rfl, rfl, rfl, .inr ?_⟩⟩
      rw [mmapCount, cells]
      exact refused_records full.2.2 (by decide) (by decide) reserved
    | some cap =>
      obtain ⟨enough, _, capacity⟩ := dsReserve_sound full.2.2 reserved
      have set := v.set there { r with vals := r.vals ++ [val], cap := cap } ((m.total + 1) % 2 ^ 64)
        rfl rfl ⟨by simp, by simpa using enough, capacity⟩ (by rw [step]; simp; omega)
      rw [cells, ← key]
      exact ⟨set.1, .inl ⟨rfl, set.2⟩⟩

theorem mmapRemoveAt_spec (k : K) (i : Nat) : (mmapRemoveAt hash m k i).2.1.Valid hash ∧
    (mmapRemoveAt hash m k i).1 = (if i < mmapCount hash m k then 1 else 0) ∧
    (mmapRemoveAt hash m k i).2.2 = mmapAt hash m k i ∧
    mmapCellsFor hash (mmapRemoveAt hash m k i).2.1 =
      update (mmapCellsFor hash m) k ((mmapCellsFor hash m k).eraseIdx i) := by
  unfold mmapRemoveAt mmapCount mmapAt
  rcases v.find k with ⟨found, empty⟩ | ⟨pos, r, found, there, key, cells⟩
  · rw [found, empty]
    refine ⟨v, rfl, rfl, ?_⟩
    rw [eraseIdx_nil, ← empty, update_eq_self]
  · have full := v.filled r (mem_of_getElem? there)
    have inside := (List.getElem?_eq_some_iff.mp there).1
    simp only [found, there, cells]
    by_cases out : r.vals.length ≤ i
    · rw [if_pos out, if_neg (by omega), List.getElem?_eq_none out, eraseIdx_of_length_le out, ← cells,
        update_eq_self]
      exact ⟨v, rfl, rfl, rfl⟩
    rw [if_pos (show i < r.vals.length by omega)]
    have shorter : (r.vals.eraseIdx i).length + 1 = r.vals.length := by
      rw [length_eraseIdx_of_lt (by omega)]
      omega
    have less := v.less there (n := 1) (by omega)
    split_ifs with last
    · have erased := v.erase found there key _ ((m.total + 2 ^ 64 - 1) % 2 ^ 64)
        (swapRemove_set inside { r with vals := r.vals.eraseIdx i }) (by simp) (by omega)
      refine ⟨erased.1, rfl, rfl, erased.2.trans ?_⟩
      rw [eq_nil_of_length_eq_zero last]
    · have set := v.set there { r with vals := r.vals.eraseIdx i } ((m.total + 2 ^ 64 - 1) % 2 ^ 64)
        rfl rfl ⟨by dsimp only; omega, by dsimp only; omega, full.2.2⟩ (by dsimp only; omega)
      rw [← key]
      exact ⟨set.1, rfl, rfl, set.2⟩

theorem mmapRemoveKey_spec (k : K) : (mmapRemoveKey hash m k).2.1.Valid hash ∧
    (mmapRemoveKey hash m k).1 = mmapCount hash m k ∧
    (mmapRemoveKey hash m k).2.2 = mmapCellsFor hash m k ∧
    mmapCellsFor hash (mmapRemoveKey hash m k).2.1 = update (mmapCellsFor hash m) k [] := by
  unfold mmapRemoveKey mmapCount
  rcases v.find k with ⟨found, empty⟩ | ⟨pos, r, found, there, key, cells⟩
  · rw [found, ← empty, update_eq_self]
    exact ⟨v, by rw [empty]; rfl, rfl, rfl⟩
  · simp only [found, there, cells]
    have erased := v.erase found there key _ ((m.total + 2 ^ 64 - r.vals.length) % 2 ^ 64) rfl rfl
      (v.less there le_rfl)
    exact ⟨erased.1, trivial, trivial, erased.2⟩

end

/-! Runs -/

inductive MmapOp (K V : Type) where
  | put (k : K) (v : V) (mem : Nat → Bool)
  | removeAt (k : K) (i : Nat)
  | removeKey (k : K)

/-- One call on the multimap, and what its return code says about the lists of values. -/
def mmapStep (hash : K → Nat) (s : Mmap K V × (K → List V)) : MmapOp K V → Mmap K V × (K → List V)
  | .put k v mem =>
    let res := mmapPut hash s.1 k v mem
    (res.2, if res.1 < 0 then s.2 else update s.2 k (s.2 k ++ [v]))
  | .removeAt k i => ((mmapRemoveAt hash s.1 k i).2.1, update s.2 k ((s.2 k).eraseIdx i))
  | .removeKey k => ((mmapRemoveKey hash s.1 k).2.1, update s.2 k [])

def mmapRun (hash : K → Nat) (ops : List (MmapOp K V)) : Mmap K V × (K → List V) :=
  ops.foldl (mmapStep hash) (mmapNew, fun _ => [])

theorem mmapStep_valid {s : Mmap K V × (K → List V)} (v : s.1.Valid hash)
    (same : mmapCellsFor hash s.1 = s.2) (op : MmapOp K V) :
    (mmapStep hash s op).1.Valid hash ∧
    mmapCellsFor hash (mmapStep hash s op).1 = (mmapStep hash s op).2 := by
  cases op with
  | put k val mem =>
    obtain ⟨valid, ⟨rc, cells⟩ | ⟨rc, recs, ix, _⟩⟩ := mmapPut_spec v k val mem
    · refine ⟨valid, ?_⟩
      simp only [mmapStep, rc, lt_irrefl, if_false, cells, same]
    · refine ⟨valid, ?_⟩
      simp only [mmapStep, rc]
      rw [if_pos (by decide), ← same, mmapCellsFor_eq, mmapCellsFor_eq, recs, ix]
  | removeAt k i =>
    obtain ⟨valid, _, _, cells⟩ := mmapRemoveAt_spec v k i
    exact ⟨valid, by simp only [mmapStep, cells, same]⟩
  | removeKey k =>
    obtain ⟨valid, _, _, cells⟩ := mmapRemoveKey_spec v k
    exact ⟨valid, by simp only [mmapStep, cells, same]⟩

/-- Over every run the multimap holds the list of values the calls left under each key,
and its size is their number. -/
theorem mmapRun_valid (hash : K → Nat) (ops : List (MmapOp K V)) :
    (mmapRun hash ops).1.Valid hash ∧ mmapCellsFor hash (mmapRun hash ops).1 = (mmapRun hash ops).2 := by
  induction ops using List.reverseRecOn with
  | nil => exact ⟨mmapNew_valid, rfl⟩
  | append_singleton ops op ih =>
    rw [mmapRun, foldl_append]
    exact mmapStep_valid ih.1 ih.2 op

end DynaJS.Ds
