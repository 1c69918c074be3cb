import DynaJS.Ds.TableSpec

/-! Runs of the table: the records stand for a map from pairs to values, and a slice
query lists the records of its key. -/
namespace DynaJS.Ds

open List Option
open Function (update update_eq_self update_of_ne update_self)

variable {V : Type} {hash : List UInt8 → Nat}

/-! The map the records stand for. -/

def TableRec.pos (x : TableRec V) : List UInt8 × List UInt8 := (x.row.bytes, x.col.bytes)

def Represents (recs : List (TableRec V)) (M : List UInt8 × List UInt8 → Option V) : Prop :=
  ∀ k v, M k = some v ↔ ∃ x ∈ recs, x.pos = k ∧ x.val = v

variable {M : List UInt8 × List UInt8 → Option V}

theorem Represents.perm {recs recs' : List (TableRec V)}
    (R : Represents recs M) (same : recs.Perm recs') : Represents recs' M := fun k v =>
  (R k v).trans (exists_congr fun _ => and_congr_left fun _ => same.mem_iff)

variable {x : TableRec V} {recs : List (TableRec V)}

theorem Represents.absent (R : Represents recs M) {k : List UInt8 × List UInt8} (absent : ∀ x ∈ recs, x.pos ≠ k) :
    M k = none := by
  rw [eq_none_iff_forall_ne_some]
  intro val there
  obtain ⟨x, hx, pos, _⟩ := (R _ _).mp there
  exact absent x hx pos

theorem Represents.cons (R : Represents recs M) (new : ∀ y ∈ recs, y.pos ≠ x.pos) :
    Represents (x :: recs) (update M x.pos (some x.val)) := fun k v => by
  by_cases here : k = x.pos
  · subst here
    rw [update_self, some.injEq]
    constructor
    · intro same
      exact ⟨x, mem_cons_self, rfl, same⟩
    · rintro ⟨y, member, pos, val⟩
      rcases mem_cons.mp member with rfl | member
      · exact val
      · exact absurd pos (new y member)
  · rw [update_of_ne here, R]
    simp [Ne.symm here]

theorem Represents.tail (R : Represents (x :: recs) M) (new : ∀ y ∈ recs, y.pos ≠ x.pos) :
    Represents recs (update M x.pos none) := fun k v => by
  by_cases here : k = x.pos
  · subst here
    simp only [update_self, reduceCtorEq, false_iff]
    rintro ⟨y, member, pos, _⟩
    exact new y member pos
  · rw [update_of_ne here, R]
    simp [Ne.symm here]

/-- One record goes from a list in which no two are at one place. -/
theorem Represents.without {rest : List (TableRec V)} (R : Represents recs M) (nodup : (recs.map TableRec.pos).Nodup)
    (split : recs.Perm (x :: rest)) : (∀ y ∈ rest, y.pos ≠ x.pos) ∧ Represents rest (update M x.pos none) := by
  have apart := (split.map TableRec.pos).nodup_iff.mp nodup
  rw [map_cons, nodup_cons] at apart
  have new : ∀ y ∈ rest, y.pos ≠ x.pos := fun y hy same => apart.1 (mem_map.mpr ⟨y, hy, same⟩)
  exact ⟨new, (R.perm split).tail new⟩

/-! The index over the encoded pairs. -/

variable {t : Table V}

variable {r c : List UInt8}

theorem TableRec.Keyed.pos_iff (key : x.Keyed hash) (fits : PairFits r c) :
    x.pos = (r, c) ↔ x.pair.bytes = pairBytes r c := by
  rw [key.encoded, TableRec.pos, Prod.mk.injEq]
  constructor
  · rintro ⟨row, col⟩
    rw [row, col]
  · exact pairBytes_inj key.fits.lt fits.lt

section

variable (v : t.Valid hash)
include v

theorem Table.Valid.nodup : (t.recs.map TableRec.pos).Nodup := by
  have pairs := v.index.nodup
  rw [nodup_iff_pairwise_ne, pairwise_map] at pairs ⊢
  refine pairs.imp_of_mem fun {x y} hx hy differ same => differ ?_
  rw [(v.keyed y hy).encoded]
  exact ((v.keyed x hx).pos_iff (v.keyed y hy).fits).mp same

theorem Table.Valid.find (fits : PairFits r c) :
    (ixFind t.ix (hash (pairBytes r c)) (pairBytes r c) = none ∧ ∀ x ∈ t.recs, x.pos ≠ (r, c)) ∨
    ∃ pos x, ixFind t.ix (hash (pairBytes r c)) (pairBytes r c) = some pos ∧
      t.recs[t.ix.idxAt pos]? = some x ∧ x.pos = (r, c) := by
  have same : ∀ x ∈ t.recs, x.pos = (r, c) ↔ x.pair.bytes = pairBytes r c := fun x hx => (v.keyed x hx).pos_iff fits
  cases found : ixFind t.ix (hash (pairBytes r c)) (pairBytes r c) with
  | none =>
    exact .inl ⟨rfl, fun x hx pos =>
      v.index.missing.mp (ixFind_none.mp found) x hx ((same x hx).mp pos)⟩
  | some pos =>
    obtain ⟨x, there, bytes⟩ := v.index.record found
    exact .inr ⟨pos, x, rfl, there, (same x (mem_of_getElem? there)).mpr bytes⟩

theorem Table.Valid.refused {ok : Bool} (granted : PairGranted true r c ok)
    (pair : tablePairInto true r c ok = none) : ∀ x ∈ t.recs, x.pos ≠ (r, c) := fun x hx pos => by
  have fits := (v.keyed x hx).fits
  rw [TableRec.pos, Prod.mk.injEq] at pos
  rw [pos.1, pos.2] at fits
  rw [tablePairInto_eq_some.mpr ⟨fits, granted, rfl⟩] at pair
  contradiction

theorem tableGet_eq (R : Represents t.recs M) {ok : Bool} (granted : PairGranted true r c ok) :
    tableGet hash t r c ok = M (r, c) := by
  unfold tableGet
  cases pair : tablePairInto true r c ok with
  | none =>
    -- Such a pair was never accepted.
    exact (R.absent (v.refused granted pair)).symm
  | some pk =>
    obtain ⟨fits, _, rfl⟩ := tablePairInto_eq_some.mp pair
    rcases v.find fits with ⟨found, absent⟩ | ⟨pos, x, found, there, at_x⟩
    · simp only [found]
      exact (R.absent absent).symm
    · simp only [found, there, map_some]
      exact ((R _ _).mpr ⟨x, mem_of_getElem? there, at_x, rfl⟩).symm

end

/-! `dyn_table_put` -/

theorem map_modify_same {R S : Type} (l : List R) (i : Nat) (f : R → R) (g : R → S)
    (same : ∀ x, g (f x) = g x) : (l.modify i f).map g = l.map g := by
  apply ext_getElem?
  intro j
  rw [getElem?_map, getElem?_map, getElem?_modify]
  split_ifs
  · cases l[j]? <;> simp [same]
  · cases l[j]? <;> rfl

theorem liveUpTo_congr {recs recs' : List (TableRec V)} (byColumn : Bool)
    (same : recs'.map (TableRec.key byColumn) = recs.map (TableRec.key byColumn)) (n : Nat) :
    liveUpTo recs' byColumn n = liveUpTo recs byColumn n := by
  funext i
  have at_i := congrArg (fun l => l[i]?) same
  simp only [getElem?_map] at at_i
  simp only [liveUpTo, at_i]

def TableRec.withVal (v : V) (x : TableRec V) : TableRec V := { x with val := v }

theorem Table.Valid.modify (v : t.Valid hash) (idx : Nat) (val : V) :
    ({ t with recs := t.recs.modify idx (TableRec.withVal val) } : Table V).Valid hash where
  index := by
    have same := map_modify_same t.recs idx (TableRec.withVal val) (fun x => x.pair.bytes) fun _ => rfl
    rw [same]
    exact v.index
  keyed := fun x hx => by
    obtain ⟨j, at_j⟩ := mem_iff_getElem?.mp hx
    rw [getElem?_modify] at at_j
    obtain ⟨y, there, rfl⟩ := map_eq_some_iff.mp at_j
    have key := v.keyed y (mem_of_getElem? there)
    split_ifs
    · exact ⟨key.row, key.col, key.pair, key.encoded, key.fits⟩
    · exact key
  capacity := v.capacity
  room := by simpa using v.room
  chained := fun b => by
    have same := map_modify_same t.recs idx (TableRec.withVal val) (TableRec.key b) fun _ => by
      cases b <;> rfl
    rw [liveUpTo_congr b same]
    exact v.chained b
  links := v.links
  bounds := v.bounds
  complete := fun on => by simpa using v.complete on
  dropped := v.dropped

theorem modify_represents (R : Represents recs M) (nodup : (recs.map TableRec.pos).Nodup) {idx : Nat}
    (there : recs[idx]? = some x) (val : V) :
    Represents (recs.modify idx (TableRec.withVal val)) (update M x.pos (some val)) := by
  have changed : recs.modify idx (TableRec.withVal val) = recs.set idx (x.withVal val) := by
    simp [modify_eq_set_getElem?, there]
  obtain ⟨rest, before, after⟩ := perm_set there (x.withVal val)
  obtain ⟨new, others⟩ := R.without nodup before
  have whole := others.cons (x := x.withVal val) new
  rw [show (x.withVal val).pos = x.pos from rfl, Function.update_idem] at whole
  rw [changed]
  exact whole.perm after.symm

theorem Table.Valid.append_sliced (v : t.Valid hash)
    (key : x.Keyed hash) {cap : Nat} (enough : t.recs.length + 1 ≤ cap) (capacity : Capacity cap)
    (ix : Ix (List UInt8)) (fresh : Nat) :
    Sliced hash { t with recs := t.recs ++ [x], cap := cap, ix := ix, fresh := fresh } where
  keyed := by
    simp only [forall_mem_append, forall_mem_singleton]
    exact ⟨v.keyed, key⟩
  length := by
    have := capacity_le capacity
    simp only [length_append, length_singleton]
    omega
  chained := fun b => by
    rw [liveUpTo_append _ _ _ v.sliced.inside]
    exact v.chained b
  links := v.links
  inside := by
    have := v.sliced.inside
    simp only [length_append, length_singleton]
    omega

theorem Table.Valid.append (v : t.Valid hash) (key : x.Keyed hash)
    {cap : Nat} (enough : t.recs.length + 1 ≤ cap) (capacity : Capacity cap) {ix : Ix (List UInt8)}
    (index : Indexes hash ix ((t.recs ++ [x]).map fun x => x.pair.bytes)) (fresh : Nat)
    (mem : Nat → Bool) :
    ∀ t₁ : Table V, t₁ = { t with recs := t.recs ++ [x], cap := cap, ix := ix, fresh := fresh } →
    (t₁.slicesValid = false → t₁.Valid hash) ∧
    (t₁.slicesValid = true →
      let res := tableBuildSlices t₁ mem
      let t₂ := if res.1 < 0 then tableDropSlices res.2 else res.2
      t₂.Valid hash ∧ t₂.recs = t.recs ++ [x]) := by
  intro t₁ eq
  have S : Sliced hash t₁ := eq ▸ v.append_sliced key enough capacity ix fresh
  have recs : t₁.recs = t.recs ++ [x] := by rw [eq]
  have index₁ : Indexes hash t₁.ix (t₁.recs.map fun x => x.pair.bytes) := by rw [eq]; exact index
  have room : t₁.recs.length ≤ t₁.cap := by rw [eq]; simpa using enough
  have capacity₁ : Capacity t₁.cap := by rw [eq]; exact capacity
  have bare : (tableDropSlices t₁).Valid hash :=
    ⟨index₁, S.keyed, capacity₁, room, fun b => by cases b <;> exact slicesEmpty_liveUpTo ..,
      .inl rfl, Nat.le_refl _, fun h => by simp [tableDropSlices] at h, fun _ => ⟨rfl, rfl, rfl⟩⟩
  refine ⟨fun off => ?_, fun on => ?_⟩
  · have dropped := v.dropped (by rw [eq] at off; exact off)
    refine ⟨index₁, S.keyed, capacity₁, room, S.chained, S.links, ?_, fun on => ?_, fun _ => ?_⟩
    · rw [eq]
      exact v.bounds
    · rw [off] at on
      contradiction
    · rw [eq]
      exact dropped
  · rcases tableBuildSlices_spec S mem with
      ⟨rc, row, col, cap, built, enough, capacity, rows, cols⟩ | ⟨rc, built | built⟩
    · dsimp only
      rw [if_neg (by rw [rc]; decide), built]
      exact ⟨⟨index₁, S.keyed, capacity₁, room, fun b => by cases b <;> assumption, capacity, enough,
        fun _ => rfl, fun h => by simp at h⟩, recs⟩
    all_goals
      dsimp only
      rw [if_pos (by rw [rc]; decide), built]
      exact ⟨bare, recs⟩

theorem append_represents (R : Represents recs M) (new : ∀ y ∈ recs, y.pos ≠ x.pos) :
    Represents (recs ++ [x]) (update M x.pos (some x.val)) :=
  (R.cons new).perm (perm_append_singleton x recs).symm

theorem tablePut_spec (v : t.Valid hash) (R : Represents t.recs M) (r c : List UInt8) (val : V) (mem : Nat → Bool) :
    let res := tablePut hash t r c val mem
    res.2.1.Valid hash ∧ ((res.1 = -1 ∧ (∃ cap, res.2.1 = { t with cap := cap }) ∧
        (PairFits r c → Refused mem t.recs.length)) ∨
      (res.1 = (if (M (r, c)).isSome then 1 else 0) ∧ res.2.2 = M (r, c) ∧
        Represents res.2.1.recs (update M (r, c) (some val)))) := by
  unfold tablePut tablePair
  cases pair : tablePairInto false r c (mem 0) with
  | none =>
    refine ⟨v, .inl ⟨rfl, ⟨t.cap, rfl⟩, fun fits => refused_copy (n := 0) fun had => ?_⟩⟩
    rw [tablePairInto_eq_some.mpr ⟨fits, .inr had, rfl⟩] at pair
    contradiction
  | some pk =>
    obtain ⟨fits, _, rfl⟩ := tablePairInto_eq_some.mp pair
    dsimp only
    rcases v.find fits with ⟨found, absent⟩ | ⟨pos, x, found, there, at_x⟩
    · rw [found]
      have missing := R.absent absent
      cases reserved : dsReserve t.cap (t.recs.length + 1) tableRecSize (mem 1) with
      | none =>
        exact ⟨v, .inl ⟨rfl, ⟨t.cap, rfl⟩, fun _ => refused_records v.capacity (by decide) (by decide) reserved⟩⟩
      | some cap =>
        obtain ⟨enough, _, capacity⟩ := dsReserve_sound v.capacity reserved
        have wider : ({ t with cap := cap } : Table V).Valid hash :=
          ⟨v.index, v.keyed, capacity, by dsimp only; omega, v.chained, v.links, v.bounds, v.complete, v.dropped⟩
        dsimp only
        by_cases keys : ¬ mem 2 ∨ ¬ mem 3
        · rw [if_pos keys]
          exact ⟨wider, .inl ⟨rfl, ⟨cap, rfl⟩, fun _ => keys.elim refused_copy refused_copy⟩⟩
        rw [if_neg keys]
        cases inserted : ixInsert t.ix (hash (pairBytes r c)) (pairBytes r c) t.recs.length (mem 4) with
        | none => exact ⟨wider, .inl ⟨rfl, ⟨cap, rfl⟩, fun _ => v.index.refused inserted⟩⟩
        | some ix =>
          generalize fact : (⟨⟨r, hash r, t.fresh⟩, ⟨c, hash c, t.fresh + 1⟩,
            ⟨pairBytes r c, hash (pairBytes r c), t.fresh + 2⟩, val⟩ : TableRec V) = x
          have key : x.Keyed hash := fact ▸ ⟨rfl, rfl, rfl, rfl, fits⟩
          have at_x : x.pos = (r, c) := fact ▸ rfl
          have val_x : x.val = val := fact ▸ rfl
          have listed : Indexes hash ix ((t.recs ++ [x]).map fun x => x.pair.bytes) := by
            rw [map_append, map_singleton, show x.pair.bytes = pairBytes r c from fact ▸ rfl]
            exact v.index.append (ixFind_none.mp found) (by rw [length_map]; exact inserted)
          have holds : Represents (t.recs ++ [x]) (update M (r, c) (some val)) := by
            rw [← at_x, ← val_x]
            exact append_represents R (at_x ▸ absent)
          obtain ⟨off, on⟩ := v.append key enough capacity listed (t.fresh + 3) (fun n => mem (n + 5)) _ rfl
          cases kept : t.slicesValid with
          | true =>
            obtain ⟨valid, recs⟩ := on kept
            rw [missing]
            rw [kept] at valid recs
            refine ⟨valid, .inr ⟨rfl, rfl, ?_⟩⟩
            rw [← recs] at holds
            exact holds
          | false =>
            have valid := off kept
            rw [kept] at valid
            rw [missing]
            exact ⟨valid, .inr ⟨rfl, rfl, holds⟩⟩
    · rw [found]
      have member := mem_of_getElem? there
      refine ⟨v.modify _ val, .inr ⟨?_, ?_, ?_⟩⟩
      · rw [(R _ _).mpr ⟨x, member, at_x, rfl⟩]
        rfl
      · rw [(R _ _).mpr ⟨x, member, at_x, rfl⟩]
        simp [there]
      · rw [← at_x]
        exact modify_represents R v.nodup there val

/-! `dyn_table_remove` -/

theorem keys_below (recs : List (TableRec V)) (b : Bool) (i : Nat) (key : DsKey (List UInt8))
    (there : (recs[i]?).map (TableRec.key b) = some key) : i < recs.length := by
  obtain ⟨x, there, _⟩ := map_eq_some_iff.mp there
  exact (List.getElem?_eq_some_iff.mp there).1

theorem erase_chained {s : Slices (List UInt8)} {b : Bool}
    (C : Chained hash s (liveUpTo recs b recs.length)) {idx : Nat} (inside : idx < recs.length) :
    ∀ s₁, s₁ = tableChainUnlink s (fun i => (recs[i]?).map (TableRec.key b)) (recs.length + 1) idx →
    (idx = recs.length - 1 → Chained hash s₁ (liveUpTo (swapRemove recs idx) b (swapRemove recs idx).length)) ∧
    ∀ x, idx ≠ recs.length - 1 → recs[recs.length - 1]? = some x →
      Chained hash (tableChainMove s₁ (x.key b) (recs.length + 1) (recs.length - 1) idx)
        (liveUpTo (swapRemove recs idx) b (swapRemove recs idx).length) := by
  rintro s₁ rfl
  rw [liveUpTo_length] at C
  have below := keys_below recs b
  have here : (recs[idx]?).map (TableRec.key b) = some (recs[idx].key b) := by simp [inside]
  have unlinked := tableChainUnlink_chained C here below
  rw [liveUpTo_length (swapRemove recs idx)]
  refine ⟨fun last => ?_, fun x hole at_end => ?_⟩
  · convert unlinked using 1
    funext i
    rw [swapRemove_getElem? inside]
    by_cases gone : i = idx
    · subst gone
      simp [last]
    · rw [update_of_ne gone]
      split_ifs with early
      · rfl
      · rw [getElem?_eq_none (by omega)]
  · have still : update (fun i => (recs[i]?).map (TableRec.key b)) idx none (recs.length - 1) = some (x.key b) := by
      rw [update_of_ne (Ne.symm hole), at_end]
      rfl
    have moved := tableChainMove_chained unlinked still (update_self ..) fun i key there => by
        by_cases gone : i = idx
        · simp [gone] at there
        · rw [update_of_ne gone] at there
          exact below i key there
    convert moved using 1
    funext i
    rw [swapRemove_getElem? inside]
    unfold Ds.moved
    by_cases end_ : i = recs.length - 1
    · subst end_
      simp
    rw [update_of_ne end_, still]
    by_cases gone : i = idx
    · subst gone
      rw [update_self, if_pos (by omega), if_pos rfl, at_end]
      rfl
    · rw [update_of_ne gone, update_of_ne gone]
      split_ifs with early
      · rfl
      · rw [getElem?_eq_none (by omega)]

theorem tableErase_eq {idx : Nat} (inside : idx < t.recs.length) {last : TableRec V}
    (there : t.recs[t.recs.length - 1]? = some last) (pos : Nat) :
    let chain := fun (s : Slices (List UInt8)) b =>
      let s₁ := tableChainUnlink s (t.keyAt b) (t.recs.length + 1) idx
      if idx ≠ t.recs.length - 1 then
        tableChainMove s₁ (last.key b) (t.recs.length + 1) (t.recs.length - 1) idx
      else s₁
    tableErase t pos idx = { t with
      recs := swapRemove t.recs idx
      ix := (tableErase t pos idx).ix
      row := if t.slicesValid then chain t.row false else t.row
      col := if t.slicesValid then chain t.col true else t.col
      sliced := if t.slicesValid then (swapRemove t.recs idx).length else t.sliced } := by
  have at_idx : idx ≠ t.recs.length - 1 → (swapRemove t.recs idx)[idx]? = some last := fun hole => by
    rw [swapRemove_getElem? inside, if_pos (by omega), if_pos rfl, there]
  unfold tableErase
  by_cases hole : idx ≠ t.recs.length - 1
  · cases t.slicesValid <;> simp [if_pos hole, at_idx hole, TableRec.key]
  · cases t.slicesValid <;> simp [if_neg hole]

theorem tableErase_valid (v : t.Valid hash) {k : List UInt8} {pos : Nat} (found : ixFind t.ix (hash k) k = some pos) :
    (tableErase t pos (t.ix.idxAt pos)).Valid hash ∧
    (tableErase t pos (t.ix.idxAt pos)).recs = swapRemove t.recs (t.ix.idxAt pos) := by
  obtain ⟨x, here, _⟩ := v.index.record found
  have inside := (List.getElem?_eq_some_iff.mp here).1
  obtain ⟨last, _, there⟩ := getLast?_of_lt inside
  have listed := indexes_erased v.index (fun x hx => (v.keyed x hx).pair) found
    (tableErase t pos (t.ix.idxAt pos)).ix
    (fun alone => by simp only [tableErase, if_neg alone]; split_ifs <;> rfl)
    fun hole y at_y => by simp only [tableErase, if_pos hole, at_y]; split_ifs <;> rfl
  have split := perm_swapRemove here
  have shorter := swapRemove_length inside
  have room := v.room
  have bounds := v.bounds
  rw [tableErase_eq inside there]
  generalize t.ix.idxAt pos = idx at *
  refine ⟨⟨listed, fun y hy => v.keyed y (split.mem_iff.mpr (mem_cons_of_mem _ hy)), v.capacity,
    by dsimp only; omega, fun b => ?_, v.links, ?_, fun on => if_pos on, fun off => ?_⟩, rfl⟩
  · have chained := v.chained b
    cases on : t.slicesValid with
    | true =>
      rw [v.complete on] at chained
      obtain ⟨kept, moved⟩ := erase_chained chained inside
        (tableChainUnlink (t.side b) (t.keyAt b) (t.recs.length + 1) idx) rfl
      by_cases hole : idx ≠ t.recs.length - 1
      · have moved := moved last hole there
        cases b <;> simpa [Table.side, on, hole] using moved
      · have kept := kept (not_not.mp hole)
        cases b <;> simpa [Table.side, on, hole] using kept
    | false =>
      obtain ⟨row, col, sliced⟩ := v.dropped on
      rw [sliced]
      cases b <;> simpa [Table.side, on, row, col] using slicesEmpty_liveUpTo ..
  · dsimp only
    split_ifs with on
    · rw [v.complete on] at bounds
      omega
    · exact bounds
  · have off : t.slicesValid = false := off
    obtain ⟨row, col, sliced⟩ := v.dropped off
    simp [off, row, col, sliced]

theorem tableRemove_spec (v : t.Valid hash) (R : Represents t.recs M) (r c : List UInt8) (ok : Bool) :
    let res := tableRemove hash t r c ok
    res.2.1.Valid hash ∧ ((¬ PairGranted true r c ok ∧ res = (0, t, none)) ∨
      (res.1 = (if (M (r, c)).isSome then 1 else 0) ∧ res.2.2 = M (r, c) ∧
        Represents res.2.1.recs (update M (r, c) none))) := by
  have unchanged : M (r, c) = none → Represents t.recs (update M (r, c) none) := fun missing => by
    rw [← missing, update_eq_self]
    exact R
  unfold tableRemove
  cases pair : tablePairInto true r c ok with
  | none =>
    refine ⟨v, ?_⟩
    by_cases granted : PairGranted true r c ok
    · have missing := R.absent (v.refused granted pair)
      rw [missing]
      exact .inr ⟨rfl, rfl, unchanged missing⟩
    · exact .inl ⟨granted, rfl⟩
  | some pk =>
    obtain ⟨fits, _, rfl⟩ := tablePairInto_eq_some.mp pair
    dsimp only
    rcases v.find fits with ⟨found, absent⟩ | ⟨pos, x, found, there, at_x⟩
    · rw [found, R.absent absent]
      exact ⟨v, .inr ⟨rfl, rfl, unchanged (R.absent absent)⟩⟩
    · obtain ⟨valid, recs⟩ := tableErase_valid v found
      have holds := (R _ _).mpr ⟨x, mem_of_getElem? there, at_x, rfl⟩
      rw [found, holds]
      refine ⟨valid, .inr ⟨rfl, by simp [there], ?_⟩⟩
      rw [← at_x]
      rw [recs]
      exact (R.without v.nodup (perm_swapRemove there)).2

/-! Slice queries -/

theorem tableSliceFirst_valid (v : t.Valid hash) (k : List UInt8) (b : Bool) (mem : Nat → Bool) :
    (tableSliceFirst hash t k b mem).1.Valid hash ∧
    (tableSliceFirst hash t k b mem).1.recs = t.recs := by
  obtain ⟨valid, recs, _⟩ := tableBuildSlices_valid v mem
  unfold tableSliceFirst
  split_ifs with unbuilt
  · dsimp only
    split_ifs
    · exact ⟨valid, recs⟩
    · exact ⟨valid, recs⟩
  · exact ⟨v, rfl⟩

theorem tableSliceNext_eq (on : t.slicesValid = true) (b : Bool) {i : Nat}
    (inside : i < t.recs.length) : tableSliceNext t b i = (t.side b).next i := by
  unfold tableSliceNext
  rw [if_neg (by simp [on]; omega)]

theorem slice_follow (v : t.Valid hash) (on : t.slicesValid = true) (k : List UInt8) (b : Bool) :
    ∃ l, Links.follow (tableSliceNext t b) t.recs.length (t.sliceHead hash k b) = some l ∧
      l.Nodup ∧ ∀ i, i ∈ l ↔ ∃ x, t.recs[i]? = some x ∧ (x.key b).bytes = k := by
  have C := v.chained b
  rw [v.complete on, liveUpTo_length] at C
  have live : ∀ i : Nat, (∃ key, (t.recs[i]?).map (TableRec.key b) = some key ∧ key.bytes = k) ↔
      ∃ x, t.recs[i]? = some x ∧ (x.key b).bytes = k := fun i => by
    cases t.recs[i]? <;> simp
  unfold Table.sliceHead
  cases found : ixFind (t.side b).ix (hash k) k with
  | none =>
    refine ⟨[], by cases t.recs.length <;> rfl, nodup_nil, fun i => ?_⟩
    rw [← live]
    simp only [not_mem_nil, false_iff]
    rintro ⟨key, there, bytes⟩
    obtain ⟨c, get⟩ := C.found i key there
    rw [bytes, ixFind_none.mp found] at get
    contradiction
  | some pos =>
    obtain ⟨_, _, get⟩ := ixFind_some C.valid.sound found
    obtain ⟨_, l, L⟩ := C.lists _ _ get
    have below := keys_below t.recs b
    have linked : Links.Linked (tableSliceNext t b) l := L.linked.congr fun i member => by
      obtain ⟨key, there, _⟩ := (L.members i).mp member
      exact tableSliceNext_eq on b (below i key there)
    refine ⟨l, ?_, L.linked.nodup, fun i => (L.members i).trans (live i)⟩
    dsimp only
    rw [L.head]
    exact Links.seg_follow linked.links _ (L.length_le below)

/-- A query lists only records of its key, each once, and ends. It lists them all when
the slices stand or its own memory is granted. -/
theorem tableSlice_spec (v : t.Valid hash) (k : List UInt8) (b : Bool) (mem : Nat → Bool) :
    ∃ l, tableSlice hash t k b mem = some l ∧ l.Nodup ∧ (∀ i ∈ l, ∃ x, t.recs[i]? = some x ∧ (x.key b).bytes = k) ∧
      ((t.slicesValid = true ∨ ∀ n, mem n = true) → ∀ i x, t.recs[i]? = some x → (x.key b).bytes = k → i ∈ l) := by
  unfold tableSlice tableSliceFirst
  by_cases unbuilt : ¬ t.slicesValid ∨ t.sliced ≠ t.recs.length
  · have off : t.slicesValid = false := by
      by_contra on
      have on : t.slicesValid = true := by simpa using on
      rcases unbuilt with off | short
      · exact off on
      · exact short (v.complete on)
    obtain ⟨valid, recs, built⟩ := tableBuildSlices_valid v mem
    have granted : (∀ n, mem n = true) → (tableBuildSlices t mem).1 = 0 := fun all =>
      tableBuildSlices_succeeds v off all
    rw [if_pos unbuilt]
    generalize tableBuildSlices t mem = res at *
    dsimp only
    split_ifs with failed
    · refine ⟨[], by cases res.2.recs.length <;> rfl, nodup_nil, by simp, fun ready => ?_⟩
      rcases ready with on | all
      · rw [off] at on
        contradiction
      · rw [granted all] at failed
        contradiction
    · obtain ⟨l, follow, nodup, members⟩ := slice_follow valid (built failed) k b
      rw [recs] at follow members
      refine ⟨l, by dsimp only; rw [recs]; exact follow, nodup, fun i => (members i).mp, fun _ i x at_i bytes => ?_⟩
      exact (members i).mpr ⟨x, at_i, bytes⟩
  · rw [if_neg unbuilt]
    have on : t.slicesValid = true := by
      by_contra off
      exact unbuilt (.inl off)
    obtain ⟨l, follow, nodup, members⟩ := slice_follow v on k b
    exact ⟨l, follow, nodup, fun i => (members i).mp, fun _ i x at_i bytes =>
      (members i).mpr ⟨x, at_i, bytes⟩⟩

/-! Runs -/

inductive TableOp (V : Type) where
  | put (r c : List UInt8) (v : V) (mem : Nat → Bool)
  | remove (r c : List UInt8) (ok : Bool)
  | slice (k : List UInt8) (byColumn : Bool) (mem : Nat → Bool)

/-- One call on the table, and what its return code says about the map. -/
def tableStep (hash : List UInt8 → Nat) (s : Table V × (List UInt8 × List UInt8 → Option V)) :
    TableOp V → Table V × (List UInt8 × List UInt8 → Option V)
  | .put r c v mem =>
    let res := tablePut hash s.1 r c v mem
    (res.2.1, if res.1 < 0 then s.2 else update s.2 (r, c) (some v))
  | .remove r c ok =>
    let res := tableRemove hash s.1 r c ok
    (res.2.1, if res.1 = 0 then s.2 else update s.2 (r, c) none)
  | .slice k byColumn mem => ((tableSliceFirst hash s.1 k byColumn mem).1, s.2)

def tableRun (hash : List UInt8 → Nat) (ops : List (TableOp V)) : Table V × (List UInt8 × List UInt8 → Option V) :=
  ops.foldl (tableStep hash) (tableNew, fun _ => none)

theorem tableStep_valid {s : Table V × (List UInt8 × List UInt8 → Option V)} (v : s.1.Valid hash)
    (R : Represents s.1.recs s.2) (op : TableOp V) :
    (tableStep hash s op).1.Valid hash ∧
    Represents (tableStep hash s op).1.recs (tableStep hash s op).2 := by
  cases op with
  | put r c val mem =>
    obtain ⟨valid, ⟨rc, ⟨cap, eq⟩, _⟩ | ⟨rc, _, holds⟩⟩ := tablePut_spec v R r c val mem
    · refine ⟨valid, ?_⟩
      simp only [tableStep, rc, eq]
      exact R
    · refine ⟨valid, ?_⟩
      simp only [tableStep, rc]
      rw [if_neg (by split_ifs <;> decide)]
      exact holds
  | remove r c ok =>
    obtain ⟨valid, ⟨_, same⟩ | ⟨rc, _, holds⟩⟩ := tableRemove_spec v R r c ok
    · simp only [tableStep, same, if_true]
      exact ⟨v, R⟩
    · refine ⟨valid, ?_⟩
      simp only [tableStep, rc]
      cases there : s.2 (r, c) with
      | none =>
        rw [← there, update_eq_self] at holds
        simpa using holds
      | some old => simpa using holds
  | slice k b mem =>
    obtain ⟨valid, recs⟩ := tableSliceFirst_valid v k b mem
    refine ⟨valid, ?_⟩
    simp only [tableStep, recs]
    exact R

theorem tableRun_valid (hash : List UInt8 → Nat) (ops : List (TableOp V)) :
    (tableRun hash ops).1.Valid hash ∧ Represents (tableRun hash ops).1.recs (tableRun hash ops).2 := by
  induction ops using List.reverseRecOn with
  | nil => exact ⟨tableNew_valid, fun k v => by simp [tableRun, tableNew]⟩
  | append_singleton ops op ih =>
    rw [tableRun, foldl_append]
    exact tableStep_valid ih.1 ih.2 op

/-- A key that a slice index borrows is that of a record still in the table. -/
theorem slot_borrows_live (hash : List UInt8 → Nat) (ops : List (TableOp V)) (b : Bool)
    (k : List UInt8) (c : Nat) (used : ixGet hash ((tableRun hash ops).1.side b).ix k = some c) :
    ∃ x ∈ (tableRun hash ops).1.recs, (x.key b).bytes = k ∧
      (x.key b).p = (((tableRun hash ops).1.side b).chainAt c).key := by
  obtain ⟨v, _⟩ := tableRun_valid hash ops
  obtain ⟨_, l, L⟩ := (v.chained b).lists k c used
  obtain ⟨key, there, p⟩ := L.borrowed
  obtain ⟨i, first, there⟩ := bind_eq_some_iff.mp there
  rw [L.head] at first
  obtain ⟨key', there', bytes⟩ := (L.members i).mp (mem_of_mem_head? first)
  rw [there, some.injEq] at there'
  subst there'
  unfold liveUpTo at there
  split_ifs at there
  obtain ⟨x, at_i, rfl⟩ := map_eq_some_iff.mp there
  exact ⟨x, mem_of_getElem? at_i, bytes, p⟩

/-- The record goes whose key the slot of the row borrowed. -/
theorem slot_borrows_live_remove :
    let ops := [.put [1] [2] 7 fun _ => true, .put [1] [3] 8 fun _ => true, .slice [1] false fun _ => true,
      .remove [1] [2] true]
    let t := (tableRun (fun _ => 1) ops).1
    ∃ x ∈ t.recs, (x.key false).bytes = [1] ∧ (x.key false).p = ((t.side false).chainAt 0).key := by
  intro ops
  exact slot_borrows_live (fun _ => 1) ops false [1] 0 (by decide +kernel)

end DynaJS.Ds
