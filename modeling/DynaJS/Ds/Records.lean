import DynaJS.Ds.IndexOps

/-! A record array beside a hash index: new records go to the end, and a removed one is
replaced by the last. The index says for each key where its record is. -/
namespace DynaJS.Ds

open Function List Option

variable {K R S : Type}

/-- `len--; if (i != len) rec[i] = rec[len]` -/
def swapRemove (l : List R) (i : Nat) : List R :=
  match l.getLast? with
  | none => l
  | some last => if i ≠ l.length - 1 then l.dropLast.set i last else l.dropLast

variable {l : List R}

theorem swapRemove_eq {last : R} (h : l.getLast? = some last) (i : Nat) : swapRemove l i = l.dropLast.set i last := by
  simp only [swapRemove, h]
  split_ifs with there
  · rfl
  · rw [set_eq_of_length_le (by rw [length_dropLast]; omega)]

variable {i : Nat}

theorem getLast?_of_lt (hi : i < l.length) : ∃ last, l.getLast? = some last ∧ l[l.length - 1]? = some last := by
  refine ⟨l[l.length - 1], ?_, ?_⟩
  · rw [getLast?_eq_getElem?, getElem?_eq_getElem (by omega)]
  · rw [getElem?_eq_getElem (by omega)]

@[simp] theorem swapRemove_length {l : List R} {i : Nat} (hi : i < l.length) :
    (swapRemove l i).length = l.length - 1 := by
  obtain ⟨last, h, _⟩ := getLast?_of_lt hi
  rw [swapRemove_eq h i, length_set, length_dropLast]

theorem swapRemove_getElem? (hi : i < l.length) (j : Nat) : (swapRemove l i)[j]? =
      if j < l.length - 1 then if j = i then l[l.length - 1]? else l[j]? else none := by
  obtain ⟨last, h, there⟩ := getLast?_of_lt hi
  rw [swapRemove_eq h i, getElem?_set, length_dropLast, there, dropLast_eq_take, getElem?_take]
  split_ifs <;> first | rfl | omega

theorem map_swapRemove (f : R → S) (hi : i < l.length) : (swapRemove l i).map f = swapRemove (l.map f) i := by
  apply ext_getElem?
  intro j
  rw [getElem?_map, swapRemove_getElem? hi, swapRemove_getElem? (by simpa using hi)]
  simp only [length_map, getElem?_map]
  split_ifs <;> rfl

theorem swapRemove_set (hi : i < l.length) (r : R) : swapRemove (l.set i r) i = swapRemove l i := by
  apply ext_getElem?
  intro j
  rw [swapRemove_getElem? (by simpa using hi), swapRemove_getElem? hi, length_set]
  simp only [getElem?_set]
  split_ifs <;> first | rfl | omega

variable {r : R} {k : K}

theorem perm_set (found : l[i]? = some r) (r' : R) : ∃ rest, l.Perm (r :: rest) ∧ (l.set i r').Perm (r' :: rest) := by
  obtain ⟨hi, rfl⟩ := List.getElem?_eq_some_iff.mp found
  exact ⟨l.eraseIdx i, (getElem_cons_eraseIdx_perm hi).symm, set_perm_cons_eraseIdx hi _⟩

theorem set_of_getElem? (there : l[i]? = some r) : l.set i r = l := by
  obtain ⟨inside, rfl⟩ := List.getElem?_eq_some_iff.mp there
  exact set_getElem_self inside

theorem perm_swapRemove (found : l[i]? = some r) : l.Perm (r :: swapRemove l i) := by
  obtain ⟨hi, rfl⟩ := List.getElem?_eq_some_iff.mp found
  obtain ⟨last, h, _⟩ := getLast?_of_lt hi
  rw [swapRemove_eq h i]
  obtain ⟨init, rfl⟩ := getLast?_eq_some_iff.mp h
  simp only [dropLast_concat]
  by_cases inside : i < init.length
  · simp only [getElem_append_left inside]
    calc (init ++ [last]).Perm (last :: init) := perm_append_singleton _ _
      _ |>.Perm (last :: init[i] :: init.eraseIdx i) := List.Perm.cons _ (getElem_cons_eraseIdx_perm inside).symm
      _ |>.Perm (init[i] :: last :: init.eraseIdx i) := List.Perm.swap _ _ _
      _ |>.Perm (init[i] :: init.set i last) := List.Perm.cons _ (set_perm_cons_eraseIdx inside _).symm
  · have here : i = init.length := by
      simp only [length_append, length_singleton] at hi
      omega
    subst here
    simp only [getElem_append_right (Nat.le_refl _), Nat.sub_self, getElem_cons_zero]
    rw [set_eq_of_length_le (Nat.le_refl _)]
    exact perm_append_singleton _ _

variable [DecidableEq K] {hash : K → Nat}

def ixDiscard (ix : Ix K) (h : Nat) (k : K) : Ix K :=
  match ixFind ix h k with
  | none => ix
  | some p => ixErase ix p

/-- The index points to places where its keys stand; it may miss some. -/
structure Points (hash : K → Nat) (ix : Ix K) (keys : List K) : Prop where
  valid : ix.Valid hash
  there : ∀ k i, ixGet hash ix k = some i → keys[i]? = some k

theorem points_empty : Points hash ixEmpty [] := ⟨ixEmpty_valid, fun k i h => by simp [ixEmpty_get] at h⟩

section Points

variable {ix ix' : Ix K} {keys : List K} {k : K} {ok : Bool}

theorem Points.reserve (P : Points hash ix keys) (reserved : ixReserve ix ok = some ix') : Points hash ix' keys :=
  ⟨(ixReserve_spec P.valid reserved).1, fun k i h =>
    P.there k i (by rwa [ixReserve_get P.valid reserved] at h)⟩

theorem Points.record {R : Type} {recs : List R} {key : R → K} (P : Points hash ix (recs.map key)) {p : Nat}
    (found : ixFind ix (hash k) k = some p) : ∃ r, recs[ix.idxAt p]? = some r ∧ key r = k := by
  have here := P.there _ _ (ixFind_some P.valid.sound found).2.2
  simpa using here

theorem ixDiscard_get (v : ix.Valid hash) (k : K) : (ixDiscard ix (hash k) k).Valid hash ∧
    ixGet hash (ixDiscard ix (hash k) k) = update (ixGet hash ix) k none := by
  unfold ixDiscard
  cases found : ixFind ix (hash k) k with
  | none =>
    refine ⟨v, ?_⟩
    dsimp only
    rw [← ixFind_none.mp found, update_eq_self]
  | some p =>
    obtain ⟨valid, _, _, get⟩ := ixErase_get v found
    exact ⟨valid, get⟩

variable {idx : Nat}

section

variable (P : Points hash ix keys)
include P

/-- The key of a place is inserted, or the insertion fails. -/
theorem Points.insert (ok : Bool) (here : keys[idx]? = some k)
    (absent : ixGet hash ix k = none) : Points hash ((ixInsert ix (hash k) k idx ok).getD ix) keys := by
  cases inserted : ixInsert ix (hash k) k idx ok with
  | none => exact P
  | some ix' =>
    obtain ⟨valid, _, get⟩ := ixInsert_get P.valid absent inserted
    refine ⟨valid, fun k' i h => ?_⟩
    rw [getD_some, get] at h
    by_cases same : k' = k
    · subst same
      rw [update_self, some.injEq] at h
      exact h ▸ here
    · rw [update_of_ne same] at h
      exact P.there k' i h

theorem Points.append (ok : Bool) (absent : ixGet hash ix k = none) :
    Points hash ((ixInsert ix (hash k) k keys.length ok).getD ix) (keys ++ [k]) := by
  have longer : Points hash ix (keys ++ [k]) := ⟨P.valid, fun k' i h => by
    have at_i := P.there k' i h
    rw [List.getElem?_append_left (List.getElem?_eq_some_iff.mp at_i).1]
    exact at_i⟩
  exact longer.insert ok (by simp) absent

/-- What the discard leaves points to other places. -/
theorem Points.discard (here : keys[idx]? = some k) :
    (∀ k' i, ixGet hash (ixDiscard ix (hash k) k) k' = some i → k' ≠ k ∧ i ≠ idx ∧ keys[i]? = some k') ∧
    ixGet hash (ixDiscard ix (hash k) k) k = none ∧
    ∀ k', ixGet hash ix k' = none → ixGet hash (ixDiscard ix (hash k) k) k' = none := by
  rw [(ixDiscard_get P.valid k).2]
  refine ⟨fun k' i h => ?_, update_self .., fun k' none => ?_⟩
  · by_cases same : k' = k
    · simp [same] at h
    · rw [update_of_ne same] at h
      have at_i := P.there k' i h
      refine ⟨same, fun moved => ?_, at_i⟩
      rw [moved, here, some.injEq] at at_i
      exact same at_i.symm
  · by_cases same : k' = k
    · simp [same]
    · rw [update_of_ne same, none]

theorem Points.set (ok : Bool) {old : K} (here : keys[idx]? = some old) (absent : ixGet hash ix k = none) :
    Points hash ((ixInsert (ixDiscard ix (hash old) old) (hash k) k idx ok).getD
      (ixDiscard ix (hash old) old)) (keys.set idx k) := by
  obtain ⟨kept, _, fewer⟩ := P.discard here
  have left : Points hash (ixDiscard ix (hash old) old) (keys.set idx k) :=
    ⟨(ixDiscard_get P.valid old).1, fun k' i h => by
      obtain ⟨_, other, at_i⟩ := kept k' i h
      rw [List.getElem?_set_ne (Ne.symm other)]
      exact at_i⟩
  exact left.insert ok (by simp [(List.getElem?_eq_some_iff.mp here).1]) (fewer k absent)

theorem Points.swapRemove {last : K} (here : keys[idx]? = some k) (at_end : keys[keys.length - 1]? = some last)
    (eq : ix' = if idx ≠ keys.length - 1 then
      ixMove (ixDiscard ix (hash k) k) (hash last) last idx else ixDiscard ix (hash k) k) :
    Points hash ix' (swapRemove keys idx) ∧ ixGet hash ix' k = none ∧
    ∀ k', ixGet hash ix k' = none → ixGet hash ix' k' = none := by
  have valid := (ixDiscard_get P.valid k).1
  have inside := (List.getElem?_eq_some_iff.mp here).1
  obtain ⟨kept, gone, fewer⟩ := P.discard here
  have lt : ∀ k' i, keys[i]? = some k' → i < keys.length := fun k' i at_i =>
    (List.getElem?_eq_some_iff.mp at_i).1
  split_ifs at eq with hole
  · obtain ⟨valid', _, _, get'⟩ := ixMove_get valid last idx
    rw [← eq] at valid' get'
    have none_of : ∀ k', ixGet hash (ixDiscard ix (hash k) k) k' = none → ixGet hash ix' k' = none :=
      fun k' none => by
        rw [get']
        split_ifs with found
        · have other : k' ≠ last := fun same => by rw [← same, none] at found; simp at found
          rw [update_of_ne other, none]
        · exact none
    refine ⟨⟨valid', fun k' i h => ?_⟩, none_of k gone, fun k' none => none_of k' (fewer k' none)⟩
    rw [swapRemove_getElem? inside]
    rw [get'] at h
    by_cases moved : k' = last
    · subst moved
      split_ifs at h with found
      · rw [update_self, some.injEq] at h
        rw [← h, if_pos (by omega), if_pos rfl, at_end]
      · rw [h] at found
        simp at found
    · have h : ixGet hash (ixDiscard ix (hash k) k) k' = some i := by
        split_ifs at h
        · rwa [update_of_ne moved] at h
        · exact h
      obtain ⟨_, other, at_i⟩ := kept k' i h
      have early : i ≠ keys.length - 1 := fun same => by
        rw [same, at_end, some.injEq] at at_i
        exact moved at_i.symm
      have := lt k' i at_i
      rw [if_pos (by omega), if_neg other, at_i]
  · subst eq
    refine ⟨⟨valid, fun k' i h => ?_⟩, gone, fewer⟩
    obtain ⟨_, other, at_i⟩ := kept k' i h
    have := lt k' i at_i
    rw [swapRemove_getElem? inside, if_pos (by omega), if_neg other, at_i]

end

structure Indexes (hash : K → Nat) (ix : Ix K) (keys : List K) : Prop where
  valid : ix.Valid hash
  used : ix.used = keys.length
  get : ∀ k i, ixGet hash ix k = some i ↔ keys[i]? = some k

theorem indexes_empty : Indexes hash ixEmpty [] := ⟨ixEmpty_valid, rfl, fun k i => by simp [ixEmpty_get]⟩

/-- As many entries as places, and no two at one place: the index misses none. -/
theorem Points.indexes (P : Points hash ix keys) (used : ix.used = keys.length) : Indexes hash ix keys := by
  refine ⟨P.valid, used, fun k i => ⟨P.there k i, fun here => ?_⟩⟩
  let full := (Finset.range ix.cap).filter fun p => (ix.slot p).isSome
  have entry : ∀ p ∈ full, ∃ e, p < ix.cap ∧ ix.slot p = some e ∧ ixGet hash ix e.key = some (ix.idxAt p) := by
    intro p hp
    obtain ⟨inside, occupied⟩ := Finset.mem_filter.mp hp
    obtain ⟨e, slot⟩ := isSome_iff_exists.mp occupied
    have inside := Finset.mem_range.mp inside
    have get := (ixGet_iff P.valid _ _).mpr (P.valid.sound.stored_maps ⟨p, inside, slot⟩)
    exact ⟨e, inside, slot, by simpa [Ix.idxAt, slot] using get⟩
  have onto : Set.SurjOn ix.idxAt full (Finset.range keys.length) := by
    refine Finset.surjOn_of_injOn_of_card_le _ (fun p hp => ?_) (fun p hp q hq same => ?_) ?_
    · obtain ⟨e, _, _, get⟩ := entry p hp
      simpa using (List.getElem?_eq_some_iff.mp (P.there _ _ get)).1
    · obtain ⟨e, hp, slot, get⟩ := entry p hp
      obtain ⟨e', hq, slot', get'⟩ := entry q hq
      have one := P.there _ _ get
      rw [same, P.there _ _ get', some.injEq] at one
      exact P.valid.distinct p q _ _ hp hq slot slot' one.symm
    · rw [Finset.card_range, ← used, ← P.valid.load]
      rfl
  obtain ⟨p, hp, rfl⟩ := onto (by simpa using (List.getElem?_eq_some_iff.mp here).1)
  obtain ⟨e, _, _, get⟩ := entry p hp
  have one := P.there _ _ get
  rw [here, some.injEq] at one
  rw [one, get]

end Points

variable {keys : List K} {ix : Ix K}

section

variable (I : Indexes hash ix keys)
include I

theorem Indexes.mem : k ∈ keys ↔ ∃ i, ixGet hash ix k = some i := by
  rw [mem_iff_getElem?]
  exact exists_congr fun i => (I.get k i).symm

theorem Indexes.absent : ixGet hash ix k = none ↔ k ∉ keys := by
  rw [I.mem, eq_none_iff_forall_ne_some, not_exists]

theorem Indexes.nodup : keys.Nodup := by
  rw [nodup_iff_getElem?_ne_getElem?]
  intro i j lt inside same
  have hi : keys[i]? = some keys[i] := getElem?_eq_getElem (by omega)
  have at_i := (I.get _ _).mpr hi
  have at_j := (I.get _ _).mpr (same ▸ hi)
  rw [at_i] at at_j
  simp only [some.injEq] at at_j
  omega

theorem Indexes.lt (found : ixGet hash ix k = some i) : i < keys.length :=
  (List.getElem?_eq_some_iff.mp ((I.get k i).mp found)).1

end

section Records

variable {recs : List R} {key : R → K} (I : Indexes hash ix (recs.map key))
include I

theorem Indexes.size : ix.used = recs.length := I.used.trans (length_map key)

theorem Indexes.missing {k : K} : ixGet hash ix k = none ↔ ∀ r ∈ recs, key r ≠ k := by
  rw [I.absent, List.mem_map]
  simp

theorem Indexes.record {k : K} {p : Nat} (found : ixFind ix (hash k) k = some p) :
    ∃ r, recs[ix.idxAt p]? = some r ∧ key r = k := by
  have here := (I.get _ _).mp (ixFind_some I.valid.sound found).2.2
  simpa using here

theorem Indexes.one {r s : R} (hr : r ∈ recs) (hs : s ∈ recs) (same : key r = key s) : r = s :=
  inj_on_of_nodup_map I.nodup hr hs same

end Records

/-- Why a call that stores a record fails: an allocation was refused, or the largest index
counts as full, which it does from 214748364 records on. -/
def Refused (mem : Nat → Bool) (count : Nat) : Prop := (∃ n, mem n = false) ∨ 214748364 ≤ count

section Refused

variable {mem : Nat → Bool} {n count : Nat}

theorem refused_copy (denied : ¬ mem n) : Refused mem count := .inl ⟨n, Bool.eq_false_of_not_eq_true denied⟩

theorem refused_records {cap esz : Nat} (valid : Capacity cap) (element : 0 < esz) (small : esz ≤ 2 ^ 32)
    (refused : dsReserve cap (count + 1) esz (mem n) = none) : Refused mem count := by
  obtain ⟨_, denied | many⟩ := (dsReserve_none_iff valid element small).mp refused
  · exact .inl ⟨n, denied⟩
  · exact .inr (by omega)

theorem Indexes.refused {recs : List R} {key : R → K} (I : Indexes hash ix (recs.map key)) {h : Nat}
    (refused : ixInsert ix h k i (mem n) = none) : Refused mem recs.length := by
  rcases ixReserve_none I.valid (Option.map_eq_none_iff.mp refused) with denied | ⟨_, many⟩
  · exact .inl ⟨n, denied⟩
  · exact .inr (I.size ▸ many)

end Refused

theorem Indexes.reserve {ix ix' : Ix K} {ok : Bool} (I : Indexes hash ix keys)
    (reserved : ixReserve ix ok = some ix') : Indexes hash ix' keys := by
  obtain ⟨valid, used, _⟩ := ixReserve_spec I.valid reserved
  exact ⟨valid, used.trans I.used, fun k i => by rw [ixReserve_get I.valid reserved]; exact I.get k i⟩

section

variable {ix : Ix K} (I : Indexes hash ix keys)
include I

theorem Indexes.points : Points hash ix keys := ⟨I.valid, fun k i => (I.get k i).mp⟩

theorem Indexes.append {ix' : Ix K} {k : K} {ok : Bool} (absent : ixGet hash ix k = none)
    (inserted : ixInsert ix (hash k) k keys.length ok = some ix') : Indexes hash ix' (keys ++ [k]) := by
  have points := I.points.append ok absent
  rw [inserted, getD_some] at points
  refine points.indexes ?_
  rw [(ixInsert_get I.valid absent inserted).2.1, I.used, length_append, length_singleton]

variable {k : K} {pos : Nat} (found : ixFind ix (hash k) k = some pos)
include found

theorem Indexes.swapRemove {last : K} (at_end : keys[keys.length - 1]? = some last) :
    Indexes hash (if ix.idxAt pos ≠ keys.length - 1 then
        ixMove (ixErase ix pos) (hash last) last (ix.idxAt pos)
      else ixErase ix pos) (swapRemove keys (ix.idxAt pos)) := by
  have here := (ixFind_some I.valid.sound found).2.2
  obtain ⟨valid, used, _⟩ := ixErase_get I.valid found
  have points := (I.points.swapRemove ((I.get _ _).mp here) at_end rfl).1
  simp only [ixDiscard, found] at points
  refine points.indexes ?_
  rw [swapRemove_length (I.lt here), ← I.used, apply_ite Ix.used, (ixMove_get valid last (ix.idxAt pos)).2.1]
  split_ifs <;> omega

theorem Indexes.replace {ix' : Ix K} {w : K} {ok : Bool} (absent : ixGet hash ix w = none)
    (inserted : ixInsert (ixErase ix pos) (hash w) w (ix.idxAt pos) ok = some ix') :
    Indexes hash ix' (keys.set (ix.idxAt pos) w) := by
  have here := (I.get _ _).mp (ixFind_some I.valid.sound found).2.2
  obtain ⟨valid, used, _⟩ := ixErase_get I.valid found
  have gone := (I.points.discard here).2.2 w absent
  have points := I.points.set ok here absent
  simp only [ixDiscard, found] at points gone
  rw [inserted, getD_some] at points
  refine points.indexes ?_
  rw [(ixInsert_get valid gone inserted).2.1, used, I.used, length_set]

end

/-- An erasure where the records carry the hashes of their keys. -/
theorem indexes_erased {recs : List R} {key : R → K} (I : Indexes hash ix (recs.map key)) {h : R → Nat}
    (hashes : ∀ r ∈ recs, h r = hash (key r)) {pos : Nat} (found : ixFind ix (hash k) k = some pos)
    (ix' : Ix K) (kept : ¬ ix.idxAt pos ≠ recs.length - 1 → ix' = ixErase ix pos)
    (moved : ix.idxAt pos ≠ recs.length - 1 → ∀ r, (swapRemove recs (ix.idxAt pos))[ix.idxAt pos]? = some r →
      ix' = ixMove (ixErase ix pos) (h r) (key r) (ix.idxAt pos)) :
    Indexes hash ix' ((swapRemove recs (ix.idxAt pos)).map key) := by
  obtain ⟨r, there, _⟩ := I.record found
  have inside := (List.getElem?_eq_some_iff.mp there).1
  obtain ⟨last, _, at_end⟩ := getLast?_of_lt inside
  have listed := I.swapRemove found (by rw [length_map, getElem?_map, at_end]; rfl)
  rw [length_map, ← map_swapRemove _ inside] at listed
  split_ifs at listed with hole
  · have here : (swapRemove recs (ix.idxAt pos))[ix.idxAt pos]? = some last := by
      rw [swapRemove_getElem? inside, if_pos (by omega), if_pos rfl, at_end]
    rw [moved hole last here, hashes last (mem_of_getElem? at_end)]
    exact listed
  · rw [kept hole]
    exact listed

def recFor (hash : K → Nat) (ix : Ix K) (recs : List R) (k : K) : Option R := (ixGet hash ix k).bind fun i => recs[i]?

section recFor

variable {ix ix' : Ix K} {recs recs' : List R} {key : R → K}

section

variable (I : Indexes hash ix (recs.map key))
include I

theorem recFor_iff (k : K) (r : R) : recFor hash ix recs k = some r ↔ r ∈ recs ∧ key r = k := by
  rw [recFor, bind_eq_some_iff]
  constructor
  · rintro ⟨i, get, there⟩
    have at_i := (I.get k i).mp get
    rw [getElem?_map, there, map_some, some.injEq] at at_i
    exact ⟨mem_of_getElem? there, at_i⟩
  · rintro ⟨member, rfl⟩
    obtain ⟨i, there⟩ := mem_iff_getElem?.mp member
    exact ⟨i, (I.get _ i).mpr (by simp [there]), there⟩

theorem recFor_update (I' : Indexes hash ix' (recs'.map key))
    {k : K} {o : Option R} (own : ∀ r, o = some r ↔ r ∈ recs' ∧ key r = k)
    (others : ∀ r, key r ≠ k → (r ∈ recs' ↔ r ∈ recs)) :
    recFor hash ix' recs' = update (recFor hash ix recs) k o := by
  funext k'
  apply Option.ext
  intro r
  rw [recFor_iff I']
  by_cases same : k' = k
  · subst same
    rw [update_self, own]
  · rw [update_of_ne same, recFor_iff I]
    exact and_congr_left fun here => others r (here ▸ same)

theorem recFor_put (I' : Indexes hash ix' (recs'.map key)) {r : R} {rest : List R}
    (after : recs'.Perm (r :: rest)) (others : ∀ s, key s ≠ key r → (s ∈ rest ↔ s ∈ recs)) :
    recFor hash ix' recs' = update (recFor hash ix recs) (key r) (some r) := by
  have nodup := (after.map key).nodup_iff.mp I'.nodup
  rw [map_cons, nodup_cons] at nodup
  refine recFor_update I I' (fun s => ?_) fun s other => ?_
  · rw [some.injEq, after.mem_iff, mem_cons]
    constructor
    · rintro rfl
      exact ⟨.inl rfl, rfl⟩
    · rintro ⟨rfl | member, here⟩
      · rfl
      · exact absurd (mem_map.mpr ⟨s, member, here⟩) nodup.1
  · rw [after.mem_iff, mem_cons, or_iff_right, others s other]
    rintro rfl
    exact other rfl

theorem recFor_append {r : R} (I' : Indexes hash ix' ((recs ++ [r]).map key)) :
    recFor hash ix' (recs ++ [r]) = update (recFor hash ix recs) (key r) (some r) :=
  recFor_put I I' (perm_append_singleton r recs) fun _ _ => Iff.rfl

variable (I' : Indexes hash ix' (recs'.map key))
include I'

theorem recFor_exchange {r r' : R} {rest : List R} (before : recs.Perm (r :: rest)) (after : recs'.Perm (r' :: rest))
    (same : key r' = key r) :
    recFor hash ix' recs' = update (recFor hash ix recs) (key r) (some r') := by
  rw [← same]
  refine recFor_put I I' after fun s other => ?_
  rw [before.mem_iff, mem_cons, or_iff_right]
  rintro rfl
  exact other same.symm

theorem recFor_remove {r : R} (split : recs.Perm (r :: recs')) :
    recFor hash ix' recs' = update (recFor hash ix recs) (key r) none := by
  have nodup := (split.map key).nodup_iff.mp I.nodup
  rw [map_cons, nodup_cons] at nodup
  refine recFor_update I I' (fun s => ?_) fun s other => ?_
  · simp only [reduceCtorEq, false_iff]
    rintro ⟨member, here⟩
    exact nodup.1 (mem_map.mpr ⟨s, member, here⟩)
  · rw [split.mem_iff, mem_cons, or_iff_right]
    rintro rfl
    exact other rfl

end

end recFor

end DynaJS.Ds
