import DynaJS.Ds.IndexOps

/-! The string map `sdb_smap` of `dyna-structures-db.inc.c`: the slots and probes of the
index `dyn_ix`, with growth at three quarters and a removal loop of its own. A slot is
empty when its `used` is zero. -/
namespace DynaJS.Db

open Function DynaJS.Ds Nat Option

variable {K : Type}

def smapGrow (m : Ix K) (ok : Bool) : Option (Ix K) :=
  let ncap := if m.cap = 0 then 16 else m.cap * 2 % 2 ^ 32
  if 2 ^ 30 < ncap then none
  else if ok then
    some { m with
      cap := ncap
      slot := (List.range m.cap).foldl (fun ne i =>
        match m.slot i with
        | none => ne
        | some e => ixPutRaw ne (ncap - 1) e) fun _ => none }
  else none

def smapReserve (m : Ix K) (ok : Bool) : Option (Ix K) :=
  if m.cap * 3 % 2 ^ 32 < (m.used + 1) * 4 % 2 ^ 32 then smapGrow m ok else some m

def smapInsert (m : Ix K) (n h : Nat) (k : K) (v : Nat) (ok : Bool) : Option (Ix K) :=
  if 2 ^ 32 - 1 < n then none
  else (smapReserve m ok).map fun m =>
    { m with slot := ixPutRaw m.slot (m.cap - 1) ⟨h, k, v⟩, used := m.used + 1 }

def removeLoop (mask : Nat) : Nat → (Nat → Option (IxSlot K)) → Nat → Nat → Nat → Option (IxSlot K)
  | 0, slot, _, _ => slot
  | fuel + 1, slot, i, j =>
    match slot j with
    | none => slot
    | some e =>
      let home := e.h % 2 ^ 32 &&& mask
      if (i < j ∧ (home ≤ i ∨ j < home)) ∨ (j < i ∧ home ≤ i ∧ j < home) then
        removeLoop mask fuel (update (update slot i (some e)) j none) j ((j + 1) &&& mask)
      else removeLoop mask fuel slot i ((j + 1) &&& mask)

def smapRemove (m : Ix K) (pos : Nat) : Ix K := { m with
    slot := removeLoop (m.cap - 1) m.cap (update m.slot pos none) pos ((pos + 1) &&& (m.cap - 1))
    used := m.used - 1 }

structure SmapValid (hash : K → Nat) (m : Ix K) : Prop extends m.Sound hash where
  load' : m.used * 4 ≤ m.cap * 3
  limit : m.cap ≤ 2 ^ 30
  least : m.cap = 0 ∨ 16 ≤ m.cap

variable {hash : K → Nat}

theorem smapEmpty_valid : SmapValid hash (ixEmpty : Ix K) where
  toSound := ixEmpty_valid.sound
  load' := le_refl _
  limit := zero_le _
  least := .inl rfl

/-- The removal loop is that of the index, whose test is written in another way. -/
theorem removeLoop_eq (mask fuel : Nat) (slot : Nat → Option (IxSlot K)) (i j : Nat) (hole : slot i = none) :
    removeLoop mask fuel slot i j = eraseLoop mask fuel slot i j := by
  induction fuel generalizing slot i j with
  | zero => rfl
  | succ fuel ih =>
    unfold removeLoop eraseLoop
    cases found : slot j with
    | none => rfl
    | some e =>
      dsimp only
      rw [ih _ j _ (update_self ..), ih _ i _ hole]
      congr 1
      rw [eq_iff_iff]
      split_ifs <;> omega

section Insert

variable {m m' : Ix K} {ok : Bool}

section

variable (v : SmapValid hash m)
include v

theorem smapGrow_spec (grown : smapGrow m ok = some m') : SmapValid hash m' ∧ m'.used = m.used ∧
    (∀ e, Probe.Stored m'.cap m'.slot e ↔ Probe.Stored m.cap m.slot e) ∧ (m.used + 1) * 4 ≤ m'.cap * 3 := by
  have limit := v.limit
  have load := v.load'
  simp only [smapGrow] at grown
  obtain ⟨nc, size⟩ : ∃ nc, (if m.cap = 0 then 16 else m.cap * 2 % 2 ^ 32) = nc := ⟨_, rfl⟩
  rw [size] at grown
  split at grown
  · contradiction
  rename_i small
  split at grown
  · cases some.inj grown
    have facts : Capacity nc ∧ 16 ≤ nc ∧ m.cap * 2 ≤ nc := by
      rcases v.capacity with zero | ⟨k, _, eq⟩
      · rw [if_pos zero] at size
        exact ⟨.inr ⟨1, by omega, by omega⟩, by omega, by omega⟩
      · have pos : 0 < 2 ^ k := Nat.pow_pos (by decide)
        rw [if_neg (by omega)] at size
        have low : k ≤ 26 := by
          by_contra high
          have := Nat.pow_le_pow_right (show 0 < 2 by decide) (show 27 ≤ k by omega)
          omega
        refine ⟨.inr ⟨k + 1, by omega, by rw [pow_succ]; omega⟩, by omega, by omega⟩
    obtain ⟨capacity, least, double⟩ := facts
    have room : (m.used + 1) * 4 ≤ nc * 3 := by omega
    obtain ⟨holds, loads⟩ := rehash_holds capacity v.distinct (by rw [v.load]; omega) m.cap (le_refl _)
    refine ⟨⟨⟨capacity, loads.trans v.load, .inl (by dsimp only; omega), ?_, holds.reach, holds.distinct⟩,
      by dsimp only; omega, not_lt.mp small, .inr least⟩, rfl, holds.stored, room⟩
    intro p hp e slot
    obtain ⟨q, hq, slot'⟩ := (holds.stored e).mp ⟨p, hp, slot⟩
    exact v.hashes q hq e slot'
  · contradiction

theorem reserve_exact : m.cap * 3 % 2 ^ 32 < (m.used + 1) * 4 % 2 ^ 32 ↔ m.cap * 3 < (m.used + 1) * 4 := by
  have limit := v.limit
  have load := v.load'
  rw [mod_eq_of_lt (by omega), mod_eq_of_lt (by omega)]

theorem smapReserve_spec (reserved : smapReserve m ok = some m') : SmapValid hash m' ∧ m'.used = m.used ∧
    (∀ e, Probe.Stored m'.cap m'.slot e ↔ Probe.Stored m.cap m.slot e) ∧ (m.used + 1) * 4 ≤ m'.cap * 3 := by
  unfold smapReserve at reserved
  by_cases full : m.cap * 3 < (m.used + 1) * 4
  · rw [if_pos ((reserve_exact v).mpr full)] at reserved
    exact smapGrow_spec v reserved
  · rw [if_neg fun test => full ((reserve_exact v).mp test)] at reserved
    cases some.inj reserved
    exact ⟨v, rfl, fun _ => Iff.rfl, not_lt.mp full⟩

theorem smapInsert_maps {n : Nat} {k : K} {i : Nat} (absent : ∀ i, ¬ m.Maps hash k i)
    (inserted : smapInsert m n (hash k) k i ok = some m') :
    SmapValid hash m' ∧ m'.used = m.used + 1 ∧
    ∀ k' j, m'.Maps hash k' j ↔ (k' = k ∧ j = i) ∨ m.Maps hash k' j := by
  unfold smapInsert at inserted
  split at inserted
  · contradiction
  obtain ⟨r, reserved, rfl⟩ := map_eq_some_iff.mp inserted
  obtain ⟨valid, used, stored, room⟩ := smapReserve_spec v reserved
  have kept : ∀ k' j, r.Maps hash k' j ↔ m.Maps hash k' j := fun k' j => maps_iff stored k' j
  obtain ⟨sound, maps⟩ := valid.toSound.put i (fun j there => absent j ((kept k j).mp there)) (by omega)
  refine ⟨⟨sound, by dsimp only; omega, valid.limit, valid.least⟩, by dsimp only; omega, fun k' j => ?_⟩
  rw [maps, kept]

/-- A key that fits is refused only where the table is at its load and cannot grow. -/
theorem smapInsert_none {n : Nat} (small : n ≤ 2 ^ 32 - 1) (h : Nat) (k : K) (i : Nat) (ok : Bool) :
    smapInsert m n h k i ok = none ↔ m.cap * 3 < (m.used + 1) * 4 ∧ (ok = false ∨ 2 ^ 29 < m.cap) := by
  have limit := v.limit
  rw [smapInsert, if_neg (by omega), map_eq_none_iff, smapReserve]
  by_cases full : m.cap * 3 < (m.used + 1) * 4
  · rw [if_pos ((reserve_exact v).mpr full), and_iff_right full]
    have size : 2 ^ 30 < (if m.cap = 0 then 16 else m.cap * 2 % 2 ^ 32) ↔ 2 ^ 29 < m.cap := by split_ifs <;> omega
    simp only [smapGrow, size]
    by_cases large : 2 ^ 29 < m.cap
    · exact iff_of_true (if_pos large) (.inr large)
    · rw [if_neg large, or_iff_left large]
      cases ok <;> simp
  · rw [if_neg fun test => full ((reserve_exact v).mp test)]
    exact iff_of_false (some_ne_none _) fun both => full both.1

theorem smapRemove_maps {pos i : Nat} {k : K} (hp : pos < m.cap) (slot : m.slot pos = some ⟨hash k, k, i⟩) :
    SmapValid hash (smapRemove m pos) ∧ (smapRemove m pos).used + 1 = m.used ∧
    (smapRemove m pos).cap = m.cap ∧
    ∀ k' j, (smapRemove m pos).Maps hash k' j ↔ k' ≠ k ∧ m.Maps hash k' j := by
  have positive : 0 < m.cap := by omega
  have shifted : smapRemove m pos = { m with
      slot := Probe.erase (IxSlot.home m.cap) m.cap m.slot pos, used := m.used - 1 } := by
    simp only [smapRemove, Probe.erase, mask_next v.capacity hp]
    rw [removeLoop_eq _ _ _ _ _ (update_self ..),
      eraseLoop_shift v.capacity positive _ _ _ _ hp (Probe.next_lt hp) (update_self ..)]
  obtain ⟨sound, some, maps⟩ := v.toSound.erase hp slot
  rw [← shifted] at sound maps
  have used : (smapRemove m pos).used = m.used - 1 := rfl
  have cap : (smapRemove m pos).cap = m.cap := rfl
  have load := v.load'
  exact ⟨⟨sound, by omega, v.limit, v.least⟩, by omega, rfl, maps⟩

end

end Insert

section Lookup

variable [DecidableEq K] {m m' : Ix K} {k : K}

variable (v : SmapValid hash m)
include v

theorem smapInsert_get {n i : Nat} {ok : Bool} (absent : ixGet hash m k = none)
    (inserted : smapInsert m n (hash k) k i ok = some m') :
    SmapValid hash m' ∧ m'.used = m.used + 1 ∧ ixGet hash m' = update (ixGet hash m) k (some i) := by
  have missing := (ixGet_none v.toSound).mp absent
  obtain ⟨valid, used, maps⟩ := smapInsert_maps v missing inserted
  refine ⟨valid, used, v.toSound.get_update valid.toSound fun k' j => (maps k' j).trans ?_⟩
  split_ifs with same <;> simp [same, missing, eq_comm]

theorem smapRemove_get {pos : Nat} (found : ixFind m (hash k) k = some pos) :
    SmapValid hash (smapRemove m pos) ∧ (smapRemove m pos).used + 1 = m.used ∧
    (smapRemove m pos).cap = m.cap ∧ ixGet hash (smapRemove m pos) = update (ixGet hash m) k none := by
  obtain ⟨hp, slot, _⟩ := ixFind_some v.toSound found
  obtain ⟨valid, used, cap, maps⟩ := smapRemove_maps v hp slot
  refine ⟨valid, used, cap, v.toSound.get_update valid.toSound fun k' j => (maps k' j).trans ?_⟩
  split_ifs with same <;> simp [same]

end Lookup

end DynaJS.Db
