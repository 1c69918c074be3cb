import DynaJS.Ds.Index

/-! Each operation of the hash index against the partial map it stands for. -/
namespace DynaJS.Ds

open Function Nat Option Probe List

variable {K : Type}

/-- Slots that hold exactly the entries of `P`, each reachable and no key twice. -/
structure SlotsHold (cap : Nat) (slot : Nat → Option (IxSlot K)) (P : IxSlot K → Prop) : Prop where
  reach : Probe.Reach (IxSlot.home cap) cap slot
  distinct : Probe.Distinct IxSlot.key cap slot
  stored : ∀ e, Probe.Stored cap slot e ↔ P e

variable {slot : Nat → Option (IxSlot K)}

variable {cap pos i : Nat} {ix ix' : Ix K}

theorem ixPutRaw_holds {P : IxSlot K → Prop}
    (hc : Capacity cap) (holds : SlotsHold cap slot P) (room : load cap slot < cap)
    (e : IxSlot K) (new : ∀ d, P d → d.key ≠ e.key) :
    SlotsHold cap (ixPutRaw slot (cap - 1) e) (fun d => d = e ∨ P d) ∧
    load cap (ixPutRaw slot (cap - 1) e) = load cap slot + 1 := by
  have pos : 0 < cap := by omega
  obtain ⟨z, hz, empty⟩ := load_lt_exists room
  have start : e.home cap < cap := mod_lt _ pos
  have near := dist_lt start hz
  have place : ixPutRaw slot (cap - 1) e =
      update slot (walk cap slot (fun _ => false) cap (e.home cap)) (some e) := by
    have home : e.h % 2 ^ 32 &&& (cap - 1) = e.home cap := mask_home hc pos e.h
    rw [ixPutRaw, home, Nat.sub_add_cancel pos, freeSlot_walk hc _ _ _ start]
  have stops := walk_stops (fun _ => false) hz empty cap _ start near
  have free : slot (walk cap slot (fun _ => false) cap (e.home cap)) = none :=
    stops.here.resolve_right fun ⟨_, _, hit⟩ => Bool.false_ne_true hit
  rw [place]
  refine ⟨⟨place_spec holds.reach stops start, ?_, fun d => ?_⟩, load_fill stops.inside free e⟩
  · exact place_distinct holds.distinct fun d stored => new d ((holds.stored d).mp stored)
  · rw [stored_place stops.inside free, holds.stored]

theorem holds_none (cap : Nat) : SlotsHold cap (fun _ => (none : Option (IxSlot K))) fun _ => False := by
  refine ⟨fun p _ e slot => ?_, fun p q e e' _ _ slot => ?_, fun e => ?_⟩
  · contradiction
  · contradiction
  · simp [Probe.Stored]

theorem load_none (n : Nat) : load n (fun _ => (none : Option (IxSlot K))) = 0 := by
  simp [load]

theorem load_succ (n : Nat) (slot : Nat → Option (IxSlot K)) :
    load (n + 1) slot = load n slot + if (slot n).isSome then 1 else 0 := by
  rw [load, Finset.range_add_one, Finset.filter_insert]
  split_ifs
  · rw [Finset.card_insert_of_notMem (by simp), load]
  · rfl

theorem load_mono {m n : Nat} (h : m ≤ n) (slot : Nat → Option (IxSlot K)) : load m slot ≤ load n slot := by
  induction h with
  | refl => exact le_refl _
  | step _ ih => rw [load_succ]; omega

theorem rehash_holds {nc : Nat} (hc : Capacity nc)
    (distinct : Probe.Distinct IxSlot.key cap slot) (room : load cap slot < nc) (m : Nat)
    (hm : m ≤ cap) :
    SlotsHold nc ((range m).foldl (fun ns i =>
      match slot i with
      | none => ns
      | some e => ixPutRaw ns (nc - 1) e) fun _ => none) (Probe.Stored m slot) ∧
    load nc ((range m).foldl (fun ns i =>
      match slot i with
      | none => ns
      | some e => ixPutRaw ns (nc - 1) e) fun _ => none) = load m slot := by
  induction m with
  | zero =>
    refine ⟨?_, (load_none nc).trans rfl⟩
    have empty := holds_none (K := K) nc
    exact ⟨empty.reach, empty.distinct, fun e => (empty.stored e).trans (by simp [Probe.Stored])⟩
  | succ m ih =>
    obtain ⟨holds, load⟩ := ih (by omega)
    simp only [range_succ, foldl_append, foldl_cons, foldl_nil]
    generalize (range m).foldl _ _ = ns at *
    have last : ∀ e, Probe.Stored (m + 1) slot e ↔ slot m = some e ∨ Probe.Stored m slot e := by
      intro e
      constructor
      · rintro ⟨p, hp, found⟩
        rcases Nat.lt_succ_iff_lt_or_eq.mp hp with lt | rfl
        · exact .inr ⟨p, lt, found⟩
        · exact .inl found
      · rintro (found | ⟨p, hp, found⟩)
        · exact ⟨m, by omega, found⟩
        · exact ⟨p, by omega, found⟩
    cases found : slot m with
    | none =>
      refine ⟨⟨holds.reach, holds.distinct, fun e => ?_⟩, ?_⟩
      · rw [holds.stored, last, found]
        simp
      · rw [load, load_succ, found]
        rfl
    | some e =>
      have bound := load_mono hm slot
      rw [load_succ] at bound
      have new : ∀ d, Probe.Stored m slot d → d.key ≠ e.key := by
        rintro d ⟨p, hp, found'⟩ same
        have := distinct p m d e (by omega) (by omega) found' found same
        omega
      have put := ixPutRaw_holds hc holds (by omega) e new
      refine ⟨⟨put.1.reach, put.1.distinct, fun d => ?_⟩, ?_⟩
      · rw [put.1.stored, last, found, some.injEq, eq_comm]
      · rw [put.2, load, load_succ, found]
        rfl

variable {hash : K → Nat}

/-- There is no capacity between two powers of two. -/
theorem capacity_le_half (h : Capacity cap) {n : Nat} (below : cap < 2 ^ (n + 1)) : cap ≤ 2 ^ n := by
  by_cases zero : cap = 0
  · omega
  · obtain ⟨k, _, rfl⟩ := capacity_pow h (by omega)
    have := (Nat.pow_lt_pow_iff_right (by decide)).mp below
    exact Nat.pow_le_pow_right (by decide) (by omega)

/-- Past 2^29 slots the wrapped product is smaller than the true one. -/
theorem capacity_wraps (h : Capacity cap) : cap * 7 % 2 ^ 32 ≤ 3758096384 := by
  rcases h with rfl | ⟨k, hk, rfl⟩
  · decide
  · interval_cases k <;> decide

def grownCap (cap : Nat) : Nat := if cap = 0 then 8 else cap * 2

theorem grownCap_capacity (h : Capacity cap) (small : ¬ 0x40000000 < cap) : Capacity (grownCap cap) ∧
      (if cap = 0 then 8 else cap * 2 % 2 ^ 32) = grownCap cap ∧ 8 ≤ grownCap cap ∧
      cap * 2 ≤ grownCap cap := by
  rcases h with rfl | ⟨k, hk, rfl⟩
  · exact ⟨.inr ⟨0, by omega, rfl⟩, rfl, by decide, by decide⟩
  · have pos : 0 < 2 ^ k := Nat.pow_pos (by decide)
    have low : k < 28 := by
      by_contra top
      rw [show k = 28 by omega] at small
      exact small (by decide)
    simp only [grownCap, if_neg (show 8 * 2 ^ k ≠ 0 by omega)]
    refine ⟨.inr ⟨k + 1, by omega, by rw [pow_succ]; omega⟩, ?_, by omega, le_refl _⟩
    omega

variable {ok : Bool}

theorem Ix.Valid.used_zero (v : ix.Valid hash) (zero : ix.cap = 0) : ix.used = 0 := by
  rw [← v.load, zero]
  rfl

theorem ixGrow_spec (v : ix.Valid hash) (grown : ixGrow ix ok = some ix') :
    ix'.Valid hash ∧ ix'.used = ix.used ∧ ix'.cap = grownCap ix.cap ∧
    (∀ e, Probe.Stored ix'.cap ix'.slot e ↔ Probe.Stored ix.cap ix.slot e) ∧
    (ix.used + 1) * 10 < ix'.cap * 7 := by
  simp only [ixGrow] at grown
  split at grown
  · contradiction
  · rename_i small
    obtain ⟨capacity, size, least, double⟩ := grownCap_capacity v.capacity small
    rw [size] at grown
    split at grown
    · cases some.inj grown
      have room : (ix.used + 1) * 10 < grownCap ix.cap * 7 := by
        rcases v.room with room | zero
        · omega
        · have := v.used_zero zero
          omega
      obtain ⟨holds, load⟩ := rehash_holds capacity v.distinct (by rw [v.load]; omega) ix.cap (le_refl _)
      refine ⟨⟨capacity, load.trans v.load, .inl (by dsimp only; omega), ?_, holds.reach,
        holds.distinct, ?_, v.full⟩, rfl, rfl, holds.stored, room⟩
      · intro p hp e slot
        obtain ⟨q, hq, slot'⟩ := (holds.stored e).mp ⟨p, hp, slot⟩
        exact v.hashes q hq e slot'
      · intro _
        exact v.half (by omega)
    · contradiction

/-- `ix_reserve` keeps every entry; past it there is room for one more. -/
theorem ixReserve_spec (v : ix.Valid hash) (reserved : ixReserve ix ok = some ix') :
    ix'.Valid hash ∧ ix'.used = ix.used ∧
    (∀ e, Probe.Stored ix'.cap ix'.slot e ↔ Probe.Stored ix.cap ix.slot e) ∧
    (ix.used + 1) * 10 < ix'.cap * 7 ∧
    (ix' = ix ∨ (ixGrow ix ok = some ix' ∧ ix'.cap = grownCap ix.cap)) ∧
    ix.used < 375809640 ∧ (ix'.cap ≤ 2 ^ 30 → ix.used < 375809639) := by
  have full := v.full
  have exact : (ix.used + 1) * 10 % 2 ^ 32 = (ix.used + 1) * 10 := mod_eq_of_lt (by omega)
  unfold ixReserve at reserved
  split at reserved
  · rename_i loaded
    obtain ⟨valid, used, cap, stored, room⟩ := ixGrow_spec v reserved
    have top : ¬ 0x40000000 < ix.cap := by
      intro large
      simp [ixGrow, large] at reserved
    have half := v.half (by omega)
    refine ⟨valid, used, stored, room, .inr ⟨reserved, cap⟩, by omega, fun low => ?_⟩
    have double := (grownCap_capacity v.capacity top).2.2.2
    rcases v.room with room | zero
    · omega
    · have := v.used_zero zero
      omega
  · rename_i light
    cases some.inj reserved
    have below : ix.cap * 7 % 2 ^ 32 ≤ ix.cap * 7 := mod_le _ _
    have wraps := capacity_wraps v.capacity
    exact ⟨v, rfl, fun _ => Iff.rfl, by omega, .inl rfl, by omega, fun _ => by omega⟩

variable {ix : Ix K}

/-- With memory to be had, only the largest table refuses to grow, and the 32-bit load
test makes it do so from 214748364 entries on. -/
theorem ixReserve_refused (v : ix.Valid hash) (refused : ixReserve ix true = none) :
    ix.cap = 2 ^ 31 ∧ 214748364 ≤ ix.used := by
  have full := v.full
  have exact : (ix.used + 1) * 10 % 2 ^ 32 = (ix.used + 1) * 10 := mod_eq_of_lt (by omega)
  unfold ixReserve at refused
  split at refused
  · rename_i loaded
    have large : 0x40000000 < ix.cap := by
      by_contra small
      simp [ixGrow, small] at refused
    have top : ix.cap = 2 ^ 31 := by
      by_contra other
      have most := capacity_le v.capacity
      have := capacity_le_half v.capacity (n := 30) (by omega)
      omega
    exact ⟨top, by omega⟩
  · contradiction

theorem ixReserve_none (v : ix.Valid hash) {ok : Bool} (refused : ixReserve ix ok = none) :
    ok = false ∨ ix.cap = 2 ^ 31 ∧ 214748364 ≤ ix.used := by
  cases ok with
  | false => exact .inl rfl
  | true => exact .inr (ixReserve_refused v refused)

/-- Below 2^29 slots the load test does not wrap: an index with room is left alone, -/
theorem ixReserve_light (low : ix.cap ≤ 2 ^ 29)
    (light : (ix.used + 1) * 10 < ix.cap * 7) (ok : Bool) : ixReserve ix ok = some ix := by
  unfold ixReserve
  rw [mod_eq_of_lt (by omega), mod_eq_of_lt (by omega), if_neg (by omega)]

theorem ixInsert_light (low : ix.cap ≤ 2 ^ 29) (light : (ix.used + 1) * 10 < ix.cap * 7) (h : Nat) (k : K)
    (idx : Nat) (ok : Bool) :
    ∃ ix', ixInsert ix h k idx ok = some ix' ∧ ix'.cap = ix.cap := by
  rw [ixInsert, ixReserve_light low light]
  exact ⟨_, rfl, rfl⟩

/-- and it stays below them while it has fewer than 375809638 entries. -/
theorem ixReserve_low (v : ix.Valid hash) (low : ix.cap ≤ 2 ^ 29)
    (few : ix.used < 375809638) (reserved : ixReserve ix ok = some ix') : ix'.cap ≤ 2 ^ 29 := by
  obtain ⟨_, _, _, _, same | ⟨grown, cap⟩, _⟩ := ixReserve_spec v reserved
  · rw [same]
    exact low
  · -- A table of 2^29 slots that grows is fuller than that.
    by_contra high
    have top : ix.cap = 2 ^ 29 := by
      by_contra other
      have := capacity_le_half v.capacity (n := 28) (by omega)
      rw [grownCap] at cap
      split at cap <;> omega
    have light := ixReserve_light low (by omega) ok
    rw [light] at reserved
    cases some.inj reserved
    omega

variable {k : K} {idx : Nat}

theorem ixInsert_low (v : ix.Valid hash) (low : ix.cap ≤ 2 ^ 29) (few : ix.used < 375809638)
    (inserted : ixInsert ix (hash k) k idx ok = some ix') : ix'.cap ≤ 2 ^ 29 := by
  obtain ⟨r, reserved, rfl⟩ := map_eq_some_iff.mp inserted
  have grown := ixReserve_low v low few reserved
  exact grown

theorem maps_iff (stored : ∀ e, Probe.Stored ix'.cap ix'.slot e ↔ Probe.Stored ix.cap ix.slot e) (k : K)
    (i : Nat) : ix'.Maps hash k i ↔ ix.Maps hash k i := stored _

theorem Ix.Sound.not_maps_key (v : ix.Sound hash)
    (absent : ∀ i, ¬ ix.Maps hash k i) {d : IxSlot K} (stored : Probe.Stored ix.cap ix.slot d) :
    d.key ≠ k := by
  rintro rfl
  exact absent _ (v.stored_maps stored)

theorem Ix.Sound.put (v : ix.Sound hash) (idx : Nat)
    (absent : ∀ i, ¬ ix.Maps hash k i) (room : ix.used + 1 < ix.cap) :
    Ix.Sound hash { ix with
      slot := ixPutRaw ix.slot (ix.cap - 1) ⟨hash k, k, idx⟩, used := ix.used + 1 } ∧
    ∀ k' i, Ix.Maps hash { ix with
      slot := ixPutRaw ix.slot (ix.cap - 1) ⟨hash k, k, idx⟩, used := ix.used + 1 } k' i ↔
        (k' = k ∧ i = idx) ∨ ix.Maps hash k' i := by
  have light : Probe.load ix.cap ix.slot < ix.cap := by
    rw [v.load]
    omega
  obtain ⟨holds, load⟩ := ixPutRaw_holds v.capacity ⟨v.reach, v.distinct, fun _ => Iff.rfl⟩ light
    ⟨hash k, k, idx⟩ fun d there => v.not_maps_key absent there
  refine ⟨⟨v.capacity, by rw [load, v.load], .inl room, ?_, holds.reach, holds.distinct⟩, fun k' i => ?_⟩
  · intro p hp e slot
    rcases (holds.stored e).mp ⟨p, hp, slot⟩ with rfl | ⟨q, hq, old⟩
    · rfl
    · exact v.hashes q hq e old
  · rw [Ix.Maps, holds.stored]
    simp only [IxSlot.mk.injEq]
    constructor
    · rintro (⟨_, rfl, rfl⟩ | old)
      · exact .inl ⟨rfl, rfl⟩
      · exact .inr old
    · rintro (⟨rfl, rfl⟩ | old)
      · exact .inl ⟨rfl, rfl, rfl⟩
      · exact .inr old

theorem Ix.Sound.erase (v : ix.Sound hash) (hp : pos < ix.cap) (slot : ix.slot pos = some ⟨hash k, k, i⟩) :
    Ix.Sound hash { ix with
      slot := erase (IxSlot.home ix.cap) ix.cap ix.slot pos, used := ix.used - 1 } ∧
    0 < ix.used ∧
    ∀ k' j, Ix.Maps hash { ix with
      slot := erase (IxSlot.home ix.cap) ix.cap ix.slot pos, used := ix.used - 1 } k' j ↔
        k' ≠ k ∧ ix.Maps hash k' j := by
  have spare : ix.used < ix.cap := by
    rcases v.spare with spare | zero <;> omega
  obtain ⟨reach, distinct, load, stored⟩ := erase_spec hp slot v.reach v.distinct (by rw [v.load]; exact spare)
  rw [v.load] at load
  refine ⟨⟨v.capacity, ?_, .inl (by dsimp only; omega), ?_, reach, distinct⟩, by omega, fun k' j => ?_⟩
  · dsimp only
    omega
  · intro p hp' e slot'
    obtain ⟨⟨q, hq, old⟩, _⟩ := (stored e).mp ⟨p, hp', slot'⟩
    exact v.hashes q hq e old
  · rw [Ix.Maps, stored, and_comm]
    rfl

theorem ixInsert_maps (v : ix.Valid hash)
    (absent : ∀ i, ¬ ix.Maps hash k i) (inserted : ixInsert ix (hash k) k idx ok = some ix') :
    ix'.Valid hash ∧ ix'.used = ix.used + 1 ∧
    ∀ k' i, ix'.Maps hash k' i ↔ (k' = k ∧ i = idx) ∨ ix.Maps hash k' i := by
  obtain ⟨r, reserved, rfl⟩ := map_eq_some_iff.mp inserted
  obtain ⟨valid, used, stored, room, _, below, half⟩ := ixReserve_spec v reserved
  have kept : ∀ k' i, r.Maps hash k' i ↔ ix.Maps hash k' i := fun k' i => maps_iff stored k' i
  obtain ⟨sound, maps⟩ := valid.sound.put idx (fun i there => absent i ((kept k i).mp there)) (by omega)
  refine ⟨⟨sound.capacity, sound.load, .inl (by dsimp only; omega), sound.hashes, sound.reach,
    sound.distinct, ?_, ?_⟩, by dsimp only; omega, fun k' i => ?_⟩
  · intro low
    have := half low
    dsimp only
    omega
  · dsimp only
    omega
  · rw [maps, kept]

theorem ixErase_maps (v : ix.Valid hash) (hp : pos < ix.cap) (slot : ix.slot pos = some ⟨hash k, k, i⟩) :
    (ixErase ix pos).Valid hash ∧ (ixErase ix pos).used + 1 = ix.used ∧
    (ixErase ix pos).cap = ix.cap ∧
    ∀ k' j, (ixErase ix pos).Maps hash k' j ↔ k' ≠ k ∧ ix.Maps hash k' j := by
  have positive : 0 < ix.cap := by omega
  have shifted : ixErase ix pos = { ix with
      slot := erase (IxSlot.home ix.cap) ix.cap ix.slot pos, used := ix.used - 1 } := by
    simp only [ixErase, erase, mask_next v.capacity hp]
    rw [eraseLoop_shift v.capacity positive _ _ _ _ hp (next_lt hp) (update_self ..)]
  obtain ⟨sound, some, maps⟩ := v.sound.erase hp slot
  rw [← shifted] at sound maps
  have used : (ixErase ix pos).used = ix.used - 1 := rfl
  have full := v.full
  refine ⟨⟨sound.capacity, sound.load, ?_, sound.hashes, sound.reach, sound.distinct, ?_, ?_⟩, by omega, rfl, maps⟩
  · rw [used]
    show _ < ix.cap * 7 ∨ ix.cap = 0
    rcases v.room with room | zero <;> omega
  · intro low
    omega
  · omega

theorem setIdx_maps (v : ix.Valid hash) (hp : pos < ix.cap) (slot : ix.slot pos = some ⟨hash k, k, i⟩) (idx : Nat) :
    (ix.setIdx pos idx).Valid hash ∧
    ∀ k' j, (ix.setIdx pos idx).Maps hash k' j ↔ (k' = k ∧ j = idx) ∨ (k' ≠ k ∧ ix.Maps hash k' j) := by
  have new : (ix.setIdx pos idx).slot = update ix.slot pos (some ⟨hash k, k, idx⟩) := by
    simp [Ix.setIdx, slot]
  -- The renumbered slot holds the same key, so only the index of one entry changes.
  have source : ∀ p e, (ix.setIdx pos idx).slot p = some e →
      (p = pos ∧ ⟨hash k, k, idx⟩ = e) ∨ (p ≠ pos ∧ ix.slot p = some e) :=
    fun p e slot' => update_some_iff.mp (new ▸ slot')
  have occupied : ∀ q, ix.slot q ≠ none → (ix.setIdx pos idx).slot q ≠ none := by
    intro q full
    rw [new]
    by_cases here : q = pos
    · simp [here]
    · rwa [update_of_ne here]
  refine ⟨⟨v.capacity, ?_, v.room, ?_, ?_, ?_, v.half, v.full⟩, fun k' j => ⟨?_, ?_⟩⟩
  · rw [← show load ix.cap ix.slot = (ix.setIdx pos idx).used from v.load]
    show load ix.cap (ix.setIdx pos idx).slot = _
    unfold load
    congr 1
    ext p
    simp only [Finset.mem_filter, new]
    by_cases here : p = pos
    · simp [here, slot]
    · rw [update_of_ne here]
  · intro p hp' e slot'
    rcases source p e slot' with ⟨_, rfl⟩ | ⟨_, old⟩
    · rfl
    · exact v.hashes p hp' e old
  · intro p hp' e slot'
    rcases source p e slot' with ⟨rfl, rfl⟩ | ⟨_, old⟩
    · have way := v.reach p hp _ slot
      exact ⟨way.1, fun q hq near => occupied q (way.2 q hq near)⟩
    · have way := v.reach p hp' e old
      exact ⟨way.1, fun q hq near => occupied q (way.2 q hq near)⟩
  · intro p q e e' hp' hq' slot₁ slot₂ same
    rcases source p e slot₁ with ⟨rfl, rfl⟩ | ⟨p_ne, old₁⟩ <;> rcases source q e' slot₂ with ⟨rfl, rfl⟩ | ⟨q_ne, old₂⟩
    · rfl
    · exact v.distinct _ _ _ _ hp hq' slot old₂ same
    · exact v.distinct _ _ _ _ hp' hp old₁ slot same
    · exact v.distinct _ _ _ _ hp' hq' old₁ old₂ same
  · rintro ⟨p, hp', slot'⟩
    rcases source p _ slot' with ⟨_, eq⟩ | ⟨away, old⟩
    · simp only [IxSlot.mk.injEq] at eq
      exact .inl ⟨eq.2.1.symm, eq.2.2.symm⟩
    · refine .inr ⟨fun same => away ?_, ⟨p, hp', old⟩⟩
      exact v.distinct _ _ _ _ hp' hp old slot same
  · rintro (⟨rfl, rfl⟩ | ⟨differs, ⟨p, hp', old⟩⟩)
    · exact ⟨pos, hp, by rw [new, update_self]⟩
    · refine ⟨p, hp', ?_⟩
      have away : p ≠ pos := fun same => by
        rw [same, slot] at old
        simp only [some.injEq, IxSlot.mk.injEq] at old
        exact differs old.2.1.symm
      rw [new, update_of_ne away]
      exact old

/-- An index that only ever grew: the wide tables are reached one entry before the
32-bit load test closes them. -/
structure Ix.Unshrunk (ix : Ix K) : Prop where
  half : 2 ^ 30 ≤ ix.cap → 375809639 ≤ ix.used
  full : 2 ^ 31 ≤ ix.cap → 375809640 ≤ ix.used

theorem ixEmpty_unshrunk : (ixEmpty : Ix K).Unshrunk :=
  ⟨fun h => by simp [ixEmpty] at h, fun h => by simp [ixEmpty] at h⟩

theorem Ix.Unshrunk.insert (u : ix.Unshrunk)
    (v : ix.Valid hash) (inserted : ixInsert ix (hash k) k idx ok = some ix') : ix'.Unshrunk := by
  obtain ⟨r, reserved, rfl⟩ := map_eq_some_iff.mp inserted
  obtain ⟨_, used, _, _, growth, _⟩ := ixReserve_spec v reserved
  have half := u.half
  refine ⟨fun wide => ?_, fun wide => ?_⟩
  all_goals
    dsimp only at wide ⊢
    rw [used]
  · by_contra few
    have := ixReserve_low v (capacity_le_half v.capacity (by omega)) (by omega) reserved
    omega
  · rcases growth with same | ⟨_, cap⟩
    · rw [same] at wide
      omega
    · have : 2 ^ 30 ≤ ix.cap := by
        rw [cap, grownCap] at wide
        split at wide <;> omega
      omega

theorem Ix.Unshrunk.insert_succeeds (u : ix.Unshrunk) (v : ix.Valid hash)
    (few : ix.used < 375809640) (k : K) (idx : Nat) :
    ∃ ix', ixInsert ix (hash k) k idx true = some ix' := by
  cases reserved : ixReserve ix true with
  | none =>
    obtain ⟨cap, _⟩ := ixReserve_refused v reserved
    have := u.full (by omega)
    omega
  | some r => exact ⟨_, by rw [ixInsert, reserved]; rfl⟩

variable [DecidableEq K]

theorem ixGet_none (v : ix.Sound hash) : ixGet hash ix k = none ↔ ∀ i, ¬ ix.Maps hash k i := by
  rw [eq_none_iff_forall_ne_some]
  exact forall_congr' fun i => not_congr (v.get_iff k i)

theorem ixGet_ext (v : ix.Valid hash) {o : Option Nat}
    (same : ∀ i, ix.Maps hash k i ↔ o = some i) : ixGet hash ix k = o :=
  Option.ext fun i => (ixGet_iff v k i).trans (same i)

theorem Ix.Sound.get_update (v : ix.Sound hash) (v' : ix'.Sound hash) {o : Option Nat}
    (maps : ∀ k' i, ix'.Maps hash k' i ↔ if k' = k then o = some i else ix.Maps hash k' i) :
    ixGet hash ix' = update (ixGet hash ix) k o := by
  refine funext fun k' => Option.ext fun i => ?_
  rw [v'.get_iff, maps]
  by_cases same : k' = k
  · rw [if_pos same, same, update_self]
  · rw [if_neg same, update_of_ne same, v.get_iff]

theorem ixEmpty_get (k : K) : ixGet hash ixEmpty k = none := rfl

theorem ixReserve_get (v : ix.Valid hash)
    (reserved : ixReserve ix ok = some ix') : ixGet hash ix' = ixGet hash ix := by
  obtain ⟨valid, _, stored, _⟩ := ixReserve_spec v reserved
  funext k
  exact ixGet_ext valid fun i => (stored _).trans (ixGet_iff v k i).symm

theorem ixInsert_get (v : ix.Valid hash)
    (absent : ixGet hash ix k = none) (inserted : ixInsert ix (hash k) k idx ok = some ix') :
    ix'.Valid hash ∧ ix'.used = ix.used + 1 ∧ ixGet hash ix' = update (ixGet hash ix) k (some idx) := by
  have missing := (ixGet_none v.sound).mp absent
  obtain ⟨valid, used, maps⟩ := ixInsert_maps v missing inserted
  refine ⟨valid, used, v.sound.get_update valid.sound fun k' i => (maps k' i).trans ?_⟩
  split_ifs with same <;> simp [same, missing, eq_comm]

theorem ixFind_some (v : ix.Sound hash) (found : ixFind ix (hash k) k = some pos) :
    pos < ix.cap ∧ ix.slot pos = some ⟨hash k, k, ix.idxAt pos⟩ ∧ ixGet hash ix k = some (ix.idxAt pos) := by
  rcases v.find_spec k with ⟨p, i, found', hp, slot⟩ | ⟨missing, _⟩
  · rw [found] at found'
    cases some.inj found'
    have idx : ix.idxAt pos = i := by simp [Ix.idxAt, slot]
    exact ⟨hp, by rw [idx]; exact slot, by simp [ixGet, found]⟩
  · rw [found] at missing
    contradiction

theorem ixFind_none : ixFind ix (hash k) k = none ↔ ixGet hash ix k = none := by
  simp [ixGet]

theorem ixErase_get (v : ix.Valid hash) (found : ixFind ix (hash k) k = some pos) :
    (ixErase ix pos).Valid hash ∧ (ixErase ix pos).used + 1 = ix.used ∧
    (ixErase ix pos).cap = ix.cap ∧ ixGet hash (ixErase ix pos) = update (ixGet hash ix) k none := by
  obtain ⟨hp, slot, _⟩ := ixFind_some v.sound found
  obtain ⟨valid, used, cap, maps⟩ := ixErase_maps v hp slot
  refine ⟨valid, used, cap, v.sound.get_update valid.sound fun k' i => (maps k' i).trans ?_⟩
  split_ifs with same <;> simp [same]

theorem ixMove_get (v : ix.Valid hash) (k : K) (idx : Nat) :
    (ixMove ix (hash k) k idx).Valid hash ∧ (ixMove ix (hash k) k idx).used = ix.used ∧
    (ixMove ix (hash k) k idx).cap = ix.cap ∧
    ixGet hash (ixMove ix (hash k) k idx) =
      if (ixGet hash ix k).isSome then update (ixGet hash ix) k (some idx)
      else ixGet hash ix := by
  unfold ixMove
  cases found : ixFind ix (hash k) k with
  | none =>
    rw [ixFind_none.mp found]
    exact ⟨v, rfl, rfl, rfl⟩
  | some pos =>
    obtain ⟨hp, slot, there⟩ := ixFind_some v.sound found
    obtain ⟨valid, maps⟩ := setIdx_maps v hp slot idx
    refine ⟨valid, rfl, rfl, ?_⟩
    rw [there, if_pos (by rfl)]
    refine v.sound.get_update valid.sound fun k' i => (maps k' i).trans ?_
    split_ifs with same <;> simp [same, eq_comm]

/-- The indexes that insertions of absent keys and erasures of occupied slots lead to, with the
index of each key present. -/
inductive Ix.Reached (hash : K → Nat) : Ix K → (K → Option Nat) → Prop
  | empty : Reached hash ixEmpty fun _ => none
  | insert {ix ix' : Ix K} {m : K → Option Nat} {k : K} {idx : Nat} {ok : Bool} : Reached hash ix m → m k = none →
    ixInsert ix (hash k) k idx ok = some ix' → Reached hash ix' (update m k (some idx))
  | erase {ix : Ix K} {m : K → Option Nat} {pos : Nat} {e : IxSlot K} : Reached hash ix m → pos < ix.cap →
    ix.slot pos = some e → Reached hash (ixErase ix pos) (update m e.key none)

variable {m : K → Option Nat}

theorem ixFind_slot (v : ix.Valid hash) {e : IxSlot K} (hp : pos < ix.cap)
    (slot : ix.slot pos = some e) : ixFind ix (hash e.key) e.key = some pos := by
  rcases v.sound.find_spec e.key with ⟨p, i, found, hp', slot'⟩ | ⟨_, absent⟩
  · rw [found, v.distinct p pos _ e hp' hp slot' slot rfl]
  · exact absurd (v.sound.stored_maps ⟨pos, hp, slot⟩) (absent e.idx)

theorem Ix.Reached.get (reached : Ix.Reached hash ix m) : ix.Valid hash ∧ ixGet hash ix = m := by
  induction reached with
  | empty => exact ⟨ixEmpty_valid, rfl⟩
  | insert _ absent inserted ih =>
    obtain ⟨v, rfl⟩ := ih
    obtain ⟨valid, _, get⟩ := ixInsert_get v absent inserted
    exact ⟨valid, get⟩
  | erase _ hp slot ih =>
    obtain ⟨v, rfl⟩ := ih
    obtain ⟨valid, _, _, get⟩ := ixErase_get v (ixFind_slot v hp slot)
    exact ⟨valid, get⟩

/-- Every key present is found in its slot and no other key is, some slot is empty, so that every
probe ends, and growing keeps the entries. -/
theorem present_keys_findable (reached : Ix.Reached hash ix m) :
    (∀ k i, m k = some i → ∃ pos, ixFind ix (hash k) k = some pos ∧ pos < ix.cap ∧
      ix.slot pos = some ⟨hash k, k, i⟩) ∧
    (∀ k, m k = none → ixFind ix (hash k) k = none) ∧ (0 < ix.cap → ∃ z, z < ix.cap ∧ ix.slot z = none) ∧
    ∀ ok ix', ixGrow ix ok = some ix' → ixGet hash ix' = m := by
  obtain ⟨v, rfl⟩ := reached.get
  refine ⟨fun k i present => ?_, fun k => ixFind_none.mpr, v.sound.hole, fun ok ix' grown => ?_⟩
  · obtain ⟨pos, found, rfl⟩ := map_eq_some_iff.mp present
    obtain ⟨inside, slot, _⟩ := ixFind_some v.sound found
    exact ⟨pos, found, inside, slot⟩
  · obtain ⟨valid, _, _, stored, _⟩ := ixGrow_spec v grown
    exact funext fun k => ixGet_ext valid fun i => (stored _).trans (ixGet_iff v k i).symm

/-- Of two keys at the last of eight slots the second is in the first slot, and moves back when the other goes. -/
theorem present_keys_findable_wrapped : ∃ (ix : Ix Nat) (m : Nat → Option Nat), Ix.Reached (fun _ => 7) ix m ∧
    m 1 = none ∧ ∃ pos, ixFind ix 7 2 = some pos ∧ pos < ix.cap ∧ ix.slot pos = some ⟨7, 2, 5⟩ := by
  have first := @Ix.Reached.insert Nat _ (fun _ => 7) _ _ _ 1 0 true .empty rfl rfl
  have both := @Ix.Reached.insert Nat _ (fun _ => 7) _ _ _ 2 5 true first rfl rfl
  have reached := @Ix.Reached.erase Nat _ (fun _ => 7) _ _ 7 ⟨7, 1, 0⟩ both (by decide) rfl
  exact ⟨_, _, reached, rfl, (present_keys_findable reached).1 2 5 rfl⟩

end DynaJS.Ds
