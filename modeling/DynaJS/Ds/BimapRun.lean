import DynaJS.Ds.Bimap

/-! `dyn_bimap_put` in its four cases, and whole runs of the bimap against a set of
pairs. After `ix_reserve` the put counts on a later `ix_insert`; that holds while the
indexes stay at 2^29 slots. -/
namespace DynaJS.Ds

open List Option

variable {K : Type} [DecidableEq K] {hash : K → Nat}

def pairSet (b : Bimap K) : Set (K × K) := {p | ∃ r ∈ b.recs, r.key = p.1 ∧ r.val = p.2}

theorem pairSet_congr {K : Type} {b b' : Bimap K} (recs : b'.recs = b.recs) : pairSet b' = pairSet b := by
  rw [pairSet, pairSet, recs]

/-- What a put that returns 0 makes of a set of pairs: the old pairs of the key and of
the value go, the new one comes. -/
def putPair (k v : K) (P : Set (K × K)) : Set (K × K) := {p | (p ∈ P ∧ p.1 ≠ k ∧ p.2 ≠ v) ∨ p = (k, v)}

variable {b : Bimap K}

variable {idx : Nat} {r : BimapRec K}

theorem mem_bimapErase (v : b.Valid hash) (there : b.recs[idx]? = some r) (s : BimapRec K) :
    s ∈ (bimapErase b idx).recs ↔ s ∈ b.recs ∧ s ≠ r := by
  rw [(bimapErase_spec v there).2.1]
  have perm := perm_swapRemove there
  have nodup := List.Nodup.of_map _ v.fwd.nodup
  rw [perm.nodup_iff, nodup_cons] at nodup
  rw [perm.mem_iff, mem_cons]
  constructor
  · exact fun hs => ⟨.inr hs, fun same => nodup.1 (same ▸ hs)⟩
  · rintro ⟨rfl | hs, other⟩
    · exact absurd rfl other
    · exact hs

theorem mem_set_record (v : b.Valid hash) {r t : BimapRec K} (there : b.recs[idx]? = some r) (s : BimapRec K) :
    s ∈ b.recs.set idx t ↔ s = t ∨ (s ∈ b.recs ∧ s ≠ r) := by
  have nodup := List.Nodup.of_map _ v.fwd.nodup
  obtain ⟨inside, rfl⟩ := List.getElem?_eq_some_iff.mp there
  have perm := set_perm_cons_eraseIdx inside t
  have old := getElem_cons_eraseIdx_perm inside
  rw [← old.nodup_iff, nodup_cons] at nodup
  rw [perm.mem_iff, mem_cons, ← old.mem_iff, mem_cons]
  refine or_congr_right ⟨fun hs => ⟨.inr hs, fun same => nodup.1 (same ▸ hs)⟩, ?_⟩
  rintro ⟨rfl | hs, other⟩
  · exact absurd rfl other
  · exact hs

structure Bimap.Sound (hash : K → Nat) (b : Bimap K) : Prop where
  valid : b.Valid hash
  fwd_low : b.fwd.cap ≤ 2 ^ 29
  rev_low : b.rev.cap ≤ 2 ^ 29

structure PutOutcome (hash : K → Nat) (b : Bimap K) (k v : K) (mem : Nat → Bool) (r : Int × Bimap K) : Prop where
  sound : r.2.Sound hash
  result : (r.1 = 0 ∧ pairSet r.2 = putPair k v (pairSet b)) ∨
    (r.1 = -1 ∧ r.2.recs = b.recs ∧ ∃ n, mem n = false)

theorem Indexes.reserve_refused {keys : List K} {ix : Ix K} (I : Indexes hash ix keys) (low : ix.cap ≤ 2 ^ 29)
    {mem : Nat → Bool} {n : Nat} (refused : ixReserve ix (mem n) = none) : ∃ n, mem n = false := by
  rcases ixReserve_none I.valid refused with denied | ⟨top, _⟩
  · exact ⟨n, denied⟩
  · omega

theorem Indexes.insert_refused {keys : List K} {ix : Ix K} (I : Indexes hash ix keys) (low : ix.cap ≤ 2 ^ 29)
    {h idx : Nat} {k : K} {mem : Nat → Bool} {n : Nat} (refused : ixInsert ix h k idx (mem n) = none) :
    ∃ n, mem n = false := I.reserve_refused low (map_eq_none_iff.mp refused)

theorem recs_refused (val : b.Valid hash) (few : b.recs.length < 375809638) {mem : Nat → Bool} {n : Nat}
    (refused : dsReserve b.cap (b.recs.length + 1) bimapRecSize (mem n) = none) : ∃ n, mem n = false := by
  obtain ⟨_, denied | many⟩ := (dsReserve_none_iff val.capacity (by decide) (by decide)).mp refused
  · exact ⟨n, denied⟩
  · omega

theorem copy_refused {mem : Nat → Bool} (copied : ¬ mem 1 = true) : ∃ n, mem n = false :=
  ⟨1, Bool.eq_false_of_not_eq_true copied⟩

theorem copies_refused {mem : Nat → Bool} (copied : ¬ (mem 1 = true ∧ mem 2 = true)) : ∃ n, mem n = false := by
  by_cases first : mem 1 = true
  · exact ⟨2, Bool.eq_false_of_not_eq_true fun second => copied ⟨first, second⟩⟩
  · exact copy_refused first

theorem Indexes.reserve_low {R : Type} {recs : List R} {key : R → K} {ix ix' : Ix K} {ok : Bool}
    (I : Indexes hash ix (recs.map key)) (low : ix.cap ≤ 2 ^ 29) (few : recs.length < 375809638)
    (reserved : ixReserve ix ok = some ix') :
    ix'.cap ≤ 2 ^ 29 ∧ ix'.used = recs.length ∧ (recs.length + 1) * 10 < ix'.cap * 7 := by
  have used := I.size
  obtain ⟨_, same, _, room, _⟩ := ixReserve_spec I.valid reserved
  exact ⟨ixReserve_low I.valid low (by omega) reserved, same.trans used, by omega⟩

theorem reserve_recs (s : b.Sound hash) {ok : Bool} {cap : Nat}
    (reserved : dsReserve b.cap (b.recs.length + 1) bimapRecSize ok = some cap) :
    ({ b with cap := cap } : Bimap K).Sound hash ∧ b.recs.length + 1 ≤ cap := by
  obtain ⟨fits, grown, capacity⟩ := dsReserve_sound s.valid.capacity reserved
  exact ⟨⟨⟨s.valid.fwd, s.valid.rev, s.valid.hashes, capacity, s.valid.room.trans grown⟩, s.fwd_low, s.rev_low⟩, fits⟩

theorem pairSet_revalue {b b' : Bimap K} (val : b.Valid hash) {v : K}
    (there : b.recs[idx]? = some r) (free : ∀ s ∈ b.recs, s.val ≠ v)
    (recs : b'.recs = b.recs.set idx { r with val := v, vh := hash v }) :
    pairSet b' = putPair r.key v (pairSet b) := by
  have mem := mem_of_getElem? there
  ext ⟨k, w⟩
  simp only [pairSet, putPair, Set.mem_ofPred_eq, recs, mem_set_record val there, Prod.mk.injEq]
  constructor
  · rintro ⟨s, rfl | ⟨hs, other⟩, rfl, rfl⟩
    · exact .inr ⟨rfl, rfl⟩
    · exact .inl ⟨⟨s, hs, rfl, rfl⟩, fun same => other (val.fwd.one hs mem same), free s hs⟩
  · rintro (⟨⟨s, hs, rfl, rfl⟩, other, _⟩ | ⟨rfl, rfl⟩)
    · exact ⟨s, .inr ⟨hs, fun same => other (by rw [same])⟩, rfl, rfl⟩
    · exact ⟨_, .inl rfl, rfl, rfl⟩

theorem putNew_valid (val : b.Valid hash) {k v : K}
    (new : ixGet hash b.fwd k = none) (free : ixGet hash b.rev v = none) {fwd rev : Ix K}
    {ok ok' : Bool} (inserted : ixInsert b.fwd (hash k) k b.recs.length ok = some fwd)
    (inserted' : ixInsert b.rev (hash v) v b.recs.length ok' = some rev)
    (room : b.recs.length + 1 ≤ b.cap) :
    ({ b with recs := b.recs ++ [⟨k, hash k, v, hash v⟩], fwd := fwd, rev := rev } : Bimap K).Valid hash := by
  refine ⟨?_, ?_, fun r hr => ?_, val.capacity, by simpa using room⟩
  · have index := val.fwd.append new (by rw [length_map]; exact inserted)
    simpa using index
  · have index := val.rev.append free (by rw [length_map]; exact inserted')
    simpa using index
  · rcases mem_append.mp hr with old | last
    · exact val.hashes r old
    · rw [mem_singleton.mp last]
      exact ⟨rfl, rfl⟩

theorem pairSet_append {K : Type} {b b' : Bimap K} {k v : K} {kh vh : Nat}
    (new : ∀ s ∈ b.recs, s.key ≠ k) (free : ∀ s ∈ b.recs, s.val ≠ v)
    (recs : b'.recs = b.recs ++ [⟨k, kh, v, vh⟩]) : pairSet b' = putPair k v (pairSet b) := by
  ext ⟨k', v'⟩
  simp only [pairSet, putPair, Set.mem_ofPred_eq, recs, mem_append, mem_singleton, Prod.mk.injEq]
  constructor
  · rintro ⟨s, hs | rfl, rfl, rfl⟩
    · exact .inl ⟨⟨s, hs, rfl, rfl⟩, new s hs, free s hs⟩
    · exact .inr ⟨rfl, rfl⟩
  · rintro (⟨⟨s, hs, rfl, rfl⟩, _⟩ | ⟨rfl, rfl⟩)
    · exact ⟨s, .inl hs, rfl, rfl⟩
    · exact ⟨_, .inr rfl, rfl, rfl⟩

theorem erase_value (s : b.Sound hash) {v : K} {vp : Nat} (found : ixFind b.rev (hash v) v = some vp) :
    ∃ r, b.recs[b.rev.idxAt vp]? = some r ∧ r.val = v ∧ (bimapErase b (b.rev.idxAt vp)).Sound hash ∧
      (bimapErase b (b.rev.idxAt vp)).recs.length + 1 = b.recs.length ∧
      (bimapErase b (b.rev.idxAt vp)).fwd.cap = b.fwd.cap ∧
      (bimapErase b (b.rev.idxAt vp)).rev.cap = b.rev.cap ∧
      (∀ t, t ∈ (bimapErase b (b.rev.idxAt vp)).recs ↔ t ∈ b.recs ∧ t.val ≠ v) := by
  obtain ⟨r, there, val⟩ := s.valid.rev.record found
  obtain ⟨valid, recs, fwd_cap, rev_cap⟩ := bimapErase_spec s.valid there
  have mem := mem_of_getElem? there
  have inside := (List.getElem?_eq_some_iff.mp there).1
  refine ⟨r, there, val, ⟨valid, by rw [fwd_cap]; exact s.fwd_low, by rw [rev_cap]; exact s.rev_low⟩,
    by rw [recs, swapRemove_length inside]; omega, fwd_cap, rev_cap, fun t => ?_⟩
  rw [mem_bimapErase s.valid there]
  refine and_congr_right fun ht => not_congr ⟨fun same => by rw [same, val], fun same => ?_⟩
  exact s.valid.rev.one ht mem (same.trans val.symm)

omit [DecidableEq K] in
theorem putPair_erased {b e : Bimap K} {v : K} (recs : ∀ t, t ∈ e.recs ↔ t ∈ b.recs ∧ t.val ≠ v) (k : K) :
    putPair k v (pairSet e) = putPair k v (pairSet b) := by
  ext ⟨k', v'⟩
  simp only [putPair, pairSet, Set.mem_ofPred_eq, recs]
  refine or_congr_left (and_congr_left fun other => exists_congr fun t => ?_)
  constructor
  · rintro ⟨⟨ht, _⟩, same⟩
    exact ⟨ht, same⟩
  · rintro ⟨ht, rfl, rfl⟩
    exact ⟨⟨ht, other.2⟩, rfl, rfl⟩

theorem bimapGet_eq (b : Bimap K) (k : K) : bimapGet hash b k = (recFor hash b.fwd b.recs k).map BimapRec.val := by
  unfold bimapGet recFor ixGet
  cases ixFind b.fwd (hash k) k <;> rfl

theorem bimapKeyFor_eq (b : Bimap K) (w : K) :
    bimapKeyFor hash b w = (recFor hash b.rev b.recs w).map BimapRec.key := by
  unfold bimapKeyFor recFor ixGet
  cases ixFind b.rev (hash w) w <;> rfl

theorem bimapGet_iff (v : b.Valid hash) (k w : K) : bimapGet hash b k = some w ↔ (k, w) ∈ pairSet b := by
  simp only [bimapGet_eq, map_eq_some_iff, recFor_iff v.fwd, pairSet, Set.mem_ofPred_eq, and_assoc]

theorem bimapKeyFor_iff (v : b.Valid hash) (k w : K) : bimapKeyFor hash b w = some k ↔ (k, w) ∈ pairSet b := by
  simp only [bimapKeyFor_eq, map_eq_some_iff, recFor_iff v.rev, pairSet, Set.mem_ofPred_eq, and_assoc, and_comm]

/-- A free put of a value another key holds stops before it changes anything. -/
theorem bimapPut_taken (val : b.Valid hash) {k v k' : K} (other : k' ≠ k)
    (held : (k', v) ∈ pairSet b) (mem : Nat → Bool) :
    bimapPut hash b k v false mem = (valueTaken, b) := by
  obtain ⟨r, hr, rfl, rfl⟩ := held
  obtain ⟨j, there⟩ := mem_iff_getElem?.mp hr
  obtain ⟨_, ⟨vp, found, at_j⟩⟩ := bimap_finds val there
  unfold bimapPut
  cases found' : ixFind b.fwd (hash k) k with
  | none => simp [found]
  | some kp =>
    obtain ⟨s, at_s, key_s⟩ := val.fwd.record found'
    have differ : b.fwd.idxAt kp ≠ b.rev.idxAt vp := fun same => by
      rw [same, at_j, there, some.injEq] at at_s
      exact other (at_s ▸ key_s)
    simp [found, differ]

section Put

variable (s : b.Sound hash) (few : b.recs.length < 375809638)
include s few

theorem reserve_rev {ok : Bool} {rev : Ix K} (reserved : ixReserve b.rev ok = some rev) :
    ({ b with rev := rev } : Bimap K).Sound hash ∧ rev.used = b.recs.length ∧
      (b.recs.length + 1) * 10 < rev.cap * 7 ∧ ixGet hash rev = ixGet hash b.rev := by
  obtain ⟨low, used, room⟩ := s.valid.rev.reserve_low s.rev_low few reserved
  exact ⟨⟨{ s.valid with rev := s.valid.rev.reserve reserved }, s.fwd_low, low⟩, used, room,
    ixReserve_get s.valid.rev.valid reserved⟩

theorem reserve_fwd {ok : Bool} {fwd : Ix K} (reserved : ixReserve b.fwd ok = some fwd) :
    ({ b with fwd := fwd } : Bimap K).Sound hash ∧ (b.recs.length + 1) * 10 < fwd.cap * 7 := by
  obtain ⟨low, _, room⟩ := s.valid.fwd.reserve_low s.fwd_low few reserved
  exact ⟨⟨{ s.valid with fwd := s.valid.fwd.reserve reserved }, low, s.rev_low⟩, room⟩

theorem putValue_outcome {v : K} (there : b.recs[idx]? = some r)
    (free : ixGet hash b.rev v = none) (mem : Nat → Bool) :
    PutOutcome hash b r.key v mem (putValue b idx (hash v) v mem) := by
  simp only [putValue]
  cases reserved : ixReserve b.rev (mem 0) with
  | none => exact ⟨s, .inr ⟨rfl, rfl, s.valid.rev.reserve_refused s.rev_low reserved⟩⟩
  | some rev =>
    obtain ⟨sound, used, room, get⟩ := reserve_rev s few reserved
    split_ifs with copied
    · obtain ⟨valid, recs, fwd, cap⟩ := bimapRevalue_spec sound.valid there
        (by rw [get]; exact free) sound.rev_low (by dsimp only; omega) (mem 2)
      refine ⟨⟨valid, by rw [fwd]; exact s.fwd_low, by rw [cap]; exact sound.rev_low⟩, .inl ⟨rfl, ?_⟩⟩
      exact pairSet_revalue s.valid there (s.valid.rev.missing.mp free) recs
    · exact ⟨sound, .inr ⟨rfl, rfl, copy_refused copied⟩⟩

theorem putNew_outcome {k v : K} (new : ixGet hash b.fwd k = none) (free : ixGet hash b.rev v = none)
    (mem : Nat → Bool) : PutOutcome hash b k v mem (putNew b (hash k) k (hash v) v mem) := by
  have used : b.fwd.used = b.recs.length := s.valid.fwd.size
  have used' : b.rev.used = b.recs.length := s.valid.rev.size
  simp only [putNew]
  cases reserved : dsReserve b.cap (b.recs.length + 1) bimapRecSize (mem 0) with
  | none => exact ⟨s, .inr ⟨rfl, rfl, recs_refused s.valid few reserved⟩⟩
  | some cap =>
    obtain ⟨sound, fits⟩ := reserve_recs s reserved
    split_ifs with copied
    · cases inserted : ixInsert b.fwd (hash k) k b.recs.length (mem 3) with
      | none => exact ⟨sound, .inr ⟨rfl, rfl, s.valid.fwd.insert_refused s.fwd_low inserted⟩⟩
      | some fwd =>
        have low := ixInsert_low s.valid.fwd.valid s.fwd_low (by omega) inserted
        obtain ⟨fwd_valid, fwd_used, fwd_get⟩ := ixInsert_get s.valid.fwd.valid new inserted
        cases inserted' : ixInsert b.rev (hash v) v b.recs.length (mem 4) with
        | none =>
          -- The entry just made is found and taken out again.
          have there : ixGet hash fwd k = some b.recs.length := by
            rw [fwd_get, Function.update_self]
          obtain ⟨p, found, _⟩ := map_eq_some_iff.mp there
          obtain ⟨valid, less, cap', get⟩ := ixErase_get fwd_valid found
          rw [fwd_get, Function.update_idem, ← new, Function.update_eq_self] at get
          have back : Indexes hash (ixDiscard fwd (hash k) k) (b.recs.map BimapRec.key) := by
            simp only [ixDiscard, found]
            refine ⟨valid, by rw [length_map]; omega, fun k' i => ?_⟩
            rw [get]
            exact s.valid.fwd.get k' i
          have size : (ixDiscard fwd (hash k) k).cap = fwd.cap := by
            simp only [ixDiscard, found, cap']
          exact ⟨⟨⟨back, s.valid.rev, s.valid.hashes, sound.valid.capacity, sound.valid.room⟩,
            by dsimp only; omega, s.rev_low⟩, .inr ⟨rfl, rfl, s.valid.rev.insert_refused s.rev_low inserted'⟩⟩
        | some rev =>
          have low' := ixInsert_low s.valid.rev.valid s.rev_low (by omega) inserted'
          have valid := putNew_valid sound.valid new free inserted inserted' fits
          refine ⟨⟨valid, low, low'⟩, .inl ⟨rfl, ?_⟩⟩
          exact pairSet_append (s.valid.fwd.missing.mp new) (s.valid.rev.missing.mp free) rfl
    · exact ⟨sound, .inr ⟨rfl, rfl, copies_refused copied⟩⟩

theorem putTaken_outcome {k v : K} (new : ixGet hash b.fwd k = none) (taken : (ixGet hash b.rev v).isSome)
    (mem : Nat → Bool) : PutOutcome hash b k v mem (putTaken b (hash k) k (hash v) v mem) := by
  simp only [putTaken]
  cases reserved : dsReserve b.cap (b.recs.length + 1) bimapRecSize (mem 0) with
  | none => exact ⟨s, .inr ⟨rfl, rfl, recs_refused s.valid few reserved⟩⟩
  | some cap =>
    obtain ⟨s₁, fits⟩ := reserve_recs s reserved
    split_ifs with copied
    · cases reserved₂ : ixReserve b.fwd (mem 3) with
      | none => exact ⟨s₁, .inr ⟨rfl, rfl, s.valid.fwd.reserve_refused s.fwd_low reserved₂⟩⟩
      | some fwd =>
        obtain ⟨s₂, room₂⟩ := reserve_fwd s₁ few reserved₂
        cases reserved₃ : ixReserve b.rev (mem 4) with
        | none => exact ⟨s₂, .inr ⟨rfl, rfl, s.valid.rev.reserve_refused s.rev_low reserved₃⟩⟩
        | some rev =>
          obtain ⟨s₃, _, room₃, get₃⟩ := reserve_rev s₂ few reserved₃
          dsimp only at s₃ room₂ room₃ ⊢
          obtain ⟨_, held⟩ := isSome_iff_exists.mp (get₃ ▸ taken)
          obtain ⟨vp, found, _⟩ := map_eq_some_iff.mp held
          obtain ⟨r, there, val, s₄, len, fwd_cap, rev_cap, recs⟩ := erase_value s₃ found
          have erased_cap := bimapErase_cap ({ b with cap := cap, fwd := fwd, rev := rev } : Bimap K) (rev.idxAt vp)
          simp only [found]
          generalize bimapErase { b with cap := cap, fwd := fwd, rev := rev } (rev.idxAt vp) = e at *
          have fwd_used : e.fwd.used = e.recs.length := s₄.valid.fwd.size
          have rev_used : e.rev.used = e.recs.length := s₄.valid.rev.size
          have new' : ∀ t ∈ e.recs, t.key ≠ k := fun t ht =>
            s.valid.fwd.missing.mp new t ((recs t).mp ht).1
          have free' : ∀ t ∈ e.recs, t.val ≠ v := fun t ht => ((recs t).mp ht).2
          obtain ⟨fwd', inserted, fwd_size⟩ := ixInsert_light s₄.fwd_low
            (by rw [fwd_cap]; dsimp only at len ⊢; omega) (hash k) k e.recs.length (mem 5)
          obtain ⟨rev', inserted', rev_size⟩ := ixInsert_light s₄.rev_low
            (by rw [rev_cap]; dsimp only at len ⊢; omega) (hash v) v e.recs.length (mem 6)
          simp only [inserted, inserted', getD_some]
          have width : e.recs.length + 1 ≤ e.cap := by
            rw [erased_cap]
            dsimp only at len ⊢
            omega
          have valid := putNew_valid s₄.valid (s₄.valid.fwd.missing.mpr new')
            (s₄.valid.rev.missing.mpr free') inserted inserted' width
          refine ⟨⟨valid, by rw [fwd_size]; exact s₄.fwd_low, by rw [rev_size]; exact s₄.rev_low⟩, .inl ⟨rfl, ?_⟩⟩
          exact (pairSet_append new' free' rfl).trans (putPair_erased recs k)
    · exact ⟨s₁, .inr ⟨rfl, rfl, copies_refused copied⟩⟩

theorem putBoth_outcome {k v : K} {i j : Nat} (key : ixGet hash b.fwd k = some i) (taken : ixGet hash b.rev v = some j)
    (differ : i ≠ j) (mem : Nat → Bool) :
    PutOutcome hash b k v mem (putBoth b (hash k) k (hash v) v mem) := by
  simp only [putBoth]
  cases reserved : ixReserve b.rev (mem 0) with
  | none => exact ⟨s, .inr ⟨rfl, rfl, s.valid.rev.reserve_refused s.rev_low reserved⟩⟩
  | some rev =>
    obtain ⟨s₁, _, room, get⟩ := reserve_rev s few reserved
    split_ifs with copied
    · obtain ⟨vp, found, at_j⟩ := map_eq_some_iff.mp (get ▸ taken)
      obtain ⟨r, there, val, s₂, len, _, rev_cap, recs⟩ := erase_value s₁ found
      -- The key's record is another one, so the erasure leaves it somewhere.
      obtain ⟨t, at_t, key_t⟩ : ∃ t, b.recs[i]? = some t ∧ t.key = k := by
        simpa using (s.valid.fwd.get k i).mp key
      have mem_t := mem_of_getElem? at_t
      have other : t.val ≠ v := fun same => by
        have at_i : ixGet hash b.rev v = some i := (s.valid.rev.get v i).mpr (by simp [at_t, same])
        rw [taken, some.injEq] at at_i
        exact differ at_i.symm
      simp only [found]
      generalize bimapErase { b with rev := rev } (rev.idxAt vp) = e at *
      have kept : t ∈ e.recs := (recs t).mpr ⟨mem_t, other⟩
      obtain ⟨_, key_e⟩ := s₂.valid.fwd.mem.mp (mem_map.mpr ⟨t, kept, key_t⟩)
      obtain ⟨kp, found', _⟩ := map_eq_some_iff.mp key_e
      obtain ⟨u, at_u, key_u⟩ := s₂.valid.fwd.record found'
      have free : ∀ w ∈ e.recs, w.val ≠ v := fun w hw => ((recs w).mp hw).2
      have used : e.rev.used = e.recs.length := s₂.valid.rev.size
      simp only [found']
      obtain ⟨valid, recs', fwd, cap⟩ := bimapRevalue_spec s₂.valid at_u (s₂.valid.rev.missing.mpr free)
        s₂.rev_low (by rw [rev_cap]; dsimp only at len ⊢; omega) (mem 2)
      refine ⟨⟨valid, by rw [fwd]; exact s₂.fwd_low, by rw [cap]; exact s₂.rev_low⟩, .inl ⟨rfl, ?_⟩⟩
      rw [pairSet_revalue s₂.valid at_u free recs', key_u, putPair_erased recs]
      rfl
    · exact ⟨s₁, .inr ⟨rfl, rfl, copy_refused copied⟩⟩

/-- A put keeps the bimap sound. It returns 0 and has put the pair, or -1 and has
changed no record, or it was free to refuse and did because another key has the value. -/
theorem bimapPut_spec (k v : K) (force : Bool) (mem : Nat → Bool) :
    PutOutcome hash b k v mem (bimapPut hash b k v force mem) ∨
    (force = false ∧ bimapPut hash b k v force mem = (valueTaken, b) ∧ ∃ k', k' ≠ k ∧ (k', v) ∈ pairSet b) := by
  cases found : ixFind b.fwd (hash k) k with
  | none =>
    have new := ixFind_none.mp found
    cases found' : ixFind b.rev (hash v) v with
    | none =>
      have free := ixFind_none.mp found'
      simp only [bimapPut, found, found']
      exact .inl (putNew_outcome s few new free mem)
    | some vp =>
      have taken := (ixFind_some s.valid.rev.valid.sound found').2.2
      obtain ⟨r, there, rfl⟩ := s.valid.rev.record found'
      have mem_r := mem_of_getElem? there
      cases force with
      | false =>
        refine .inr ⟨rfl, by simp [bimapPut, found, found'], r.key, ?_, ⟨r, mem_r, rfl, rfl⟩⟩
        exact s.valid.fwd.missing.mp new r mem_r
      | true =>
        simp only [bimapPut, found, found', not_true_eq_false, if_false]
        exact .inl (putTaken_outcome s few new (by rw [taken]; rfl) mem)
  | some kp =>
    have key := (ixFind_some s.valid.fwd.valid.sound found).2.2
    obtain ⟨r, there, rfl⟩ := s.valid.fwd.record found
    have mem_r := mem_of_getElem? there
    cases found' : ixFind b.rev (hash v) v with
    | none =>
      have free := ixFind_none.mp found'
      simp only [bimapPut, found, found']
      exact .inl (putValue_outcome s few there free mem)
    | some vp =>
      have taken := (ixFind_some s.valid.rev.valid.sound found').2.2
      obtain ⟨t, at_t, rfl⟩ := s.valid.rev.record found'
      have mem_t := mem_of_getElem? at_t
      by_cases same : b.fwd.idxAt kp = b.rev.idxAt vp
      · -- The pair is already there: it is the only one with its key or its value.
        have one : r = t := by
          rw [same, at_t] at there
          exact (some.inj there).symm
        subst one
        simp only [bimapPut, found, found', if_pos same]
        refine .inl ⟨s, .inl ⟨rfl, ?_⟩⟩
        ext ⟨k', v'⟩
        simp only [putPair, pairSet, Set.mem_ofPred_eq, Prod.mk.injEq]
        constructor
        · rintro ⟨u, hu, rfl, rfl⟩
          by_cases eq : u = r
          · exact .inr ⟨by rw [eq], by rw [eq]⟩
          · exact .inl ⟨⟨u, hu, rfl, rfl⟩, fun h => eq (s.valid.fwd.one hu mem_r h),
              fun h => eq (s.valid.rev.one hu mem_r h)⟩
        · rintro (⟨h, _⟩ | ⟨rfl, rfl⟩)
          · exact h
          · exact ⟨r, mem_r, rfl, rfl⟩
      · cases force with
        | false =>
          refine .inr ⟨rfl, by simp [bimapPut, found, found', same], t.key, fun eq => same ?_, ⟨t, mem_t, rfl, rfl⟩⟩
          have : t = r := s.valid.fwd.one mem_t mem_r eq
          subst this
          have := (s.valid.fwd.get _ _).mpr (by simp [at_t] : (b.recs.map BimapRec.key)[b.rev.idxAt vp]? = some t.key)
          rw [key, some.injEq] at this
          exact this
        | true =>
          simp only [bimapPut, found, found', if_neg same, not_true_eq_false, if_false]
          exact .inl (putBoth_outcome s few key taken same mem)

end Put

theorem bimapErase_sound (s : b.Sound hash) (there : b.recs[idx]? = some r) {gone : K × K → Prop}
    (only : ∀ t ∈ b.recs, gone (t.key, t.val) ↔ t = r) : (bimapErase b idx).Sound hash ∧
    pairSet (bimapErase b idx) = {p | p ∈ pairSet b ∧ ¬ gone p} := by
  obtain ⟨valid, _, fwd_cap, rev_cap⟩ := bimapErase_spec s.valid there
  refine ⟨⟨valid, by rw [fwd_cap]; exact s.fwd_low, by rw [rev_cap]; exact s.rev_low⟩, ?_⟩
  ext ⟨k, v⟩
  simp only [pairSet, Set.mem_ofPred_eq, mem_bimapErase s.valid there]
  constructor
  · rintro ⟨t, ⟨ht, other⟩, rfl, rfl⟩
    exact ⟨⟨t, ht, rfl, rfl⟩, fun same => other ((only t ht).mp same)⟩
  · rintro ⟨⟨t, ht, rfl, rfl⟩, other⟩
    exact ⟨t, ⟨ht, fun same => other ((only t ht).mpr same)⟩, rfl, rfl⟩

omit [DecidableEq K] in
theorem pairSet_keeps {gone : K × K → Prop} (none : ∀ t ∈ b.recs, ¬ gone (t.key, t.val)) :
    pairSet b = {p | p ∈ pairSet b ∧ ¬ gone p} := by
  ext ⟨k, v⟩
  refine ⟨fun h => ⟨h, ?_⟩, And.left⟩
  obtain ⟨t, ht, rfl, rfl⟩ := h
  exact none t ht

inductive BimapOp (K : Type) where
  | put (k v : K) (force : Bool) (mem : Nat → Bool)
  | remove (k : K)
  | removeValue (v : K)
  | clear

def BimapOp.exec (hash : K → Nat) (b : Bimap K) : BimapOp K → Int × Bimap K
  | .put k v force mem => bimapPut hash b k v force mem
  | .remove k => bimapRemove hash b k
  | .removeValue v => bimapRemoveValue hash b v
  | .clear => (0, bimapClear b)

/-- The change a call makes to a set of pairs, given its return code. Only a put that
returns 0 puts. -/
def BimapOp.denote (rc : Int) (P : Set (K × K)) : BimapOp K → Set (K × K)
  | .put k v _ _ => if rc = 0 then putPair k v P else P
  | .remove k => {p | p ∈ P ∧ p.1 ≠ k}
  | .removeValue v => {p | p ∈ P ∧ p.2 ≠ v}
  | .clear => ∅

def bimapStep (hash : K → Nat) (state : Bimap K × Set (K × K)) (op : BimapOp K) : Bimap K × Set (K × K) :=
  ((op.exec hash state.1).2, op.denote (op.exec hash state.1).1 state.2)

def bimapRun (hash : K → Nat) (ops : List (BimapOp K)) : Bimap K × Set (K × K) :=
  ops.foldl (bimapStep hash) (bimapNew, ∅)

def Roomy (hash : K → Nat) (ops : List (BimapOp K)) : Prop := ∀ before op after, ops = before ++ op :: after →
    (bimapRun hash before).1.recs.length < 375809638

theorem bimapRun_append (ops : List (BimapOp K)) (op : BimapOp K) :
    bimapRun hash (ops ++ [op]) = bimapStep hash (bimapRun hash ops) op := by
  simp [bimapRun]

theorem bimapOp_step (s : b.Sound hash) (few : b.recs.length < 375809638)
    (op : BimapOp K) : (op.exec hash b).2.Sound hash ∧
    pairSet (op.exec hash b).2 = op.denote (op.exec hash b).1 (pairSet b) := by
  cases op with
  | put k v force mem =>
    show (bimapPut hash b k v force mem).2.Sound hash ∧ pairSet (bimapPut hash b k v force mem).2 =
        if (bimapPut hash b k v force mem).1 = 0 then putPair k v (pairSet b) else pairSet b
    rcases bimapPut_spec s few k v force mem with ⟨sound, ⟨rc, eq⟩ | ⟨rc, recs, _⟩⟩ | ⟨_, eq, _⟩
    · exact ⟨sound, by rw [rc, if_pos rfl, eq]⟩
    · refine ⟨sound, ?_⟩
      rw [rc, if_neg (by decide), pairSet_congr recs]
    · rw [eq]
      exact ⟨s, (if_neg (show ¬ valueTaken = 0 by decide)).symm⟩
  | remove k =>
    simp only [BimapOp.exec, bimapRemove, BimapOp.denote]
    cases found : ixFind b.fwd (hash k) k with
    | none => exact ⟨s, pairSet_keeps (s.valid.fwd.missing.mp (ixFind_none.mp found))⟩
    | some p =>
      obtain ⟨r, there, rfl⟩ := s.valid.fwd.record found
      refine bimapErase_sound s there fun t ht => ⟨fun same => ?_, fun same => by rw [same]⟩
      exact s.valid.fwd.one ht (mem_of_getElem? there) same
  | removeValue v =>
    simp only [BimapOp.exec, bimapRemoveValue, BimapOp.denote]
    cases found : ixFind b.rev (hash v) v with
    | none => exact ⟨s, pairSet_keeps (s.valid.rev.missing.mp (ixFind_none.mp found))⟩
    | some p =>
      obtain ⟨r, there, rfl⟩ := s.valid.rev.record found
      refine bimapErase_sound s there fun t ht => ⟨fun same => ?_, fun same => by rw [same]⟩
      exact s.valid.rev.one ht (mem_of_getElem? there) same
  | clear =>
    refine ⟨⟨bimapClear_valid s.valid, by simp [BimapOp.exec, bimapClear, ixEmpty],
      by simp [BimapOp.exec, bimapClear, ixEmpty]⟩, ?_⟩
    simp [BimapOp.exec, BimapOp.denote, bimapClear, pairSet]

theorem bimapRun_sound (ops : List (BimapOp K)) (roomy : Roomy hash ops) :
    (bimapRun hash ops).1.Sound hash ∧ pairSet (bimapRun hash ops).1 = (bimapRun hash ops).2 := by
  induction ops using List.reverseRecOn with
  | nil =>
    refine ⟨⟨bimapNew_valid, ?_, ?_⟩, ?_⟩
    · exact Nat.zero_le _
    · exact Nat.zero_le _
    · simp [bimapRun, bimapNew, pairSet]
  | append_singleton ops op ih =>
    obtain ⟨s, same⟩ := ih fun before op' after cut => roomy before op' (after ++ [op]) (by simp [cut])
    have step := bimapOp_step s (roomy ops op [] rfl) op
    rw [bimapRun_append]
    refine ⟨step.1, ?_⟩
    simp only [bimapStep]
    rw [step.2, same]

/-- Over every run of puts, removals and clearings whose calls are made on fewer than
375809638 pairs, the record array and both indexes describe one set of pairs without a
repeated key or value. A put that is not forced refuses a value another key holds and
changes nothing. Every other put replaces the old pairs of its key and of its value by the
new one, or it was refused memory and changes no pair. -/
theorem bimap_is_bijection (hash : K → Nat) (ops : List (BimapOp K)) (roomy : Roomy hash ops) :
    let s := bimapRun hash ops
    (s.1.recs.map BimapRec.key).Nodup ∧ (s.1.recs.map BimapRec.val).Nodup ∧
    (∀ p, p ∈ s.2 ↔ ∃ r ∈ s.1.recs, (r.key, r.val) = p) ∧
    (∀ k v, bimapGet hash s.1 k = some v ↔ (k, v) ∈ s.2) ∧
    (∀ k v, bimapKeyFor hash s.1 v = some k ↔ (k, v) ∈ s.2) ∧
    (∀ k v, bimapGet hash s.1 k = some v ↔ bimapKeyFor hash s.1 v = some k) ∧
    (∀ k v mem, (∃ k', k' ≠ k ∧ (k', v) ∈ s.2) → bimapPut hash s.1 k v false mem = (valueTaken, s.1)) ∧
    (∀ k v force mem, s.1.recs.length < 375809638 →
      (force = true ∨ ∀ k', (k', v) ∈ s.2 → k' = k) →
      let r := bimapPut hash s.1 k v force mem
      (r.1 = 0 ∧ pairSet r.2 = putPair k v s.2) ∨ (r.1 = -1 ∧ pairSet r.2 = s.2 ∧ ∃ n, mem n = false)) := by
  obtain ⟨sound, same⟩ := bimapRun_sound ops roomy
  intro s
  refine ⟨sound.valid.fwd.nodup, sound.valid.rev.nodup, fun p => ?_, fun k v => ?_, fun k v => ?_,
    fun k v => ?_, fun k v mem ⟨k', other, held⟩ => ?_, fun k v force mem few free => ?_⟩
  · rw [← same]
    simp only [pairSet, Set.mem_ofPred_eq, Prod.ext_iff]
    rfl
  · rw [← same]
    exact bimapGet_iff sound.valid k v
  · rw [← same]
    exact bimapKeyFor_iff sound.valid k v
  · exact (bimapGet_iff sound.valid k v).trans (bimapKeyFor_iff sound.valid k v).symm
  · rw [← same] at held
    exact bimapPut_taken sound.valid other held mem
  · rw [← same] at free ⊢
    rcases bimapPut_spec sound few k v force mem with outcome | ⟨asked, _, k', other, held⟩
    · exact outcome.result.imp id fun ⟨rc, recs, refused⟩ => ⟨rc, pairSet_congr recs, refused⟩
    · rcases free with forced | only
      · exact absurd (asked.symm.trans forced) Bool.false_ne_true
      · exact absurd (only k' held) other

/-- A forced put that takes the value of one pair over and drops the old value of its key. -/
theorem bimap_is_bijection_takeover :
    let ops : List (BimapOp (List UInt8)) :=
      [.put [1] [2] false fun _ => true, .put [3] [4] false fun _ => true, .put [3] [2] true fun _ => true]
    let b := (bimapRun (fun _ => 1) ops).1
    Roomy (fun _ => 1) ops ∧ (([3], [2]) ∈ (bimapRun (fun _ => 1) ops).2) ∧
      bimapKeyFor (fun _ => 1) b [2] = some [3] ∧ bimapGet (fun _ => 1) b [1] = none ∧
      bimapKeyFor (fun _ => 1) b [4] = none ∧ b.recs.length = 1 := by
  intro ops b
  have roomy : Roomy (fun _ => 1) ops := by
    rintro (_ | ⟨first, _ | ⟨second, _ | ⟨third, before⟩⟩⟩) op after cut
    · decide
    · rw [← (List.cons.inj cut).1]
      decide +kernel
    · rw [← (List.cons.inj cut).1, ← (List.cons.inj (List.cons.inj cut).2).1]
      decide +kernel
    · simp [ops] at cut
  have got : bimapGet (fun _ => 1) b [3] = some [2] := by decide +kernel
  obtain ⟨-, -, -, pairs, -, inverse, -⟩ := bimap_is_bijection (fun _ => 1) ops roomy
  exact ⟨roomy, (pairs [3] [2]).mp got, (inverse [3] [2]).mp got, by decide +kernel⟩

end DynaJS.Ds
