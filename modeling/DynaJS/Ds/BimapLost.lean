import DynaJS.Ds.BimapRun

/-! Where the bimap breaks: past 375809638 pairs the reverse index can be grown by
`ix_reserve` and still refuse the `ix_insert` that follows, whose result
`dyn_bimap_put` does not look at. The pair is then in the record array and in the
forward index only. -/
namespace DynaJS.Ds

open List Option UInt8

variable {K : Type} {hash : K → Nat}

/-- With 2^31 slots and 214748364 entries an index takes nothing more. -/
theorem ixInsert_full {ix : Ix K} (v : ix.Valid hash) (top : ix.cap = 2 ^ 31)
    (many : 214748364 ≤ ix.used) (h : Nat) (k : K) (idx : Nat) (ok : Bool) :
    ixInsert ix h k idx ok = none := by
  have full := v.full
  have loaded : ix.cap * 7 % 2 ^ 32 ≤ (ix.used + 1) * 10 % 2 ^ 32 := by
    rw [Nat.mod_eq_of_lt (by omega : (ix.used + 1) * 10 < 2 ^ 32)]
    omega
  have large : 0x40000000 < ix.cap := by omega
  rw [ixInsert, ixReserve, if_pos loaded, ixGrow, if_pos large, map_none]

theorem ixReserve_doubles {ix : Ix K} (v : ix.Valid hash) (small : ix.cap ≤ 2 ^ 30)
    (loaded : ix.cap * 7 % 2 ^ 32 ≤ (ix.used + 1) * 10) :
    ∃ ix', ixReserve ix true = some ix' ∧ ix'.cap = grownCap ix.cap ∧ ix'.used = ix.used := by
  have full := v.full
  have exact : (ix.used + 1) * 10 % 2 ^ 32 = (ix.used + 1) * 10 := Nat.mod_eq_of_lt (by omega)
  cases reserved : ixReserve ix true with
  | none =>
    have := ixReserve_refused v reserved
    omega
  | some ix' =>
    have grown : ixGrow ix true = some ix' := by
      rw [← reserved, ixReserve, exact, if_pos loaded]
    obtain ⟨_, used, cap, _⟩ := ixGrow_spec v grown
    exact ⟨ix', rfl, cap, used⟩

theorem ixInsert_granted {ix : Ix K} (v : ix.Valid hash) (small : ix.cap ≤ 2 ^ 30) (h : Nat) (k : K)
    (idx : Nat) : ∃ ix', ixInsert ix h k idx true = some ix' := by
  cases reserved : ixReserve ix true with
  | none =>
    have := ixReserve_refused v reserved
    omega
  | some r => exact ⟨_, by rw [ixInsert, reserved, map_some]⟩

variable [DecidableEq K]

theorem putNew_granted {b : Bimap K} (val : b.Valid hash) {k v : K}
    (new : ∀ r ∈ b.recs, r.key ≠ k) (free : ∀ r ∈ b.recs, r.val ≠ v)
    (few : b.recs.length < 2 ^ 31) (fwd_small : b.fwd.cap ≤ 2 ^ 30)
    (rev_small : b.rev.cap ≤ 2 ^ 30) :
    ∃ fwd rev cap, bimapPut hash b k v false (fun _ => true) =
        (0, ⟨b.recs ++ [⟨k, hash k, v, hash v⟩], cap, fwd, rev⟩) ∧
      (⟨b.recs ++ [⟨k, hash k, v, hash v⟩], cap, fwd, rev⟩ : Bimap K).Valid hash ∧
      ixInsert b.fwd (hash k) k b.recs.length true = some fwd ∧
      ixInsert b.rev (hash v) v b.recs.length true = some rev := by
  have absent_k : ixGet hash b.fwd k = none := val.fwd.missing.mpr new
  have absent_v : ixGet hash b.rev v = none := val.rev.missing.mpr free
  obtain ⟨cap, reserved⟩ := isSome_iff_exists.mp
    (@dsReserve_succeeds _ (b.recs.length + 1) bimapRecSize val.capacity (by omega) (by decide) (by decide))
  obtain ⟨fits, grown, capacity⟩ := dsReserve_sound val.capacity reserved
  obtain ⟨fwd, inserted⟩ := ixInsert_granted val.fwd.valid fwd_small (hash k) k b.recs.length
  obtain ⟨rev, inserted'⟩ := ixInsert_granted val.rev.valid rev_small (hash v) v b.recs.length
  have wide : ({ b with cap := cap } : Bimap K).Valid hash :=
    ⟨val.fwd, val.rev, val.hashes, capacity, val.room.trans grown⟩
  refine ⟨fwd, rev, cap, ?_, putNew_valid wide absent_k absent_v inserted inserted' fits, inserted, inserted'⟩
  simp only [bimapPut, ixFind_none.mpr absent_k, ixFind_none.mpr absent_v, putNew, reserved, inserted, inserted']
  rfl

def word (i : Nat) : List UInt8 :=
  [ofNat i, ofNat (i / 256), ofNat (i / 65536), ofNat (i / 16777216)]

theorem word_inj {i j : Nat} (hi : i < 2 ^ 32) (hj : j < 2 ^ 32) (same : word i = word j) : i = j := by
  simp only [word, List.cons.injEq, ← UInt8.toNat_inj, UInt8.toNat_ofNat', and_true] at same
  omega

def someHash (k : List UInt8) : Nat := k.length + 1

variable (n : Nat)

def freshPuts : List (BimapOp (List UInt8)) := (List.range n).map fun i => .put (word i) (word i) false fun _ => true

def freshRecs : List (BimapRec (List UInt8)) :=
  (List.range n).map fun i => ⟨word i, someHash (word i), word i, someHash (word i)⟩

theorem freshRecs_succ : freshRecs (n + 1) =
    freshRecs n ++ [⟨word n, someHash (word n), word n, someHash (word n)⟩] := by
  simp [freshRecs, range_succ]

theorem freshRecs_new {n i : Nat} (hn : n ≤ i) (hi : i < 2 ^ 32) :
    ∀ r ∈ freshRecs n, r.key ≠ word i ∧ r.val ≠ word i := by
  intro r hr
  obtain ⟨j, hj, rfl⟩ := mem_map.mp hr
  have less := mem_range.mp hj
  have other : word j ≠ word i := fun same => by
    have := word_inj (by omega) hi same
    omega
  exact ⟨other, other⟩

theorem freshRun_succ : bimapRun someHash (freshPuts (n + 1)) =
    bimapStep someHash (bimapRun someHash (freshPuts n)) (.put (word n) (word n) false fun _ => true) := by
  simp only [freshPuts, range_succ, map_append, map_cons, map_nil]
  exact bimapRun_append _ _

theorem freshRun_put {n : Nat} (few : n < 375809639) (sound : (bimapRun someHash (freshPuts n)).1.Sound someHash)
    (recs : (bimapRun someHash (freshPuts n)).1.recs = freshRecs n) :
    let b := (bimapRun someHash (freshPuts n)).1
    let b' := (bimapRun someHash (freshPuts (n + 1))).1
    b'.Valid someHash ∧ b'.recs = freshRecs (n + 1) ∧ b.fwd.used = n ∧ b.rev.used = n ∧
      ixInsert b.fwd (someHash (word n)) (word n) n true = some b'.fwd ∧
      ixInsert b.rev (someHash (word n)) (word n) n true = some b'.rev := by
  have size : (bimapRun someHash (freshPuts n)).1.recs.length = n := by
    rw [recs, freshRecs, length_map, length_range]
  rw [freshRun_succ]
  have fresh := @freshRecs_new n n (Nat.le_refl _) (by omega)
  obtain ⟨fwd, rev, cap, eq, valid, inserted, inserted'⟩ := putNew_granted sound.valid
    (fun r hr => (fresh r (recs ▸ hr)).1)
    (fun r hr => (fresh r (recs ▸ hr)).2) (by omega)
    (sound.fwd_low.trans (by decide)) (sound.rev_low.trans (by decide))
  rw [size] at inserted inserted'
  simp only [bimapStep, BimapOp.exec, eq]
  refine ⟨valid, by rw [freshRecs_succ, recs], ?_, ?_, inserted, inserted'⟩
  · rw [sound.valid.fwd.size, size]
  · rw [sound.valid.rev.size, size]

/-- Up to 375809638 fresh puts the bimap is sound and holds them all. -/
theorem freshRun_sound (few : n ≤ 375809638) : (bimapRun someHash (freshPuts n)).1.Sound someHash ∧
    (bimapRun someHash (freshPuts n)).1.recs = freshRecs n := by
  induction n with
  | zero => exact ⟨⟨bimapNew_valid, Nat.zero_le _, Nat.zero_le _⟩, rfl⟩
  | succ n ih =>
    obtain ⟨sound, recs⟩ := ih (by omega)
    obtain ⟨valid, recs', used, used', inserted, inserted'⟩ := freshRun_put (by omega) sound recs
    have low := ixInsert_low sound.valid.fwd.valid sound.fwd_low (by omega) inserted
    have low' := ixInsert_low sound.valid.rev.valid sound.rev_low (by omega) inserted'
    exact ⟨⟨valid, low, low'⟩, recs'⟩

theorem cap_of_used {K : Type} {hash : K → Nat} {ix : Ix K} (v : ix.Valid hash) (low : ix.cap ≤ 2 ^ 29)
    (used : ix.used = 375809638) : ix.cap = 2 ^ 29 := by
  rcases v.room with room | zero
  · omega
  · have := v.load
    rw [zero] at this
    change 0 = _ at this
    omega

theorem freshRun_doubled {n : Nat} (hn : n = 375809638) : (bimapRun someHash (freshPuts (n + 1))).1.Valid someHash ∧
    (bimapRun someHash (freshPuts (n + 1))).1.recs = freshRecs (n + 1) ∧
    (bimapRun someHash (freshPuts (n + 1))).1.rev.cap = 2 ^ 30 ∧
    (bimapRun someHash (freshPuts (n + 1))).1.rev.used = 375809639 := by
  obtain ⟨sound, recs⟩ := freshRun_sound n (by omega)
  obtain ⟨valid, recs', -, used, -, inserted⟩ := freshRun_put (by omega) sound recs
  rw [hn] at used
  have exact_cap := cap_of_used sound.valid.rev.valid sound.rev_low (by rw [hn, used])
  obtain ⟨rev', reserved, cap', used'⟩ := ixReserve_doubles sound.valid.rev.valid (by omega)
    (by rw [exact_cap, hn, used]; decide)
  rw [ixInsert, reserved, map_some, some.injEq] at inserted
  refine ⟨valid, recs', ?_, ?_⟩
  · rw [← inserted]
    rw [cap', exact_cap]
    decide
  · rw [← inserted]
    rw [used', hn, used]

/-- The reservation of a put on that state doubles the reverse index again; the
insertion that follows is refused and nobody notices. -/
theorem lost_entry {b : Bimap (List UInt8)} {n : Nat} (valid : b.Valid someHash)
    (recs : b.recs = freshRecs (n + 1)) (hn : n = 375809638) (cap : b.rev.cap = 2 ^ 30)
    (used : b.rev.used = 375809639) :
    let r := bimapPut someHash b (word 0) (word (n + 1)) false fun _ => true
    r.1 = 0 ∧ bimapGet someHash r.2 (word 0) = some (word (n + 1)) ∧
      bimapKeyFor someHash r.2 (word (n + 1)) = none := by
  have fresh := freshRecs_new (i := n + 1) (Nat.le_refl _) (by omega)
  have first : b.recs[0]? = some ⟨word 0, someHash (word 0), word 0, someHash (word 0)⟩ := by
    rw [recs, freshRecs, List.getElem?_map, List.getElem?_range (by omega), map_some]
  obtain ⟨⟨kp, found, at_0⟩, ⟨vp, found', _⟩⟩ := bimap_finds valid first
  have free : ixGet someHash b.rev (word (n + 1)) = none := valid.rev.missing.mpr fun r hr => (fresh r (recs ▸ hr)).2
  obtain ⟨rev, reserved, cap', used'⟩ := ixReserve_doubles valid.rev.valid (by omega) (by rw [cap, used]; decide)
  have grown : rev.cap = 2 ^ 31 := by
    rw [cap', cap]
    decide
  have index := valid.rev.reserve reserved
  have get := ixReserve_get valid.rev.valid reserved
  have still : ixGet someHash rev (word 0) = some 0 := by
    rw [get]
    exact (valid.rev.get (word 0) 0).mpr (by simp [first])
  obtain ⟨q, found_q, _⟩ := map_eq_some_iff.mp still
  obtain ⟨erased, fewer, erased_cap, erased_get⟩ := ixErase_get index.valid found_q
  have refused := ixInsert_full erased (by rw [erased_cap, grown]) (by omega)
    (someHash (word (n + 1))) (word (n + 1)) 0 true
  have put : bimapPut someHash b (word 0) (word (n + 1)) false (fun _ => true) = (0, { b with
        recs := b.recs.set 0 ⟨word 0, someHash (word 0), word (n + 1), someHash (word (n + 1))⟩
        rev := ixErase rev q }) := by
    simp only [bimapPut, found, ixFind_none.mpr free, putValue, reserved, at_0, bimapRevalue, first,
      ixDiscard, found_q, refused, getD_none, not_true_eq_false, if_false]
  rw [put]
  refine ⟨rfl, ?_, ?_⟩
  · have inside := (List.getElem?_eq_some_iff.mp first).1
    simp only [bimapGet, found, at_0, List.getElem?_set_self inside, map_some]
  · have gone : ixGet someHash (ixErase rev q) (word (n + 1)) = none := by
      rw [erased_get, get, Function.update_apply]
      split_ifs
      · rfl
      · exact free
    simp only [bimapKeyFor, ixFind_none.mpr gone]

/-- With 375809639 pairs stored, giving the first key another value returns 0 and
leaves the value without a key. -/
theorem reverse_entry_lost :
    let b := (bimapRun someHash (freshPuts (375809638 + 1))).1
    let r := bimapPut someHash b (word 0) (word (375809638 + 1)) false fun _ => true
    r.1 = 0 ∧ bimapGet someHash r.2 (word 0) = some (word (375809638 + 1)) ∧
      bimapKeyFor someHash r.2 (word (375809638 + 1)) = none := by
  obtain ⟨n, hn⟩ : ∃ n, n = 375809638 := ⟨_, rfl⟩
  rw [← hn]
  obtain ⟨valid, recs, cap, used⟩ := freshRun_doubled hn
  exact lost_entry valid recs hn cap used

end DynaJS.Ds
