import DynaJS.Ds.BimapRun

/-! A failed `dyn_bimap_put` in every state a run can reach, also where a reverse or a
forward entry has been lost: each index still points only to records of its key, and that
is enough. -/
namespace DynaJS.Ds

open Function List Option

variable {K : Type} [DecidableEq K] {hash : K → Nat}

structure Bimap.Pointed (hash : K → Nat) (b : Bimap K) : Prop where
  fwd : Points hash b.fwd (b.recs.map BimapRec.key)
  rev : Points hash b.rev (b.recs.map BimapRec.val)
  hashes : ∀ r ∈ b.recs, r.kh = hash r.key ∧ r.vh = hash r.val

theorem bimapNew_pointed : bimapNew.Pointed hash := ⟨points_empty, points_empty, by simp [bimapNew]⟩

variable {b : Bimap K}

theorem bimapErase_pointed (P : b.Pointed hash) {idx : Nat} {r : BimapRec K} (there : b.recs[idx]? = some r) :
    (bimapErase b idx).Pointed hash ∧
    (∀ k, ixGet hash b.fwd k = none → ixGet hash (bimapErase b idx).fwd k = none) ∧
    ixGet hash (bimapErase b idx).rev r.val = none := by
  have inside := (List.getElem?_eq_some_iff.mp there).1
  obtain ⟨last, _, at_end⟩ := getLast?_of_lt inside
  have keys : (b.recs.map BimapRec.key)[idx]? = some r.key := by simp [there]
  have vals : (b.recs.map BimapRec.val)[idx]? = some r.val := by simp [there]
  have lastKey : (b.recs.map BimapRec.key)[(b.recs.map BimapRec.key).length - 1]? = some last.key := by
    simp [at_end]
  have lastVal : (b.recs.map BimapRec.val)[(b.recs.map BimapRec.val).length - 1]? = some last.val := by
    simp [at_end]
  obtain ⟨fwd, _, fewer⟩ := P.fwd.swapRemove keys lastKey rfl
  obtain ⟨rev, gone, _⟩ := P.rev.swapRemove vals lastVal rfl
  rw [length_map] at fwd rev fewer gone
  rw [← map_swapRemove _ inside] at fwd rev
  rw [bimapErase_eq P.hashes there at_end]
  refine ⟨⟨fwd, rev, fun s hs => P.hashes s ?_⟩, fewer, gone⟩
  exact (perm_swapRemove there).mem_iff.mpr (mem_cons_of_mem _ hs)

theorem bimapRevalue_pointed (P : b.Pointed hash) (idx : Nat) {w : K} (free : ixGet hash b.rev w = none) (ok : Bool) :
    (bimapRevalue b idx (hash w) w ok).Pointed hash := by
  unfold bimapRevalue
  cases there : b.recs[idx]? with
  | none => exact P
  | some r =>
    have rev := P.rev.set ok (by simp [there] : (b.recs.map BimapRec.val)[idx]? = some r.val) free
    obtain ⟨keys, vals, hashes⟩ := revalued P.hashes there w
    dsimp only
    rw [(P.hashes r (mem_of_getElem? there)).2]
    exact ⟨keys ▸ P.fwd, vals ▸ rev, hashes⟩

theorem Bimap.Pointed.append (P : b.Pointed hash) {k v : K} {fwd rev : Ix K}
    (fwdPoints : Points hash fwd (b.recs.map BimapRec.key ++ [k]))
    (revPoints : Points hash rev (b.recs.map BimapRec.val ++ [v])) :
    ({ b with recs := b.recs ++ [⟨k, hash k, v, hash v⟩], fwd := fwd, rev := rev } : Bimap K).Pointed hash := by
  refine ⟨?_, ?_, fun s hs => ?_⟩
  · rw [map_append]
    exact fwdPoints
  · rw [map_append]
    exact revPoints
  · rcases mem_append.mp hs with old | new
    · exact P.hashes s old
    · rw [mem_singleton.mp new]
      exact ⟨rfl, rfl⟩

structure SameBimap (hash : K → Nat) (b b' : Bimap K) : Prop where
  recs : b'.recs = b.recs
  fwd : ixGet hash b'.fwd = ixGet hash b.fwd
  rev : ixGet hash b'.rev = ixGet hash b.rev

structure PutKeeps (hash : K → Nat) (b : Bimap K) (r : Int × Bimap K) : Prop where
  pointed : r.2.Pointed hash
  same : r.1 = -1 → SameBimap hash b r.2

section

variable (P : b.Pointed hash)
include P

theorem putBoth_pointed {k v : K} (mem : Nat → Bool) : PutKeeps hash b (putBoth b (hash k) k (hash v) v mem) := by
  unfold putBoth
  cases reserved : ixReserve b.rev (mem 0) with
  | none => exact ⟨P, fun _ => ⟨rfl, rfl, rfl⟩⟩
  | some rev =>
    have P' : ({ b with rev := rev } : Bimap K).Pointed hash := ⟨P.fwd, P.rev.reserve reserved, P.hashes⟩
    have get := ixReserve_get P.rev.valid reserved
    dsimp only
    by_cases copied : ¬ mem 1
    · rw [if_pos copied]
      exact ⟨P', fun _ => ⟨rfl, rfl, get⟩⟩
    rw [if_neg copied]
    cases found : ixFind rev (hash v) v with
    | none => exact ⟨P', fun h => by simp at h⟩
    | some vp =>
      obtain ⟨r, there, rfl⟩ := P'.rev.record found
      obtain ⟨P'', _, gone⟩ := bimapErase_pointed P' there
      dsimp only
      split
      · exact ⟨P'', fun h => by simp at h⟩
      · exact ⟨bimapRevalue_pointed P'' _ gone _, fun h => by simp at h⟩

theorem putTaken_pointed {k v : K} (new : ixGet hash b.fwd k = none) (mem : Nat → Bool) :
    PutKeeps hash b (putTaken b (hash k) k (hash v) v mem) := by
  unfold putTaken
  cases dsReserve b.cap (b.recs.length + 1) bimapRecSize (mem 0) with
  | none => exact ⟨P, fun _ => ⟨rfl, rfl, rfl⟩⟩
  | some cap =>
    dsimp only
    by_cases copied : ¬ (mem 1 ∧ mem 2)
    · rw [if_pos copied]
      exact ⟨⟨P.fwd, P.rev, P.hashes⟩, fun _ => ⟨rfl, rfl, rfl⟩⟩
    rw [if_neg copied]
    cases reserved : ixReserve b.fwd (mem 3) with
    | none => exact ⟨⟨P.fwd, P.rev, P.hashes⟩, fun _ => ⟨rfl, rfl, rfl⟩⟩
    | some fwd =>
      have fwdPoints := P.fwd.reserve reserved
      have get := ixReserve_get P.fwd.valid reserved
      cases reserved' : ixReserve b.rev (mem 4) with
      | none => exact ⟨⟨fwdPoints, P.rev, P.hashes⟩, fun _ => ⟨rfl, get, rfl⟩⟩
      | some rev =>
        have P' : ({ b with cap := cap, fwd := fwd, rev := rev } : Bimap K).Pointed hash :=
          ⟨fwdPoints, P.rev.reserve reserved', P.hashes⟩
        dsimp only
        cases found : ixFind rev (hash v) v with
        | none => exact ⟨P', fun h => by simp at h⟩
        | some vp =>
          obtain ⟨r, there, rfl⟩ := P'.rev.record found
          obtain ⟨P'', fewer, gone⟩ := bimapErase_pointed P' there
          have absent := fewer k (by rw [show ixGet hash fwd k = _ from congrFun get k]; exact new)
          have fwd' := P''.fwd.append (mem 5) absent
          have rev' := P''.rev.append (mem 6) gone
          rw [length_map] at fwd' rev'
          exact ⟨P''.append fwd' rev', fun h => by simp at h⟩

theorem putValue_pointed {v : K} (idx : Nat) (free : ixGet hash b.rev v = none) (mem : Nat → Bool) :
    PutKeeps hash b (putValue b idx (hash v) v mem) := by
  unfold putValue
  cases reserved : ixReserve b.rev (mem 0) with
  | none => exact ⟨P, fun _ => ⟨rfl, rfl, rfl⟩⟩
  | some rev =>
    have P' : ({ b with rev := rev } : Bimap K).Pointed hash := ⟨P.fwd, P.rev.reserve reserved, P.hashes⟩
    have get := ixReserve_get P.rev.valid reserved
    dsimp only
    by_cases copied : ¬ mem 1
    · rw [if_pos copied]
      exact ⟨P', fun _ => ⟨rfl, rfl, get⟩⟩
    · rw [if_neg copied]
      refine ⟨bimapRevalue_pointed P' idx ?_ _, fun h => by simp at h⟩
      rw [show ixGet hash rev v = _ from congrFun get v]
      exact free

theorem putNew_pointed {k v : K}
    (new : ixGet hash b.fwd k = none) (free : ixGet hash b.rev v = none) (mem : Nat → Bool) :
    PutKeeps hash b (putNew b (hash k) k (hash v) v mem) := by
  unfold putNew
  cases dsReserve b.cap (b.recs.length + 1) bimapRecSize (mem 0) with
  | none => exact ⟨P, fun _ => ⟨rfl, rfl, rfl⟩⟩
  | some cap =>
    dsimp only
    by_cases copied : ¬ (mem 1 ∧ mem 2)
    · rw [if_pos copied]
      exact ⟨⟨P.fwd, P.rev, P.hashes⟩, fun _ => ⟨rfl, rfl, rfl⟩⟩
    rw [if_neg copied]
    cases inserted : ixInsert b.fwd (hash k) k b.recs.length (mem 3) with
    | none => exact ⟨⟨P.fwd, P.rev, P.hashes⟩, fun _ => ⟨rfl, rfl, rfl⟩⟩
    | some fwd =>
      have fwd' := P.fwd.append (mem 3) new
      rw [length_map, inserted, getD_some] at fwd'
      cases inserted' : ixInsert b.rev (hash v) v b.recs.length (mem 4) with
      | none =>
        -- The forward entry is taken back.
        obtain ⟨_, _, get⟩ := ixInsert_get P.fwd.valid new inserted
        obtain ⟨valid, back⟩ := ixDiscard_get fwd'.valid k
        have same : ixGet hash (ixDiscard fwd (hash k) k) = ixGet hash b.fwd := by
          rw [back, get, update_idem, ← new, update_eq_self]
        refine ⟨⟨⟨valid, fun k' i h => ?_⟩, P.rev, P.hashes⟩, fun _ => ⟨rfl, same, rfl⟩⟩
        exact P.fwd.there k' i (same ▸ h)
      | some rev =>
        have rev' := P.rev.append (mem 4) free
        rw [length_map, inserted'] at rev'
        have wide : ({ b with cap := cap } : Bimap K).Pointed hash := ⟨P.fwd, P.rev, P.hashes⟩
        exact ⟨wide.append fwd' rev', fun h => by simp at h⟩

theorem bimapPut_pointed (k v : K) (force : Bool) (mem : Nat → Bool) :
    PutKeeps hash b (bimapPut hash b k v force mem) := by
  have same : SameBimap hash b b := ⟨rfl, rfl, rfl⟩
  unfold bimapPut
  cases key : ixFind b.fwd (hash k) k with
  | none =>
    cases val : ixFind b.rev (hash v) v with
    | none => exact putNew_pointed P (ixFind_none.mp key) (ixFind_none.mp val) mem
    | some vp =>
      dsimp only
      by_cases keep : ¬ force
      · rw [if_pos keep]
        exact ⟨P, fun _ => same⟩
      · rw [if_neg keep]
        exact putTaken_pointed P (ixFind_none.mp key) mem
  | some kp =>
    cases val : ixFind b.rev (hash v) v with
    | none => exact putValue_pointed P _ (ixFind_none.mp val) mem
    | some vp =>
      dsimp only
      by_cases pair : b.fwd.idxAt kp = b.rev.idxAt vp
      · rw [if_pos pair]
        exact ⟨P, fun _ => same⟩
      · rw [if_neg pair]
        by_cases keep : ¬ force
        · rw [if_pos keep]
          exact ⟨P, fun _ => same⟩
        · rw [if_neg keep]
          exact putBoth_pointed P mem

theorem bimapOp_pointed (op : BimapOp K) : (op.exec hash b).2.Pointed hash := by
  have erased : ∀ idx, (bimapErase b idx).Pointed hash := fun idx => by
    cases there : b.recs[idx]? with
    | none =>
      have : bimapErase b idx = b := by simp only [bimapErase, there]
      rw [this]
      exact P
    | some r => exact (bimapErase_pointed P there).1
  cases op with
  | put k v force mem => exact (bimapPut_pointed P k v force mem).pointed
  | remove k =>
    simp only [BimapOp.exec, bimapRemove]
    split
    · exact P
    · exact erased _
  | removeValue v =>
    simp only [BimapOp.exec, bimapRemoveValue]
    split
    · exact P
    · exact erased _
  | clear => exact ⟨points_empty, points_empty, by simp [BimapOp.exec, bimapClear]⟩

end

theorem bimapRun_pointed (hash : K → Nat) (ops : List (BimapOp K)) : (bimapRun hash ops).1.Pointed hash := by
  induction ops using List.reverseRecOn with
  | nil => exact bimapNew_pointed
  | append_singleton ops op ih =>
    rw [bimapRun_append]
    exact bimapOp_pointed ih op

end DynaJS.Ds
