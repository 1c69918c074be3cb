import DynaJS.Roaring.Run

/-! Calls in which an allocation fails: when `rb_add`, `rb_remove`, `rb_range` or
`rb_op` returns -1, what is left of the bitmap. -/
namespace DynaJS.Roaring

open DynaJS.BitSet

def failAt (k : Nat) (site : Site) : Heap := fun key s => !(key == k && s == site)

theorem failAt_eq {k key : Nat} {site s : Site} (failed : failAt k site key s = false) : key = k ∧ s = site := by
  simpa [failAt] using failed

def Intact (r r' : Rb) : Prop := r'.Valid ∧ ∀ x, r'.Has x ↔ r.Has x

section Intact

variable {r r' : Rb}

theorem intact_iff_chunk (valid : r.Valid) (valid' : r'.Valid) : Intact r r' ↔ ∀ j, r'.chunk j = r.chunk j := by
  constructor
  · rintro ⟨_, same⟩ j
    ext v
    by_cases inside : v < chunkSize
    · obtain ⟨key, low⟩ := mem_pair j v inside
      have here := same (j * chunkSize + v)
      rwa [has_chunk valid', has_chunk valid, key, low] at here
    · have out : v ∉ r.chunk j := fun member => inside (chunk_inside valid j v member)
      have out' : v ∉ r'.chunk j := fun member => inside (chunk_inside valid' j v member)
      simp only [out, out']
  · intro same
    refine ⟨valid', fun x => ?_⟩
    rw [has_chunk valid', has_chunk valid, same]

theorem updates_intact {k : Nat} {s : Finset Nat} (valid : r.Valid) (updates : Updates r r' k s) :
    Intact r r' ↔ s = r.chunk k := by
  rw [intact_iff_chunk valid updates.1]
  constructor
  · intro same
    rw [← same k, updates_chunk valid updates, if_pos rfl]
  · intro same j
    rw [updates_chunk valid updates]
    split_ifs with here
    · rw [same, here]
    · rfl

end Intact

section Calls

variable {r b : Rb} {k : Nat} {site : Site}

theorem add_intact (valid : r.Valid) {x : Nat} (inside : x < 2 ^ 32) {heap : Heap}
    (failed : (rbAdd r x heap).1 = -1) : Intact r (rbAdd r x heap).2 := by
  rcases rbAdd_adds valid inside heap with ⟨code | code, _⟩ | ⟨_, updates, _⟩
  · rw [code] at failed
    contradiction
  · rw [code] at failed
    contradiction
  · exact (updates_intact valid updates).mpr rfl

theorem remove_intact (valid : r.Valid) {x : Nat} {heap : Heap} (failed : (rbRemove r x heap).1 = -1) :
    Intact r (rbRemove r x heap).2 ↔ (r.chunk (x / chunkSize)).card ≠ arrMax + 1 := by
  cases rbRemove_removes valid x heap with
  | done code _ =>
    rcases code with code | code
    · rw [code] at failed
      contradiction
    · rw [code] at failed
      contradiction
  | kept _ updates size _ =>
    rw [updates_intact valid updates, size]
    simp [chunkSize, arrMax]
  | lost _ updates size _ =>
    rw [updates_intact valid updates, size]
    have some : (∅ : Finset Nat) ≠ r.chunk (x / chunkSize) := fun none => by
      rw [← none] at size
      simp at size
    simp [some]

/-- The values of the range in the chunks before `k` are as the call wants them. -/
def Settled (r : Rb) (lo hi k : Nat) (adding : Bool) : Prop :=
  ∀ x, lo ≤ x → x < hi → x / chunkSize < k → (r.Has x ↔ adding = true)

variable (valid : r.Valid)
include valid

theorem settled_iff {lo hi : Nat} (nonempty : lo < hi) (inside : hi ≤ 2 ^ 32) (adding : Bool) :
    Settled r lo hi k adding ↔ ∀ j, j ∈ chunks lo hi ∧ j < k →
      ranged adding (r.chunk j) (chunkLow lo j) (chunkHigh hi j) = r.chunk j := by
  constructor
  · rintro settled j ⟨member, before⟩
    ext v
    rw [mem_ranged]
    split_ifs with part
    · have low : v < chunkSize := part.2.trans_lt ((chunks_bounds nonempty inside).2 j member).2
      obtain ⟨key, rest⟩ := mem_pair j v low
      have covered := (mem_chunks nonempty (j * chunkSize + v)).mp (by rw [key, rest]; exact ⟨member, part⟩)
      have wanted := settled _ covered.1 covered.2 (by rw [key]; exact before)
      rw [has_chunk valid, key, rest] at wanted
      exact wanted.symm
    · rfl
  · intro same x low high before
    obtain ⟨member, part⟩ := (mem_chunks nonempty x).mpr ⟨low, high⟩
    rw [has_chunk valid, ← same _ ⟨member, before⟩, mem_ranged, if_pos part]

theorem range_intact {lo hi : Nat} (inside : hi ≤ 2 ^ 32) {adding : Bool}
    (failed : (rbRange r lo hi adding (failAt k site)).1 = -1) :
    Intact r (rbRange r lo hi adding (failAt k site)).2 ↔
      Settled r lo hi k adding ∧ ¬ (site = .adopt ∧ (r.chunk k).Nonempty) := by
  by_cases empty : hi ≤ lo
  · rw [rbRange, if_pos empty] at failed
    contradiction
  have nonempty : lo < hi := Nat.lt_of_not_le empty
  rw [rbRange, if_neg empty] at failed ⊢
  obtain ⟨small, bounds⟩ := chunks_bounds nonempty inside
  rw [settled_iff valid nonempty inside]
  rcases rangeLoop_spec adding (failAt k site) valid (chunks lo hi)
    (chunks_sorted lo hi) small bounds with ⟨r', done, _⟩ | ⟨r', j, done, _, valid', others, here⟩
  · rw [done] at failed
    contradiction
  · rw [done, intact_iff_chunk valid valid']
    -- The chunks before the failing one have their values; the failing one is kept or lost.
    have earlier : (∀ i, i ≠ j → r'.chunk i = r.chunk i) ↔ ∀ i, i ∈ chunks lo hi ∧ i < j →
        ranged adding (r.chunk i) (chunkLow lo i) (chunkHigh hi i) = r.chunk i := by
      constructor
      · intro same i before
        have values := others i (by omega)
        rw [if_pos before] at values
        exact values.symm.trans (same i (by omega))
      · intro same i other
        rw [others i other]
        split_ifs with before
        · exact same i before
        · rfl
    have whole : (∀ i, r'.chunk i = r.chunk i) ↔ (∀ i, i ≠ j → r'.chunk i = r.chunk i) ∧ r'.chunk j = r.chunk j :=
      ⟨fun same => ⟨fun i _ => same i, same j⟩,
        fun ⟨same, own⟩ i => if here : i = j then here ▸ own else same i here⟩
    rw [whole, earlier]
    rcases here with ⟨own, cause⟩ | ⟨own, some, cause⟩
    · have key : j = k ∧ ¬ (site = .adopt ∧ (r.chunk k).Nonempty) := by
        rcases cause with cause | cause | ⟨cause, none⟩
        · obtain ⟨rfl, rfl⟩ := failAt_eq cause
          simp
        · obtain ⟨rfl, rfl⟩ := failAt_eq cause
          simp
        · obtain ⟨rfl, rfl⟩ := failAt_eq cause
          simp [none]
      obtain ⟨rfl, fine⟩ := key
      simp only [own, fine, not_false_eq_true, and_true]
    · obtain ⟨rfl, rfl⟩ := failAt_eq cause
      have gone : r'.chunk j ≠ r.chunk j := by
        rw [own]
        exact some.ne_empty.symm
      simp [gone, some]

theorem op_intact (valid' : b.Valid) (op : RbOp) (failed : (rbOp r b op (failAt k site)).1 = -1) :
    Intact r (rbOp r b op (failAt k site)).2 ↔ op = .and ∨ ∀ c ∈ r.c, c.key < k → c.key ∈ b.keys := by
  unfold rbOp at failed ⊢
  rcases opLoop_ends op (failAt k site) [] r.c b.c ⟨[], 0⟩ (merging_start valid valid') with
    ⟨nr, done, _⟩ | ⟨j, s, cause, _, done⟩
  · rw [done] at failed
    contradiction
  · obtain ⟨rfl, rfl⟩ := failAt_eq cause
    rw [done]
    constructor
    · -- A container that has moved is of type 0, which no valid bitmap holds.
      rintro ⟨left, _⟩
      by_contra bad
      obtain ⟨other, c, member, before, absent⟩ : op ≠ .and ∧ ∃ c ∈ r.c, c.key < j ∧ c.key ∉ b.keys := by
        simpa using bad
      have here := left.valid (passed op b.c j c) (List.mem_map_of_mem member)
      rw [passed, if_pos ⟨other, before, absent⟩] at here
      exact here
    · intro safe
      have same : r.c.map (passed op b.c j) = r.c := by
        refine (List.map_congr_left fun c member => ?_).trans (List.map_id r.c)
        refine if_neg ?_
        rintro ⟨other, before, absent⟩
        exact safe.elim other fun all => absent (all c member before)
      rw [same]
      exact ⟨valid, fun _ => Iff.rfl⟩

end Calls

inductive RbCall where
  | add (x : UInt32)
  | remove (x : UInt32)
  | range (lo hi : Fin (2 ^ 32 + 1)) (adding : Bool)
  | op (o : RbOp) (b : {b : Rb // b.Valid})
  | opSelf (o : RbOp)

def RbCall.exec (r : Rb) (heap : Heap) : RbCall → Int × Rb
  | .add x => rbAdd r x.toNat heap
  | .remove x => rbRemove r x.toNat heap
  | .range lo hi adding => rbRange r lo hi adding heap
  | .op o b => rbOp r b o heap
  | .opSelf o => rbOpSelf r o

/-- When a failed allocation at `site` for chunk `k` does no harm. A removal must
not turn a bitmap container into an array. A range must have nothing to change in
the chunks before `k`, and it must not be replacing the container of `k`. An `rb_op`
must not have moved a container out of the left operand yet. -/
def RbCall.Harmless (r : Rb) (k : Nat) (site : Site) : RbCall → Prop
  | .add _ => True
  | .remove x => (r.chunk (x.toNat / chunkSize)).card ≠ arrMax + 1
  | .range lo hi adding => Settled r lo hi k adding ∧ ¬ (site = .adopt ∧ (r.chunk k).Nonempty)
  | .op o b => o = .and ∨ ∀ c ∈ r.c, c.key < k → c.key ∈ b.val.keys
  | .opSelf _ => True

/-- A call that returns -1 leaves its bitmap intact exactly when the failed
allocation was a harmless one. -/
theorem failed_call_intact_iff {r : Rb} (valid : r.Valid) (call : RbCall) (k : Nat) (site : Site)
    (failed : (call.exec r (failAt k site)).1 = -1) :
    Intact r (call.exec r (failAt k site)).2 ↔ call.Harmless r k site := by
  cases call with
  | add x => exact iff_of_true (add_intact valid x.toNat_lt failed) trivial
  | remove x => exact remove_intact valid failed
  | range lo hi adding => exact range_intact valid (Nat.le_of_lt_succ hi.isLt) failed
  | op o b => exact op_intact valid b.property o failed
  | opSelf o =>
    have code : (rbOpSelf r o).1 = 0 := by
      unfold rbOpSelf
      split <;> rfl
    have : (rbOpSelf r o).1 = -1 := failed
    omega

def single (key : Nat) : Rb := ⟨[⟨key, .arr [0], 1, 4⟩], 4⟩

theorem single_valid {key : Nat} (small : key < chunkSize) : (single key).Valid :=
  ⟨by simp [single, Rb.keys], by simp [single, Ct.Valid, arrMax, chunkSize],
    by simpa [single] using small, by simp [single]⟩

/-- `{0} or {65536}` where the copy of the second container cannot be had. -/
theorem or_single_failed : rbOp (single 0) (single 1) .or (failAt 1 .array) = (-1, ⟨[⟨0, .none, 1, 4⟩], 4⟩) := by
  simp [rbOp, single, opLoop, push, rbReserve, doubleCap, place, ctOpOne, ctCopy, failAt, moved]

theorem failed_call_intact_iff_or : ¬ Intact (single 0) (rbOp (single 0) (single 1) .or (failAt 1 .array)).2 := by
  have left := single_valid (show 0 < chunkSize by decide)
  have right := single_valid (show 1 < chunkSize by decide)
  have called := failed_call_intact_iff left (.op .or ⟨single 1, right⟩) 1 .array (by
    simp only [RbCall.exec, or_single_failed])
  intro intact
  have harmless := called.mp intact
  simp [RbCall.Harmless, single, Rb.keys] at harmless

/-- The bitmap had the value 0; the call failed, and has left a container without its data. -/
theorem failed_or_loses_value : (single 0).Valid ∧ (single 1).Valid ∧ rbHas (single 0) 0 = true ∧
    rbOp (single 0) (single 1) .or (failAt 1 .array) = (-1, ⟨[⟨0, .none, 1, 4⟩], 4⟩) ∧
    ¬ Rb.Valid ⟨[⟨0, .none, 1, 4⟩], 4⟩ :=
  ⟨single_valid (by decide), single_valid (by decide), by decide, or_single_failed,
    fun valid => valid.valid ⟨0, .none, 1, 4⟩ List.mem_cons_self⟩

end DynaJS.Roaring
