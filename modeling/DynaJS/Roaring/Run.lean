import DynaJS.Roaring.BitmapLoops

/-! Runs over a store of bitmaps in which every allocation succeeds: the bitmaps
refine finite sets of 32-bit integers. -/
namespace DynaJS.Roaring

open Function DynaJS.BitSet List Nat

def granted : Heap := fun _ _ => true

structure Denotes (r : Rb) (s : Finset Nat) : Prop where
  valid : r.Valid
  members : ∀ x, x ∈ s ↔ r.Has x

theorem has_chunk {r : Rb} (valid : r.Valid) (x : Nat) : r.Has x ↔ x % chunkSize ∈ r.chunk (x / chunkSize) :=
  inChunk_chunk valid _ _

theorem denotes_chunk {r : Rb} {s : Finset Nat} (denotes : Denotes r s) (x : Nat) :
    x ∈ s ↔ x % chunkSize ∈ r.chunk (x / chunkSize) :=
  (denotes.members x).trans (has_chunk denotes.valid x)

theorem mem_pair (k v : Nat) (inside : v < chunkSize) :
    (k * chunkSize + v) / chunkSize = k ∧ (k * chunkSize + v) % chunkSize = v := by
  unfold chunkSize at *
  omega

section Card

theorem card_by_chunks {r : Rb} {s : Finset Nat} (denotes : Denotes r s) :
    s.card = ∑ k ∈ Finset.range chunkSize, (r.chunk k).card := by
  have maps : ∀ x ∈ s, x / chunkSize ∈ Finset.range chunkSize := fun x member => by
    obtain ⟨c, here, key, _⟩ := (denotes.members x).mp member
    rw [← key, Finset.mem_range]
    exact denotes.valid.small c here
  rw [Finset.card_eq_sum_card_fiberwise maps]
  refine Finset.sum_congr rfl fun k _ => ?_
  have fiber : s.filter (fun x => x / chunkSize = k) = (r.chunk k).image (k * chunkSize + ·) := by
    ext x
    simp only [Finset.mem_filter, Finset.mem_image]
    constructor
    · rintro ⟨member, rfl⟩
      refine ⟨x % chunkSize, (denotes_chunk denotes x).mp member, ?_⟩
      rw [mul_comm]
      exact div_add_mod x chunkSize
    · rintro ⟨v, member, rfl⟩
      have inside := chunk_inside denotes.valid k v member
      obtain ⟨key, low⟩ := mem_pair k v inside
      refine ⟨(denotes_chunk denotes _).mpr ?_, key⟩
      rwa [key, low]
  rw [fiber, Finset.card_image_of_injective _ fun u v same => by simpa using same]

theorem sum_take {ks : Finset Nat} {f g : Nat → Nat} {k : Nat} (member : k ∈ ks) (none : g k = 0)
    (same : ∀ j, j ≠ k → f j = g j) : ∑ j ∈ ks, f j = f k + ∑ j ∈ ks, g j := by
  rw [← Finset.add_sum_erase _ f member, ← Finset.add_sum_erase _ g member, none, zero_add]
  congr 1
  exact Finset.sum_congr rfl fun j inside => same j (Finset.ne_of_mem_erase inside)

theorem sum_card_eq (cs : List Ct) (sorted : cs.Pairwise fun c d => c.key < d.key)
    (fit : ∀ c ∈ cs, c.Valid ∧ c.key < chunkSize) :
    (cs.map Ct.card).sum = ∑ j ∈ Finset.range chunkSize, (chunkOf cs j).card := by
  induction cs with
  | nil => simp [chunkOf_nil]
  | cons c cs ih =>
    obtain ⟨above, sorted⟩ := pairwise_cons.mp sorted
    obtain ⟨valid, small⟩ := fit c mem_cons_self
    rw [map_cons, sum_cons, ih sorted fun d member => fit d (mem_cons_of_mem _ member)]
    rw [sum_take (f := fun j => (chunkOf (c :: cs) j).card) (g := fun j => (chunkOf cs j).card)
      (Finset.mem_range.mpr small) (by rw [chunkOf_above above]; rfl)
      fun j other => by rw [chunkOf_cons, if_neg fun eq => other eq.symm]]
    rw [chunkOf_cons, if_pos rfl, valid.card_eq]

theorem rbCard_eq {r : Rb} {s : Finset Nat} (denotes : Denotes r s) : rbCard r = s.card := by
  rw [card_by_chunks denotes]
  exact sum_card_eq r.c (keys_sorted.mp denotes.valid.sorted)
    fun c member => ⟨denotes.valid.valid c member, denotes.valid.small c member⟩

theorem opCardLoop_eq (op : RbOp) (as bs : List Ct) (sortedL : as.Pairwise fun c d => c.key < d.key)
    (sortedR : bs.Pairwise fun c d => c.key < d.key) (fitL : ∀ c ∈ as, c.Valid ∧ c.key < chunkSize)
    (fitR : ∀ c ∈ bs, c.Valid ∧ c.key < chunkSize) :
    opCardLoop op as bs = ∑ j ∈ Finset.range chunkSize, (op.apply (chunkOf as j) (chunkOf bs j)).card := by
  -- The chunk of the smaller key comes out of the sum in every round.
  have out : ∀ {key : Nat} {as as' bs bs' : List Ct}, key < chunkSize → (∀ d ∈ as', key < d.key) →
      (∀ d ∈ bs', key < d.key) → (∀ j, j ≠ key → chunkOf as j = chunkOf as' j) →
      (∀ j, j ≠ key → chunkOf bs j = chunkOf bs' j) →
      ∑ j ∈ Finset.range chunkSize, (op.apply (chunkOf as j) (chunkOf bs j)).card =
        (op.apply (chunkOf as key) (chunkOf bs key)).card +
          ∑ j ∈ Finset.range chunkSize, (op.apply (chunkOf as' j) (chunkOf bs' j)).card := by
    intro key as as' bs bs' small aboveL aboveR restL restR
    refine sum_take (Finset.mem_range.mpr small) ?_ fun j other => by rw [restL j other, restR j other]
    rw [chunkOf_above aboveL, chunkOf_above aboveR]
    rfl
  have next : ∀ {c : Ct} {cs : List Ct} {key : Nat}, c.key = key → ∀ j, j ≠ key → chunkOf (c :: cs) j = chunkOf cs j :=
    fun same j other => by rw [chunkOf_cons, if_neg fun eq => other (eq.symm.trans same)]
  have tail : ∀ {c : Ct} {cs : List Ct}, (∀ d ∈ c :: cs, d.Valid ∧ d.key < chunkSize) →
      ∀ d ∈ cs, d.Valid ∧ d.key < chunkSize := fun fit d member => fit d (mem_cons_of_mem _ member)
  have head : ∀ {c : Ct} {cs : List Ct} {key : Nat}, (c :: cs).Pairwise (fun c d => c.key < d.key) →
      key < c.key → ∀ d ∈ c :: cs, key < d.key := fun sorted lt d member => by
    rcases mem_cons.mp member with rfl | later
    · exact lt
    · exact lt.trans ((pairwise_cons.mp sorted).1 d later)
  have one := fun {c} (valid : Ct.Valid c) left => (ctOpOne_makes valid left op fun _ => true).2
  fun_induction opCardLoop op as bs with
  | case1 => simp [chunkOf_nil, op.apply_none]
  | case2 a as ih =>
    obtain ⟨valid, small⟩ := fitL a mem_cons_self
    obtain ⟨above, sorted⟩ := pairwise_cons.mp sortedL
    rw [out small above (by simp) (next rfl) fun _ _ => rfl, ih sorted sortedR (tail fitL) fitR, chunkOf_head,
      chunkOf_nil, one valid, if_pos rfl]
  | case3 b bs ih =>
    obtain ⟨valid, small⟩ := fitR b mem_cons_self
    obtain ⟨above, sorted⟩ := pairwise_cons.mp sortedR
    rw [out small (by simp) above (fun _ _ => rfl) (next rfl), ih sortedL sorted fitL (tail fitR), chunkOf_head,
      chunkOf_nil, one valid, if_neg (by decide)]
  | case4 a as b bs same ih =>
    obtain ⟨aboveA, sortedA⟩ := pairwise_cons.mp sortedL
    obtain ⟨aboveB, sortedB⟩ := pairwise_cons.mp sortedR
    obtain ⟨validA, small⟩ := fitL a mem_cons_self
    obtain ⟨validB, _⟩ := fitR b mem_cons_self
    rw [out small aboveA (by rwa [same]) (next rfl) (next same.symm), ih sortedA sortedB (tail fitL) (tail fitR),
      ctOpCardBoth_eq validA validB same, chunkOf_head, same, chunkOf_head]
  | case5 a as b bs other lt ih =>
    obtain ⟨valid, small⟩ := fitL a mem_cons_self
    obtain ⟨above, sorted⟩ := pairwise_cons.mp sortedL
    have below := head sortedR lt
    rw [out small above below (next rfl) fun _ _ => rfl, ih sorted sortedR (tail fitL) fitR, chunkOf_head,
      chunkOf_above below, one valid, if_pos rfl]
  | case6 a as b bs other ge ih =>
    obtain ⟨valid, small⟩ := fitR b mem_cons_self
    obtain ⟨above, sorted⟩ := pairwise_cons.mp sortedR
    have below := head sortedL (show b.key < a.key by omega)
    rw [out small below above (fun _ _ => rfl) (next rfl), ih sortedL sorted fitL (tail fitR), chunkOf_head,
      chunkOf_above below, one valid, if_neg (by decide)]

end Card

section Steps

theorem denotes_of_chunk {r : Rb} {s : Finset Nat} (valid : r.Valid)
    (same : ∀ x, x ∈ s ↔ x % chunkSize ∈ r.chunk (x / chunkSize)) : Denotes r s :=
  ⟨valid, fun x => (same x).trans (has_chunk valid x).symm⟩

variable {r r₁ r₂ : Rb} {s t : Finset Nat}

theorem denotes_add (denotes : Denotes r s) {x : Nat} (inside : x < 2 ^ 32) :
    Denotes (rbAdd r x granted).2 (insert x s) := by
  rcases rbAdd_adds denotes.valid inside granted with ⟨_, updates⟩ | ⟨_, _, _, bad⟩
  · refine denotes_of_chunk updates.1 fun y => ?_
    rw [updates_chunk denotes.valid updates, Finset.mem_insert, denotes_chunk denotes,
      Nat.ext_div_mod_iff chunkSize y x]
    by_cases same : y / chunkSize = x / chunkSize
    · simp [same]
    · simp [same]
  · contradiction

theorem denotes_remove (denotes : Denotes r s) (x : Nat) : Denotes (rbRemove r x granted).2 (s.erase x) := by
  rcases rbRemove_removes denotes.valid x granted with ⟨_, updates⟩ | ⟨_, _, _, bad⟩ | ⟨_, _, _, bad⟩
  · refine denotes_of_chunk updates.1 fun y => ?_
    rw [updates_chunk denotes.valid updates, Finset.mem_erase, denotes_chunk denotes, ne_eq,
      Nat.ext_div_mod_iff chunkSize y x]
    by_cases same : y / chunkSize = x / chunkSize
    · simp [same]
    · simp [same]
  · contradiction
  · contradiction

theorem mem_chunks {lo hi : Nat} (nonempty : lo < hi) (x : Nat) :
    (x / chunkSize ∈ chunks lo hi ∧ chunkLow lo (x / chunkSize) ≤ x % chunkSize ∧
      x % chunkSize ≤ chunkHigh hi (x / chunkSize)) ↔ lo ≤ x ∧ x < hi := by
  simp only [chunks, mem_range'_1, chunkLow, chunkHigh]
  split_ifs <;> simp only [chunkSize] at * <;> omega

theorem chunks_bounds {lo hi : Nat} (nonempty : lo < hi) (inside : hi ≤ 2 ^ 32) :
    (∀ k ∈ chunks lo hi, k < chunkSize) ∧
    (∀ k ∈ chunks lo hi, chunkLow lo k ≤ chunkHigh hi k ∧ chunkHigh hi k < chunkSize) := by
  constructor
  · intro k member
    simp only [chunks, mem_range'_1, chunkSize] at member ⊢
    omega
  · intro k member
    simp only [chunks, mem_range'_1, chunkLow, chunkHigh] at member ⊢
    split_ifs <;> simp only [chunkSize] at * <;> omega

def rangeSet (s : Finset Nat) (lo hi : Nat) (add : Bool) : Finset Nat :=
  if add then s ∪ Finset.Ico lo hi else s \ Finset.Ico lo hi

theorem mem_rangeSet (s : Finset Nat) (lo hi : Nat) (add : Bool) (x : Nat) :
    x ∈ rangeSet s lo hi add ↔ if lo ≤ x ∧ x < hi then add = true else x ∈ s := by
  unfold rangeSet
  cases add
  · simp only [Bool.false_eq_true, if_false, Finset.mem_sdiff, Finset.mem_Ico]
    split_ifs with inside <;> simp [inside]
  · simp only [if_true, Finset.mem_union, Finset.mem_Ico]
    split_ifs with inside <;> simp [inside]

theorem chunks_sorted lo hi : (chunks lo hi).Pairwise (· < ·) := pairwise_lt_range'

theorem denotes_range (denotes : Denotes r s) {lo hi : Nat} (inside : hi ≤ 2 ^ 32) (add : Bool) :
    Denotes (rbRange r lo hi add granted).2 (rangeSet s lo hi add) := by
  unfold rbRange
  split_ifs with empty
  · refine ⟨denotes.valid, fun x => ?_⟩
    rw [mem_rangeSet, if_neg (by omega)]
    exact denotes.members x
  · obtain ⟨small, bounds⟩ := chunks_bounds (Nat.lt_of_not_le empty) inside
    rcases rangeLoop_spec add granted denotes.valid (chunks lo hi) (chunks_sorted lo hi)
      small bounds with ⟨r', done, valid, chunk⟩ | ⟨_, _, _, _, _, _, bad⟩
    · rw [done]
      refine denotes_of_chunk valid fun x => ?_
      have covers := mem_chunks (Nat.lt_of_not_le empty) x
      rw [chunk, mem_rangeSet]
      by_cases member : x / chunkSize ∈ chunks lo hi
      · rw [if_pos member, mem_ranged, denotes_chunk denotes]
        simp only [member, true_and] at covers
        simp only [covers]
      · rw [if_neg member, if_neg (by tauto)]
        exact denotes_chunk denotes x
    · simp [granted] at bad

theorem merging_start (valid₁ : r₁.Valid) (valid₂ : r₂.Valid) : Merging r₁.c r₂.c ⟨[], 0⟩ :=
  ⟨keys_sorted.mp valid₁.sorted, keys_sorted.mp valid₂.sorted,
    fun c member => ⟨valid₁.valid c member, valid₁.small c member⟩,
    fun c member => ⟨valid₂.valid c member, valid₂.small c member⟩,
    ⟨List.Pairwise.nil, by simp, by simp, le_refl _⟩, by simp, by simp⟩

theorem rbOp_granted (valid₁ : r₁.Valid) (valid₂ : r₂.Valid) (op : RbOp) :
    ∃ nr, rbOp r₁ r₂ op granted = (0, nr) ∧ nr.Valid ∧ ∀ j, nr.chunk j = op.apply (r₁.chunk j) (r₂.chunk j) := by
  unfold rbOp
  rcases opLoop_ends op granted [] r₁.c r₂.c ⟨[], 0⟩ (merging_start valid₁ valid₂) with
    ⟨nr, done, valid, chunk⟩ | ⟨_, _, bad, _⟩
  · refine ⟨nr, by rw [done], valid, fun j => ?_⟩
    have start : Rb.chunk ⟨[], 0⟩ j = ∅ := chunkOf_nil _
    rw [chunk, start, Finset.empty_union]
    rfl
  · contradiction

theorem denotes_op (denotes₁ : Denotes r₁ s) (denotes₂ : Denotes r₂ t) (op : RbOp) :
    Denotes (rbOp r₁ r₂ op granted).2 (op.apply s t) := by
  obtain ⟨nr, done, valid, chunk⟩ := rbOp_granted denotes₁.valid denotes₂.valid op
  rw [done]
  refine denotes_of_chunk valid fun x => ?_
  rw [chunk, op.mem_apply, op.mem_apply]
  simp only [denotes_chunk denotes₁, denotes_chunk denotes₂]

theorem denotes_empty : Denotes ⟨[], 0⟩ ∅ :=
  ⟨⟨List.Pairwise.nil, by simp, by simp, le_refl _⟩, fun x => by simp [Rb.Has, InChunk]⟩

theorem denotes_opSelf (denotes : Denotes r s) (op : RbOp) : Denotes (rbOpSelf r op).2 (op.apply s s) := by
  unfold rbOpSelf
  cases op with
  | and =>
    have same : RbOp.and.apply s s = s := by
      ext x
      simp [RbOp.mem_apply, RbOp.takes]
    simpa [same] using denotes
  | or =>
    have same : RbOp.or.apply s s = s := by
      ext x
      simp [RbOp.mem_apply, RbOp.takes]
    simpa [same] using denotes
  | xor =>
    have none : RbOp.xor.apply s s = ∅ := by
      ext x
      simp [RbOp.mem_apply, RbOp.takes]
    simpa [none] using denotes_empty
  | andnot =>
    have none : RbOp.andnot.apply s s = ∅ := by
      ext x
      simp [RbOp.mem_apply, RbOp.takes]
    simpa [none] using denotes_empty

theorem copies_spec {cs : List Ct} (valid : ∀ c ∈ cs, c.Valid) :
    ∃ ts, cs.mapM (fun c => ctCopy c (granted c.key)) = some ts ∧
      List.Forall₂ (fun t c => t.Holds c.key c.body.members) ts cs := by
  induction cs with
  | nil => exact ⟨[], rfl, .nil⟩
  | cons c cs ih =>
    obtain ⟨ts, copied, same⟩ := ih fun d member => valid d (mem_cons_of_mem _ member)
    rcases ctCopy_spec (valid c mem_cons_self) (granted c.key) with ⟨t, one, holds⟩ | ⟨_, _, bad⟩
    · exact ⟨t :: ts, by simp [mapM_cons, one, copied], .cons holds same⟩
    · contradiction

variable {ts cs : List Ct}

section

variable (same : List.Forall₂ (fun t c => t.Holds c.key c.body.members) ts cs)
include same

theorem copies_keys : ts.map Ct.key = cs.map Ct.key := by
  induction same with
  | nil => rfl
  | cons holds _ ih => rw [map_cons, map_cons, holds.key, ih]

theorem copies_inChunk (k v : Nat) : InChunk ts k v ↔ InChunk cs k v := by
  induction same with
  | nil => rfl
  | cons holds _ ih =>
    simp only [InChunk, exists_mem_cons_iff, holds.key, holds.members] at ih ⊢
    rw [ih]

theorem copies_valid (valid : ∀ c ∈ cs, c.Valid) : ∀ t ∈ ts, t.Valid := by
  induction same with
  | nil => simp
  | cons holds _ ih =>
    obtain ⟨first, rest⟩ := forall_mem_cons.mp valid
    exact forall_mem_cons.mpr ⟨holds.valid first.nonempty, ih rest⟩

end

theorem denotes_clone (denotes : Denotes r s) : ∃ t, rbClone r granted = some t ∧ Denotes t s := by
  have valid := denotes.valid
  obtain ⟨ts, copied, same⟩ := copies_spec valid.valid
  have keys := copies_keys same
  have length : ts.length = r.c.length := same.length_eq
  rcases rbReserve_spec ⟨[], 0⟩ r.c.length (granted chunkSize) with ⟨dst, reserved, _, room, _⟩ | ⟨_, bad⟩
  · refine ⟨{ dst with c := ts }, by simp [rbClone, reserved, copied], ?_, fun x => ?_⟩
    · refine ⟨?_, copies_valid same valid.valid, fun t member => ?_, by simpa [length] using room⟩
      · simpa only [Rb.keys, keys] using valid.sorted
      · obtain ⟨c, part, key⟩ := mem_map.mp (keys ▸ mem_map_of_mem member)
        exact key ▸ valid.small c part
    · exact (denotes.members x).trans (copies_inChunk same _ _).symm
  · contradiction

theorem rbHas_eq (denotes : Denotes r s) (x : Nat) : rbHas r x = decide (x ∈ s) := by
  have member := denotes_chunk denotes x
  have low : x % chunkSize < chunkSize := mod_lt _ (by decide)
  cases rbFind_located denotes.valid (x / chunkSize) with
  | here L R c split key valid around found =>
    rw [chunk_here split key around] at member
    simp only [rbHas, found, at_here split, ctHas_eq valid low, Bool.true_and, member]
  | absent L R split around found =>
    rw [chunk_absent split around] at member
    simp [rbHas, found, member]

theorem rbOpCard_eq (denotes₁ : Denotes r₁ s) (denotes₂ : Denotes r₂ t) (op : RbOp) :
    rbOpCard r₁ r₂ op = (op.apply s t).card := by
  obtain ⟨nr, done, valid, chunk⟩ := rbOp_granted denotes₁.valid denotes₂.valid op
  have result := denotes_op denotes₁ denotes₂ op
  rw [done] at result
  obtain ⟨sortedL, sortedR, fitL, fitR, _⟩ := merging_start denotes₁.valid denotes₂.valid
  rw [rbOpCard, opCardLoop_eq op _ _ sortedL sortedR fitL fitR, card_by_chunks result]
  exact Finset.sum_congr rfl fun j _ => by rw [chunk]; rfl

end Steps

inductive RbStep where
  | add (i : Nat) (x : UInt32)
  | remove (i : Nat) (x : UInt32)
  | range (i : Nat) (lo hi : Fin (2 ^ 32 + 1)) (adding : Bool)
  | op (i j : Nat) (o : RbOp)
  | clone (i j : Nat)

def rbOpAt (store : Nat → Rb) (i j : Nat) (o : RbOp) (heap : Heap) : Int × Rb :=
  if i = j then rbOpSelf (store i) o else rbOp (store i) (store j) o heap

/-- The call on the bitmaps; a clone goes to address `j`. -/
def RbStep.exec (heap : Heap) (store : Nat → Rb) : RbStep → Nat → Rb
  | .add i x => update store i (rbAdd (store i) x.toNat heap).2
  | .remove i x => update store i (rbRemove (store i) x.toNat heap).2
  | .range i lo hi adding => update store i (rbRange (store i) lo hi adding heap).2
  | .op i j o => update store i (rbOpAt store i j o heap).2
  | .clone i j => update store j ((rbClone (store i) heap).getD (store j))

def RbStep.apply (sets : Nat → Finset Nat) : RbStep → Nat → Finset Nat
  | .add i x => update sets i (insert x.toNat (sets i))
  | .remove i x => update sets i ((sets i).erase x.toNat)
  | .range i lo hi adding => update sets i (rangeSet (sets i) lo hi adding)
  | .op i j o => update sets i (o.apply (sets i) (sets j))
  | .clone i j => update sets j (sets i)

variable {store : Nat → Rb} {sets : Nat → Finset Nat}

section

variable (all : ∀ i, Denotes (store i) (sets i))
include all

theorem denotes_update {i : Nat} {r : Rb} {s : Finset Nat} (one : Denotes r s) (j : Nat) :
    Denotes (update store i r j) (update sets i s j) := by
  by_cases same : j = i
  · subst same
    simpa only [update_self] using one
  · simpa only [update_of_ne same] using all j

theorem denotes_opAt (i j : Nat) (o : RbOp) : Denotes (rbOpAt store i j o granted).2 (o.apply (sets i) (sets j)) := by
  unfold rbOpAt
  by_cases same : i = j
  · subst same
    rw [if_pos rfl]
    exact denotes_opSelf (all i) o
  · rw [if_neg same]
    exact denotes_op (all i) (all j) o

theorem denotes_step (step : RbStep) : ∀ i, Denotes (step.exec granted store i) (step.apply sets i) := by
  cases step with
  | add i x => exact denotes_update all (denotes_add (all i) x.toNat_lt)
  | remove i x => exact denotes_update all (denotes_remove (all i) _)
  | range i lo hi add => exact denotes_update all (denotes_range (all i) (le_of_lt_succ hi.isLt) add)
  | op i j o => exact denotes_update all (denotes_opAt all i j o)
  | clone i j =>
    obtain ⟨t, cloned, denotes⟩ := denotes_clone (all i)
    simp only [RbStep.exec, cloned, Option.getD_some]
    exact denotes_update all denotes

end

theorem denotes_run (steps : List RbStep) (all : ∀ i, Denotes (store i) (sets i)) :
    ∀ i, Denotes (steps.foldl (RbStep.exec granted) store i) (steps.foldl RbStep.apply sets i) := by
  induction steps generalizing store sets with
  | nil => exact all
  | cons step steps ih => exact ih (denotes_step all step)

/-- Bitmaps refine finite sets: after any calls on a store of empty bitmaps every
bitmap satisfies its representation invariant, and its queries are those of the
set that the same calls build. -/
theorem roaring_refines_sets (steps : List RbStep) (i j : Nat) (o : RbOp) (x : UInt32) :
    let store := steps.foldl (RbStep.exec granted) fun _ => ⟨[], 0⟩
    let sets := steps.foldl RbStep.apply fun _ => ∅
    (store i).Valid ∧
    rbHas (store i) x.toNat = decide (x.toNat ∈ sets i) ∧
    rbCard (store i) = (sets i).card ∧
    rbOpCard (store i) (store j) o = (o.apply (sets i) (sets j)).card ∧
    rbOpCard (store i) (store j) o = rbCard (rbOpAt store i j o granted).2 := by
  intro store sets
  have all : ∀ i, Denotes (store i) (sets i) := denotes_run steps fun _ => denotes_empty
  have combined := rbOpCard_eq (all i) (all j) o
  exact ⟨(all i).valid, rbHas_eq (all i) _, rbCard_eq (all i), combined,
    combined.trans (rbCard_eq (denotes_opAt all i j o)).symm⟩

end DynaJS.Roaring
