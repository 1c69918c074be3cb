import DynaJS.Roaring.BitmapOps

/-! The loops of `rb_range`, `rb_op` and `rb_op_card` over the chunks. Each lemma
says what a whole run comes to, and what it leaves when an allocation fails. -/
namespace DynaJS.Roaring

open DynaJS.BitSet List

section Chunks

variable {r r' : Rb} {k : Nat}

theorem updates_chunk {s : Finset Nat} (valid : r.Valid) (updates : Updates r r' k s) (j : Nat) :
    r'.chunk j = if j = k then s else r.chunk j := by
  ext v
  rw [← inChunk_chunk updates.1, updates.2]
  split_ifs
  · exact Iff.rfl
  · exact inChunk_chunk valid j v

theorem chunkOf_nil j : chunkOf [] j = ∅ := rfl

theorem chunkOf_cons (c : Ct) (cs : List Ct) (j : Nat) :
    chunkOf (c :: cs) j = if c.key = j then c.body.members else chunkOf cs j := by
  unfold chunkOf
  by_cases same : c.key = j <;> simp [same]

theorem chunkOf_none {cs : List Ct} {j : Nat} (nowhere : ∀ c ∈ cs, c.key ≠ j) : chunkOf cs j = ∅ := by
  have none : cs.find? (fun c => c.key = j) = none :=
    find?_eq_none.mpr fun c member => by simpa using nowhere c member
  simp [chunkOf, none]

theorem chunkOf_skip {front : List Ct} {j : Nat} (other : ∀ c ∈ front, c.key ≠ j) (cs : List Ct) :
    chunkOf (front ++ cs) j = chunkOf cs j := by
  have none : front.find? (fun c => c.key = j) = none :=
    find?_eq_none.mpr fun c member => by simpa using other c member
  simp [chunkOf, find?_append, none]

theorem chunkOf_append {cs : List Ct} {c : Ct} (fresh : ∀ d ∈ cs, d.key ≠ c.key) (j : Nat) :
    chunkOf (cs ++ [c]) j = if j = c.key then c.body.members else chunkOf cs j := by
  unfold chunkOf
  by_cases same : j = c.key
  · subst same
    have none : cs.find? (fun d => d.key = c.key) = none :=
      find?_eq_none.mpr fun d member => by simpa using fresh d member
    simp [find?_append, none]
  · have other : ¬ c.key = j := fun eq => same eq.symm
    rw [if_neg same]
    simp [other]

end Chunks

section Range

variable {lo hi : Nat} {add : Bool} {heap : Heap}

/-- A run of `rb_range` over the chunks `ks`: all of them in order, or those below
the one an allocation failed in, which is left alone or lost. -/
theorem rangeLoop_spec {r : Rb} (add : Bool) (heap : Heap) (valid : r.Valid) (ks : List Nat)
    (sorted : ks.Pairwise (· < ·))
    (small : ∀ k ∈ ks, k < chunkSize)
    (bounds : ∀ k ∈ ks, chunkLow lo k ≤ chunkHigh hi k ∧ chunkHigh hi k < chunkSize) :
    (∃ r', rangeLoop lo hi add heap ks r = (0, r') ∧ r'.Valid ∧ ∀ j, r'.chunk j =
      if j ∈ ks then ranged add (r.chunk j) (chunkLow lo j) (chunkHigh hi j) else r.chunk j) ∨
    (∃ r' k, rangeLoop lo hi add heap ks r = (-1, r') ∧ k ∈ ks ∧ r'.Valid ∧
      (∀ j, j ≠ k → r'.chunk j = if j ∈ ks ∧ j < k then
        ranged add (r.chunk j) (chunkLow lo j) (chunkHigh hi j) else r.chunk j) ∧
      ((r'.chunk k = r.chunk k ∧ (heap k .reserve = false ∨ heap k .words = false ∨
          (heap k .adopt = false ∧ r.chunk k = ∅))) ∨
        (r'.chunk k = ∅ ∧ (r.chunk k).Nonempty ∧ heap k .adopt = false))) := by
  induction ks generalizing r with
  | nil => exact .inl ⟨r, rfl, valid, by simp⟩
  | cons k ks ih =>
    obtain ⟨later, sorted⟩ := pairwise_cons.mp sorted
    have limits := bounds k mem_cons_self
    have round := rangeChunk_ranges valid (small k mem_cons_self) limits.1 limits.2 add (heap k)
    unfold rangeLoop
    generalize rangeChunk r k (chunkLow lo k) (chunkHigh hi k) add (heap k) = result at round ⊢
    obtain ⟨code, r₁⟩ := result
    rcases round with ⟨code_, updates⟩ | ⟨code_, updates, site⟩ | ⟨code_, updates, some, site⟩
    · simp only at code_ updates
      subst code_
      have first := updates_chunk valid updates
      have next := ih updates.1 sorted (fun j member => small j (mem_cons_of_mem _ member))
        fun j member => bounds j (mem_cons_of_mem _ member)
      have fresh : ∀ j ∈ ks, ¬ j = k := fun j member => by
        have := later j member
        omega
      have once : k ∉ ks := fun member => fresh k member rfl
      rcases next with ⟨r', done, valid', chunks⟩ | ⟨r', j, failed, member, valid', chunks, last⟩
      · refine .inl ⟨r', done, valid', fun j => ?_⟩
        rw [chunks j, first j]
        by_cases inside : j ∈ ks
        · simp [inside, fresh j inside]
        · by_cases same : j = k
          · simp [same, once]
          · simp [inside, same]
      · have above := later j member
        refine .inr ⟨r', j, failed, mem_cons_of_mem _ member, valid', fun i other => ?_, ?_⟩
        · rw [chunks i other, first i]
          by_cases same : i = k
          · simp [same, above, once]
          · simp [same]
        · rw [first j, if_neg (by omega)] at last
          exact last
    · simp only at code_ updates
      subst code_
      have chunks := updates_chunk valid updates
      refine .inr ⟨r₁, k, rfl, mem_cons_self, updates.1, fun j other => ?_, .inl ⟨?_, site⟩⟩
      · have none : ¬ (j ∈ k :: ks ∧ j < k) := by
          rintro ⟨member, lt⟩
          rcases mem_cons.mp member with rfl | member
          · omega
          · have := later j member
            omega
        rw [chunks, if_neg other, if_neg none]
      · rw [chunks, if_pos rfl]
    · simp only at code_ updates
      subst code_
      have chunks := updates_chunk valid updates
      refine .inr ⟨r₁, k, rfl, mem_cons_self, updates.1, fun j other => ?_, .inr ⟨?_, some, site⟩⟩
      · have none : ¬ (j ∈ k :: ks ∧ j < k) := by
          rintro ⟨member, lt⟩
          rcases mem_cons.mp member with rfl | member
          · omega
          · have := later j member
            omega
        rw [chunks, if_neg other, if_neg none]
      · rw [chunks, if_pos rfl]

end Range

section Op

theorem RbOp.apply_none (op : RbOp) : op.apply ∅ ∅ = ∅ := by
  ext v
  simp [op.mem_apply, op.takes_none]

theorem RbOp.apply_left (op : RbOp) (s : Finset Nat) : op.apply s ∅ = if op = .and then ∅ else s := by
  ext v
  cases op <;> simp [RbOp.mem_apply, RbOp.takes]

theorem RbOp.apply_right (op : RbOp) (s : Finset Nat) : op.apply ∅ s = if op = .and ∨ op = .andnot then ∅ else s := by
  ext v
  cases op <;> simp [RbOp.mem_apply, RbOp.takes]

/-- A result goes to the end of the new bitmap, unless memory for it or for its
place cannot be had. -/
theorem place_spec {nr : Rb} (valid : nr.Valid) {key : Nat} (ahead : ∀ c ∈ nr.c, c.key < key)
    (small : key < chunkSize) {made : Option (Nat × Ct)} {s : Finset Nat} {mem : Memory}
    (makes : Makes made key s mem) :
    (∃ nr', place nr made mem = some nr' ∧ nr'.Valid ∧
      (∀ j, nr'.chunk j = if j = key then s else nr.chunk j) ∧ ∀ c ∈ nr'.c, c ∈ nr.c ∨ c.key = key) ∨
    (place nr made mem = none ∧ ∃ site, mem site = false) := by
  have absent : nr.chunk key = ∅ := chunkOf_none fun c member => Nat.ne_of_lt (ahead c member)
  rcases makes with ⟨t, rfl, holds⟩ | ⟨rfl, site⟩
  · unfold place
    by_cases empty : s.card = 0
    · simp only [if_pos empty]
      refine .inl ⟨nr, rfl, valid, fun j => ?_, fun c member => .inl member⟩
      split_ifs with same
      · rw [same, absent, Finset.card_eq_zero.mp empty]
      · rfl
    · simp only [if_neg empty, push]
      rcases rbReserve_spec nr (nr.c.length + 1) mem with ⟨r', done, same, fits, _⟩ | ⟨failed, site⟩
      · have tValid := holds.valid (Finset.card_pos.mp (by omega))
        rw [done]
        refine .inl ⟨_, rfl, ⟨keys_sorted.mpr ?_, fun c member => ?_, fun c member => ?_, ?_⟩,
          fun j => ?_, fun c member => ?_⟩
        · simp only [same]
          refine pairwise_append.mpr ⟨keys_sorted.mp valid.sorted, pairwise_singleton _ _, ?_⟩
          intro c low d last
          rw [mem_singleton.mp last, holds.key]
          exact ahead c low
        · simp only [same, mem_append, mem_singleton] at member
          rcases member with old | rfl
          · exact valid.valid c old
          · exact tValid
        · simp only [same, mem_append, mem_singleton] at member
          rcases member with old | rfl
          · exact valid.small c old
          · rw [holds.key]
            exact small
        · simp only [same, length_append, length_singleton]
          exact fits
        · simp only [Rb.chunk, same]
          rw [chunkOf_append fun d member => by rw [holds.key]; exact Nat.ne_of_lt (ahead d member),
            holds.key, holds.members]
        · simp only [same, mem_append, mem_singleton] at member
          rcases member with old | rfl
          · exact .inl old
          · exact .inr holds.key
      · rw [failed]
        exact .inr ⟨rfl, _, site⟩
  · exact .inr ⟨rfl, site⟩

theorem push_eq_place (nr : Rb) {a : Ct} (valid : a.Valid) (mem : Memory) :
    push nr a mem = place nr (some (a.card, a)) mem := by
  have pos : ¬ a.card = 0 := by
    rw [valid.card_eq]
    have := Finset.card_pos.mpr valid.nonempty
    omega
  simp only [place, if_neg pos]

theorem Ct.Valid.makes {a : Ct} (valid : a.Valid) (mem : Memory) :
    Makes (some (a.card, a)) a.key a.body.members mem :=
  .inl ⟨a, by rw [valid.card_eq], valid.holds⟩

/-- The state of the loop of `rb_op`: two lists in order, and a new bitmap whose
keys lie below both. -/
structure Merging (as bs : List Ct) (nr : Rb) : Prop where
  sortedL : as.Pairwise fun c d => c.key < d.key
  sortedR : bs.Pairwise fun c d => c.key < d.key
  fitL : ∀ c ∈ as, c.Valid ∧ c.key < chunkSize
  fitR : ∀ c ∈ bs, c.Valid ∧ c.key < chunkSize
  valid : nr.Valid
  aheadL : ∀ c ∈ nr.c, ∀ d ∈ as, c.key < d.key
  aheadR : ∀ c ∈ nr.c, ∀ d ∈ bs, c.key < d.key

def passed (op : RbOp) (bs : List Ct) (k : Nat) (a : Ct) : Ct :=
  if op ≠ .and ∧ a.key < k ∧ a.key ∉ bs.map Ct.key then moved a else a

/-- How the loop of `rb_op` ends: with the combined bitmap, or at a failed
allocation with the containers moved out so far gone. -/
def OpEnds (op : RbOp) (heap : Heap) (done as bs : List Ct) (nr : Rb) (result : List Ct ⊕ Rb) : Prop :=
  (∃ nr', result = .inr nr' ∧ nr'.Valid ∧ ∀ j, nr'.chunk j = nr.chunk j ∪ op.apply (chunkOf as j) (chunkOf bs j)) ∨
  (∃ k site, heap k site = false ∧ (∃ d ∈ as ++ bs, d.key = k) ∧ result = .inl (done ++ as.map (passed op bs k)))

variable {op : RbOp} {heap : Heap} {done as bs : List Ct}

theorem opEnds_fail {nr : Rb} {k : Nat} (site : ∃ site, heap k site = false) (member : ∃ d ∈ as ++ bs, d.key = k)
    (least : ∀ c ∈ as, k ≤ c.key) : OpEnds op heap done as bs nr (.inl (done ++ as)) := by
  obtain ⟨site, failed⟩ := site
  refine .inr ⟨k, site, failed, member, ?_⟩
  have same : as.map (passed op bs k) = as := by
    refine map_congr_left (fun c part => ?_) |>.trans (map_id as)
    have := least c part
    simp only [passed, id]
    rw [if_neg (by omega)]
  rw [same]

/-- A round that deals with the containers of one key, which stand in front of both lists,
and places what it makes of them. -/
theorem opEnds_step {as as' bs bs' front back done' : List Ct} {nr : Rb} {key : Nat} {made : Option (Nat × Ct)}
    (merging : Merging as bs nr) (cutL : as = front ++ as') (cutR : bs = back ++ bs')
    (own : ∀ c ∈ front ++ back, c.key = key) (laterL : ∀ c ∈ as', key < c.key) (laterR : ∀ c ∈ bs', key < c.key)
    (there : ∃ d ∈ front ++ back, (∀ c ∈ nr.c, c.key < d.key) ∧ d.key < chunkSize)
    (left : done' = done ++ front.map fun c => if op ≠ .and ∧ key ∉ bs.map Ct.key then moved c else c)
    (makes : Makes made key (op.apply (chunkOf as key) (chunkOf bs key)) (heap key))
    (rest : ∀ nr', Merging as' bs' nr' → OpEnds op heap done' as' bs' nr' (opLoop op heap done' as' bs' nr')) :
    OpEnds op heap done as bs nr (match place nr made (heap key) with
      | none => .inl (done ++ as)
      | some nr => opLoop op heap done' as' bs' nr) := by
  obtain ⟨e, first, ahead, small⟩ := there
  rw [own e first] at ahead small
  have inL : as'.Sublist as := cutL ▸ sublist_append_right front as'
  have inR : bs'.Sublist bs := cutR ▸ sublist_append_right back bs'
  rcases place_spec merging.valid ahead small makes with ⟨nr', placed, valid, chunks, known⟩ | ⟨failed, site⟩
  · simp only [placed]
    have above : ∀ c ∈ nr'.c, c.key ≤ key := fun c inside =>
      (known c inside).elim (fun old => (ahead c old).le) Nat.le_of_eq
    have next : Merging as' bs' nr' := ⟨merging.sortedL.sublist inL, merging.sortedR.sublist inR,
      fun c member => merging.fitL c (inL.mem member), fun c member => merging.fitR c (inR.mem member), valid,
      fun c inside d member => (above c inside).trans_lt (laterL d member),
      fun c inside d member => (above c inside).trans_lt (laterR d member)⟩
    rcases rest nr' next with ⟨r, same, valid, final⟩ | ⟨k, site, failed, ⟨d, member, at_k⟩, same⟩
    · refine .inl ⟨r, same, valid, fun j => ?_⟩
      rw [final j, chunks j]
      by_cases here : j = key
      · subst here
        rw [if_pos rfl, chunkOf_none fun c member => Nat.ne_of_gt (laterL c member),
          chunkOf_none fun c member => Nat.ne_of_gt (laterR c member), op.apply_none, Finset.union_empty,
          Rb.chunk, chunkOf_none fun c member => Nat.ne_of_lt (ahead c member), Finset.empty_union]
      · have other : ∀ c ∈ front ++ back, c.key ≠ j := fun c member => own c member ▸ Ne.symm here
        rw [if_neg here, cutL, cutR, chunkOf_skip fun c member => other c (mem_append_left _ member),
          chunkOf_skip fun c member => other c (mem_append_right _ member)]
    · have late : key < k := at_k ▸ (mem_append.mp member).elim (laterL d) (laterR d)
      refine .inr ⟨k, site, failed, ⟨d, ?_, at_k⟩, ?_⟩
      · exact mem_append.mpr ((mem_append.mp member).imp (inL.mem ·) (inR.mem ·))
      · have passes : front.map (passed op bs k) =
            front.map fun c => if op ≠ .and ∧ key ∉ bs.map Ct.key then moved c else c :=
          map_congr_left fun c member => by simp only [passed, own c (mem_append_left _ member), late, true_and]
        have still : as'.map (passed op bs' k) = as'.map (passed op bs k) := map_congr_left fun c part => by
          have apart : c.key ∉ back.map Ct.key := fun bad => by
            obtain ⟨b, inside, eq⟩ := mem_map.mp bad
            have := own b (mem_append_right _ inside)
            have := laterL c part
            omega
          simp only [passed, cutR, map_append, mem_append, apart, false_or]
        rw [same, left, still, append_assoc, ← passes, ← map_append, ← cutL]
  · simp only [failed]
    obtain ⟨d, member⟩ : ∃ d, d ∈ as ++ bs ∧ d.key = key := by
      refine ⟨e, ?_, own e first⟩
      rw [cutL, cutR]
      exact mem_append.mpr ((mem_append.mp first).imp (mem_append_left _) (mem_append_left _))
    refine opEnds_fail site ⟨d, member⟩ fun c member => ?_
    rw [cutL] at member
    rcases mem_append.mp member with here | later
    · exact Nat.le_of_eq (own c (mem_append_left _ here)).symm
    · exact (laterL c later).le

theorem chunkOf_head (c : Ct) (cs : List Ct) : chunkOf (c :: cs) c.key = c.body.members := by
  rw [chunkOf_cons, if_pos rfl]

theorem chunkOf_above {cs : List Ct} {key : Nat} (above : ∀ c ∈ cs, key < c.key) : chunkOf cs key = ∅ :=
  chunkOf_none fun c member => Nat.ne_of_gt (above c member)

/-- The head of the left list, whose key lies below the right list, is skipped or moved. -/
theorem opEnds_left (done : List Ct) {a : Ct} {nr : Rb} (merging : Merging (a :: as) bs nr)
    (below : ∀ d ∈ bs, a.key < d.key)
    (rest : ∀ done' nr', Merging as bs nr' → OpEnds op heap done' as bs nr' (opLoop op heap done' as bs nr')) :
    OpEnds op heap done (a :: as) bs nr (if op = .and then opLoop op heap (done ++ [a]) as bs nr
      else match push nr a (heap a.key) with
        | none => .inl (done ++ a :: as)
        | some nr => opLoop op heap (done ++ [moved a]) as bs nr) := by
  obtain ⟨fit, small⟩ := merging.fitL a mem_cons_self
  have ahead := fun c member => merging.aheadL c member a mem_cons_self
  have out : a.key ∉ bs.map Ct.key := fun bad => by
    obtain ⟨e, inside, eq⟩ := mem_map.mp bad
    have := below e inside
    omega
  have step := fun done' made => @opEnds_step op heap done (a :: as) as bs bs [a] [] done' nr a.key made merging rfl rfl
    (by simp) (pairwise_cons.mp merging.sortedL).1 below ⟨a, by simp, ahead, small⟩
  simp only [chunkOf_head, chunkOf_above below, op.apply_left, map_cons, map_nil, out, not_false_eq_true,
    and_true] at step
  split_ifs with and
  · exact step (done ++ [a]) (some (0, ⟨a.key, .none, 0, 0⟩)) (by simp [and]) (makes_empty _ (if_pos and)) (rest _)
  · rw [push_eq_place nr fit]
    exact step (done ++ [moved a]) _ (by simp [and]) (by rw [if_neg and]; exact fit.makes _) (rest _)

theorem opEnds_right {b : Ct} {nr : Rb} (merging : Merging as (b :: bs) nr) (below : ∀ d ∈ as, b.key < d.key)
    (rest : ∀ nr', Merging as bs nr' → OpEnds op heap done as bs nr' (opLoop op heap done as bs nr')) :
    OpEnds op heap done as (b :: bs) nr (if op = .and ∨ op = .andnot then opLoop op heap done as bs nr
      else match place nr (ctOpOne b false op (heap b.key)) (heap b.key) with
        | none => .inl (done ++ as)
        | some nr => opLoop op heap done as bs nr) := by
  obtain ⟨fit, small⟩ := merging.fitR b mem_cons_self
  have ahead := fun c member => merging.aheadR c member b mem_cons_self
  have makes := (ctOpOne_makes fit false op (heap b.key)).1
  have step := fun made => @opEnds_step op heap done as as (b :: bs) bs [] [b] done nr b.key made merging rfl rfl
    (by simp) below (pairwise_cons.mp merging.sortedR).1 ⟨b, by simp, ahead, small⟩ (by simp)
  simp only [chunkOf_head, chunkOf_above below] at step
  split_ifs with drops
  · exact step (some (0, ⟨b.key, .none, 0, 0⟩)) (makes_empty _ (by rw [op.apply_right, if_pos drops])) rest
  · exact step _ makes rest

theorem opLoop_ends (op : RbOp) (heap : Heap) (done as bs : List Ct) (nr : Rb)
    (merging : Merging as bs nr) : OpEnds op heap done as bs nr (opLoop op heap done as bs nr) := by
  -- Induction on the containers left in both lists.
  induction size : as.length + bs.length using Nat.strong_induction_on generalizing done as bs nr with
  | _ n ih =>
    have rest : ∀ as' bs', as'.length + bs'.length < n → ∀ done' nr', Merging as' bs' nr' →
        OpEnds op heap done' as' bs' nr' (opLoop op heap done' as' bs' nr') :=
      fun as' bs' less done' nr' next => ih _ less done' as' bs' nr' next rfl
    cases as with
    | nil =>
      cases bs with
      | nil =>
        rw [opLoop]
        exact .inl ⟨nr, rfl, merging.valid, fun j => by
          rw [chunkOf_nil, op.apply_none, Finset.union_empty]⟩
      | cons b bs =>
        have ends := opEnds_right merging (by simp) (rest [] bs (by simp at size ⊢; omega) done)
        rw [append_nil] at ends
        rw [opLoop]
        split_ifs at ends ⊢ with drops
        · exact .inl ⟨nr, rfl, merging.valid, fun j => by
            rw [chunkOf_nil, op.apply_right, if_pos drops, Finset.union_empty]⟩
        · exact ends
    | cons a as =>
      cases bs with
      | nil =>
        have ends := opEnds_left done merging (by simp) (rest as [] (by simp at size ⊢; omega))
        rw [opLoop]
        split_ifs at ends ⊢ with and
        · exact .inl ⟨nr, rfl, merging.valid, fun j => by
            rw [chunkOf_nil, op.apply_left, if_pos and, Finset.union_empty]⟩
        · exact ends
      | cons b bs =>
        have aboveA := (pairwise_cons.mp merging.sortedL).1
        have aboveB := (pairwise_cons.mp merging.sortedR).1
        simp only [length_cons] at size
        rw [opLoop]
        by_cases lt : a.key < b.key
        · rw [if_pos lt]
          exact opEnds_left done merging (forall_mem_cons.mpr ⟨lt, fun d later => lt.trans (aboveB d later)⟩)
            (rest as (b :: bs) (by simp; omega))
        rw [if_neg lt]
        by_cases gt : b.key < a.key
        · rw [if_pos gt]
          exact opEnds_right merging (forall_mem_cons.mpr ⟨gt, fun d later => gt.trans (aboveA d later)⟩)
            (rest (a :: as) bs (by simp; omega) done)
        rw [if_neg gt]
        have keys : a.key = b.key := by omega
        obtain ⟨fitA, small⟩ := merging.fitL a mem_cons_self
        have makes := ctOpBoth_makes fitA (merging.fitR b mem_cons_self).1 keys op (heap a.key)
        rw [← chunkOf_head a as, ← chunkOf_head b bs, ← keys] at makes
        exact @opEnds_step op heap done (a :: as) as (b :: bs) bs [a] [b] (done ++ [a]) nr a.key _ merging rfl rfl
          (by simp [keys]) aboveA (keys ▸ aboveB)
          ⟨a, by simp, fun c member => merging.aheadL c member a mem_cons_self, small⟩ (by simp [keys]) makes
          (rest as bs (by omega) _)

end Op

end DynaJS.Roaring
