import DynaJS.Ds.MmHeapOrder

/-! The downward repair of the min-max heap: the best descendant, one step of
`mm_trickle_down_dir`, and the whole loop. -/
namespace DynaJS.Ds

variable {P V : Type} [Preorder P] [DecidableLT P] [@Std.Total P (· ≤ ·)]

/-- The best of the positions looked at so far below `i`, with its flag. -/
structure Best (h : Mmheap P V) (i : Nat) (d : Bool) (seen : Nat → Prop) (b : Nat × Bool) : Prop where
  inside : b.1 < h.len
  below : Above i b.1
  flag : b.2 = true ↔ 4 * i + 3 ≤ b.1
  leads : ∀ j, j < h.len → seen j → Leads d (h.v b.1).pri (h.v j).pri

variable {h : Mmheap P V}

section Best

variable {i g : Nat} {d : Bool} {seen : Nat → Prop} {b : Nat × Bool}

omit [@Std.Total P (· ≤ ·)] in
theorem Best.beaten (best : Best h i d seen b) {flag : Bool} (inside : g < h.len) (below : Above i g)
    (deep : flag = true ↔ 4 * i + 3 ≤ g) (wins : better d (h.v g).pri (h.v b.1).pri = true) :
    Best h i d (fun j => seen j ∨ j = g) (g, flag) := by
  refine ⟨inside, below, deep, fun j hj member => ?_⟩
  rcases member with old | rfl
  · exact leads_trans (leads_of_better wins) (best.leads j hj old)
  · exact leads_refl _ _

theorem Best.stays (best : Best h i d seen b) (loses : g < h.len → ¬ better d (h.v g).pri (h.v b.1).pri = true) :
    Best h i d (fun j => seen j ∨ j = g) b := by
  refine ⟨best.inside, best.below, best.flag, fun j hj member => ?_⟩
  rcases member with old | rfl
  · exact best.leads j hj old
  · exact leads_of_not_better (by simpa using loses hj)

theorem bestGrandchild_spec (best : Best h i d seen b) (deep : 3 ≤ g) (up : i = (g - 3) / 4) :
    Best h i d (fun j => seen j ∨ j = g) (bestGrandchild h d b g) := by
  unfold bestGrandchild
  split_ifs with wins
  · exact best.beaten wins.1 (.inr ⟨deep, up⟩) (by simp only [true_iff]; omega) wins.2
  · exact best.stays fun inside more => wins ⟨inside, more⟩

end Best

variable {i m p : Nat} {d : Bool}

theorem bestOr_spec {c : Nat} (inside : c < h.len)
    (pos : 1 ≤ c) (up : i = (c - 1) / 2) (seen : Nat → Prop) (prev : Option (Nat × Bool))
    (first : prev = none → ∀ j, j < h.len → ¬ seen j)
    (later : ∀ b, prev = some b → Best h i d seen b) :
    Best h i d (fun j => seen j ∨ j = c) (bestOr h d prev c) := by
  have self : Above i c := .inl ⟨pos, up⟩
  have shallow : (false = true) ↔ 4 * i + 3 ≤ c := by
    simp only [Bool.false_eq_true, false_iff]; omega
  cases prev with
  | none =>
    refine ⟨inside, self, shallow, fun j hj member => ?_⟩
    rcases member with old | rfl
    · exact absurd old (first rfl j hj)
    · exact leads_refl _ _
  | some b =>
    have best := later b rfl
    simp only [bestOr]
    split_ifs with wins
    · exact best.beaten inside self shallow wins
    · exact best.stays fun _ => wins

theorem bestChild_spec {c : Nat} (pos : 1 ≤ c) (up : i = (c - 1) / 2) (seen : Nat → Prop) (prev : Option (Nat × Bool))
    (first : prev = none → ∀ j, j < h.len → ¬ seen j)
    (later : ∀ b, prev = some b → Best h i d seen b) :
    (bestChild h d prev c = none → ∀ j, j < h.len → ¬ (seen j ∨ j = c ∨ j = 2 * c + 1 ∨ j = 2 * c + 2)) ∧
    (∀ b, bestChild h d prev c = some b →
      Best h i d (fun j => seen j ∨ j = c ∨ j = 2 * c + 1 ∨ j = 2 * c + 2) b) := by
  unfold bestChild
  split_ifs with inside
  · refine ⟨fun none => by simp at none, fun b eq => ?_⟩
    have child := bestOr_spec inside pos up seen prev first later
    have both := bestGrandchild_spec (bestGrandchild_spec child (by omega : 3 ≤ 2 * c + 1) (by omega))
      (by omega : 3 ≤ 2 * c + 2) (by omega)
    rw [← Option.some.inj eq]
    exact ⟨both.inside, both.below, both.flag, fun j hj member => both.leads j hj (by tauto)⟩
  · refine ⟨fun none j hj member => ?_, fun b eq => ?_⟩
    · rcases member with old | rest
      · exact first none j hj old
      · omega
    · have best := later b eq
      refine ⟨best.inside, best.below, best.flag, fun j hj member => ?_⟩
      rcases member with old | rest
      · exact best.leads j hj old
      · omega

theorem bestDescendant_spec (h : Mmheap P V) (i : Nat) (d : Bool) :
    (mmBestDescendant h i d = none → ∀ j, j < h.len → ¬ Above i j) ∧
    (∀ b, mmBestDescendant h i d = some b → Best h i d (Above i) b) := by
  have left := bestChild_spec (h := h) (d := d) (by omega)
    (by omega : i = (2 * i + 1 - 1) / 2) (fun _ => False) none (by simp) (by simp)
  have both := bestChild_spec (by omega : 1 ≤ 2 * i + 2) (by omega) _
    (bestChild h d none (2 * i + 1)) left.1 left.2
  have reach : ∀ j, Above i j → ((False ∨ j = 2 * i + 1 ∨ j = 2 * (2 * i + 1) + 1 ∨
      j = 2 * (2 * i + 1) + 2) ∨ j = 2 * i + 2 ∨ j = 2 * (2 * i + 2) + 1 ∨
      j = 2 * (2 * i + 2) + 2) := fun j above => by
    unfold Above at above
    omega
  refine ⟨fun none j hj above => both.1 none j hj (reach j above), fun b eq => ?_⟩
  have best := both.2 b eq
  exact ⟨best.inside, best.below, best.flag, fun j hj above => best.leads j hj (reach j above)⟩

/-- The heap is ordered but for node `i` against its descendants, and the
grandparent of `i` would do in its place. -/
structure Falling (h : Mmheap P V) (i : Nat) : Prop where
  rest : ∀ u j, j < h.len → Above u j → u ≠ i → Leads (maxLevel u) (h.v u).pri (h.v j).pri
  skip : 3 ≤ i → ∀ j, j < h.len → Above i j → Leads (maxLevel i) (h.v ((i - 3) / 4)).pri (h.v j).pri

omit [DecidableLT P] [@Std.Total P (· ≤ ·)] in
theorem falling_stop (f : Falling h i)
    (own : ∀ j, j < h.len → Above i j → Leads (maxLevel i) (h.v i).pri (h.v j).pri) : Ordered h := by
  intro u j hj above
  by_cases at_ : u = i
  · subst at_
    exact own j hj above
  · exact f.rest u j hj above at_

omit [DecidableLT P] [@Std.Total P (· ≤ ·)] in
theorem falling_child (f : Falling h i) (hm : m < h.len) (child : 1 ≤ m ∧ i = (m - 1) / 2)
    (best : ∀ j, j < h.len → Above i j → Leads (maxLevel i) (h.v m).pri (h.v j).pri)
    (wins : Leads (maxLevel i) (h.v m).pri (h.v i).pri) : Ordered (mmSwap h m i) := by
  have flip := maxLevel_parent child.1
  rw [← child.2] at flip
  intro u j hj above
  by_cases atM : j = m
  · subst atM
    rw [mmSwap_left]
    rcases above with ⟨_, eq⟩ | ⟨three, eq⟩
    · obtain rfl : u = i := by omega
      rw [mmSwap_right]
      exact wins
    · rw [mmSwap_other h (by omega) (by omega)]
      exact f.rest u i (by omega) (.inl ⟨by omega, by omega⟩) (by omega)
  · by_cases atI : j = i
    · subst atI
      rw [mmSwap_right]
      rcases above with ⟨one, eq⟩ | ⟨three, eq⟩
      · rw [mmSwap_other h (by omega) (by omega)]
        exact f.rest u m hm (.inr ⟨by omega, by omega⟩) (by omega)
      · rw [mmSwap_other h (by omega) (by omega), eq, maxLevel_grandparent three]
        exact f.skip three m hm (.inl child)
    · rw [mmSwap_other h atM atI]
      by_cases fromM : u = m
      · subst fromM
        rw [mmSwap_left, flip, leads_not]
        have under := f.rest u j hj above (by omega)
        rw [flip, leads_not] at under
        exact leads_trans under wins
      · by_cases fromI : u = i
        · subst fromI
          rw [mmSwap_right]
          exact best j hj above
        · rw [mmSwap_other h fromM fromI]
          exact f.rest u j hj above fromI

/-- The node a grandchild step leaves at `m`, its parent `p` repaired: `a` stays
at `m` and `b` goes to `p`, whichever way round the two were. -/
structure Repaired (h h' : Mmheap P V) (i m p : Nat) (d : Bool) : Prop where
  len : h'.len = h.len
  top : h'.v i = h.v m
  other : ∀ k, k ≠ i → k ≠ m → k ≠ p → h'.v k = h.v k
  pair : (h'.v m = h.v i ∧ h'.v p = h.v p) ∨ (h'.v m = h.v p ∧ h'.v p = h.v i)
  order : Leads d (h'.v m).pri (h'.v p).pri
  own : Leads d (h.v i).pri (h'.v p).pri
  parent : Leads d (h.v p).pri (h'.v p).pri

theorem repaired_step (h : Mmheap P V) (d : Bool) (im : i ≠ m) (ip : i ≠ p) (mp : m ≠ p) :
    Repaired h (if better d ((mmSwap h m i).v p).pri ((mmSwap h m i).v m).pri then
      mmSwap (mmSwap h m i) m p else mmSwap h m i) i m p d := by
  have atP : (mmSwap h m i).v p = h.v p := mmSwap_other h mp.symm ip.symm
  rw [atP, mmSwap_left]
  split_ifs with wins
  · have lead := leads_of_better wins
    have newM : (mmSwap (mmSwap h m i) m p).v m = h.v p := by rw [mmSwap_left, atP]
    have newP : (mmSwap (mmSwap h m i) m p).v p = h.v i := by rw [mmSwap_right, mmSwap_left]
    refine ⟨rfl, ?_, fun k ki km kp => ?_, .inr ⟨newM, newP⟩, ?_, ?_, ?_⟩
    · rw [mmSwap_other _ im ip, mmSwap_right]
    · rw [mmSwap_other _ km kp, mmSwap_other _ km ki]
    · rwa [newM, newP]
    · rw [newP]
      exact leads_refl _ _
    · rwa [newP]
  · have lead := leads_of_not_better (by simpa using wins)
    refine ⟨rfl, mmSwap_right h m i, fun k ki km _ => mmSwap_other h km ki, .inl ⟨mmSwap_left h m i, atP⟩, ?_, ?_, ?_⟩
    · rwa [mmSwap_left, atP]
    · rwa [atP]
    · rw [atP]
      exact leads_refl _ _

omit [DecidableLT P] [@Std.Total P (· ≤ ·)] in
/-- Whichever node comes to rest at `m` and `p`, the old best leads both. -/
theorem repaired_under {h h' : Mmheap P V} (r : Repaired h h' i m p d)
    (wins : Leads d (h.v m).pri (h.v i).pri) (best : Leads d (h.v m).pri (h.v p).pri) :
    Leads d (h.v m).pri (h'.v m).pri ∧ Leads d (h.v m).pri (h'.v p).pri := by
  rcases r.pair with ⟨eqM, eqP⟩ | ⟨eqM, eqP⟩
  · rw [eqM, eqP]
    exact ⟨wins, best⟩
  · rw [eqM, eqP]
    exact ⟨best, wins⟩

omit [DecidableLT P] [@Std.Total P (· ≤ ·)] in
theorem falling_grandchild {h h' : Mmheap P V} (f : Falling h i) (hm : m < h.len)
    (deep : 3 ≤ m) (hi : i = (m - 3) / 4) (hp : p = (m - 1) / 2)
    (best : ∀ j, j < h.len → Above i j → Leads (maxLevel i) (h.v m).pri (h.v j).pri)
    (wins : Leads (maxLevel i) (h.v m).pri (h.v i).pri)
    (r : Repaired h h' i m p (maxLevel i)) : Falling h' m := by
  have dirP : maxLevel p = !maxLevel i := by
    rw [maxLevel_parent (by omega)]
    congr 2
    omega
  have mid := best p (by omega) (.inl ⟨by omega, by omega⟩)
  have under := repaired_under r wins mid
  have parentM := f.rest p m hm (.inl ⟨by omega, hp⟩) (by omega)
  constructor
  · intro u j hj above away
    rw [r.len] at hj
    by_cases atM : j = m
    · subst atM
      rcases above with ⟨_, eq⟩ | ⟨_, eq⟩
      · obtain rfl : u = p := by omega
        rw [dirP, leads_not]
        exact r.order
      · obtain rfl : u = i := by omega
        rw [r.top]
        exact under.1
    · by_cases atP : j = p
      · rw [atP]
        rcases above with ⟨_, eq⟩ | ⟨far, eq⟩
        · obtain rfl : u = i := by omega
          rw [r.top]
          exact under.2
        · -- `u` is the parent of `i`, and either candidate was below it.
          rw [r.other u (by omega) (by omega) (by omega)]
          rcases r.pair with ⟨_, eqP⟩ | ⟨_, eqP⟩
          · rw [eqP]
            exact f.rest u p (by omega) (.inr ⟨by omega, by omega⟩) (by omega)
          · rw [eqP]
            exact f.rest u i (by omega) (.inl ⟨by omega, by omega⟩) (by omega)
      · by_cases atI : j = i
        · subst atI
          rw [r.top]
          rcases above with ⟨one, eq⟩ | ⟨three, eq⟩
          · rw [r.other u (by omega) (by omega) (by omega)]
            have flip := maxLevel_parent one
            rw [← eq] at flip
            have far := f.rest u p (by omega) (.inr ⟨by omega, by omega⟩) (by omega)
            rw [dirP, flip, Bool.not_not] at parentM
            exact leads_trans far parentM
          · rw [r.other u (by omega) (by omega) (by omega), eq, maxLevel_grandparent three]
            exact f.skip three m hm (.inr ⟨deep, hi⟩)
        · rw [r.other j atI atM atP]
          by_cases fromI : u = i
          · subst fromI
            rw [r.top]
            exact best j hj above
          · by_cases fromP : u = p
            · rw [fromP] at above ⊢
              have down := f.rest p j hj above (by omega)
              rw [dirP, leads_not] at down ⊢
              exact leads_trans down r.parent
            · rw [r.other u fromI away fromP]
              exact f.rest u j hj above fromI
  · intro _ j hj above
    rw [r.len] at hj
    have low := f.rest m j hj above (by omega)
    have later := above_lt above
    rw [← hi, r.top, r.other j (by omega) (by omega) (by omega)]
    exact low

/-- What a round can do: stop at a node that leads all below it, swap it with a child, or
swap it with a grandchild, repair that one's parent and go on there. -/
theorem mmTrickleDownDir_cases (fuel : Nat) (h : Mmheap P V) (i : Nat) (d : Bool) :
    (mmTrickleDownDir (fuel + 1) h i d = h ∧ ∀ j, j < h.len → Above i j → Leads d (h.v i).pri (h.v j).pri) ∨
    ∃ m, m < h.len ∧ Leads d (h.v m).pri (h.v i).pri ∧
      (∀ j, j < h.len → Above i j → Leads d (h.v m).pri (h.v j).pri) ∧
      ((mmTrickleDownDir (fuel + 1) h i d = mmSwap h m i ∧ 1 ≤ m ∧ i = (m - 1) / 2) ∨
        ∃ h', mmTrickleDownDir (fuel + 1) h i d = mmTrickleDownDir fuel h' m d ∧ 3 ≤ m ∧ i = (m - 3) / 4 ∧
          Repaired h h' i m ((m - 1) / 2) d ∧ (h' = mmSwap h m i ∨ h' = mmSwap (mmSwap h m i) m ((m - 1) / 2))) := by
  have spec := bestDescendant_spec h i d
  simp only [mmTrickleDownDir]
  cases found : mmBestDescendant h i d with
  | none => exact .inl ⟨rfl, fun j hj above => absurd above (spec.1 found j hj)⟩
  | some b =>
    obtain ⟨m, isGc⟩ := b
    obtain ⟨inside, below, flag, leads⟩ := spec.2 _ found
    unfold Above at below
    by_cases wins : better d (h.v m).pri (h.v i).pri = true
    · refine .inr ⟨m, inside, leads_of_better wins, leads, ?_⟩
      cases isGc with
      | false =>
        simp only [Bool.false_eq_true, false_iff] at flag
        exact .inl ⟨by simp [wins], by omega, by omega⟩
      | true =>
        simp only [true_iff] at flag
        refine .inr ⟨_, by simp [wins], by omega, by omega,
          repaired_step h d (by omega) (by omega) (by omega), ?_⟩
        split_ifs
        · exact .inr rfl
        · exact .inl rfl
    · refine .inl ⟨by simp [wins], fun j hj above => ?_⟩
      exact leads_trans (leads_of_not_better (by simpa using wins)) (leads j hj above)

theorem trickleDownDir_ordered (fuel : Nat) (h : Mmheap P V) (i : Nat) (f : Falling h i)
    (enough : h.len ≤ fuel + i) : Ordered (mmTrickleDownDir fuel h i (maxLevel i)) := by
  induction fuel generalizing h i with
  | zero =>
    show Ordered h
    refine falling_stop f fun j hj above => ?_
    have := above_lt above
    omega
  | succ fuel ih =>
    rcases mmTrickleDownDir_cases fuel h i (maxLevel i) with
      ⟨done, own⟩ | ⟨m, inside, wins, best, ⟨done, child⟩ | ⟨h', done, deep, up, repaired, _⟩⟩
    · rw [done]
      exact falling_stop f own
    · rw [done]
      exact falling_child f inside child best wins
    · have next := ih h' m (falling_grandchild f inside deep up rfl best wins repaired) (by rw [repaired.len]; omega)
      rw [done, up, maxLevel_grandparent deep]
      exact next

end DynaJS.Ds
