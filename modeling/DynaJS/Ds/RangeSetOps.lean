import DynaJS.Ds.RangeSet

/-! Each range-set call against the normal span lists: the searches cut the list,
add and remove splice it, and the queries read it. -/
namespace DynaJS.Ds

open Spans Nat List Gapvec

variable {α : Type} [LinearOrder α]

structure Rset.Valid (s : Rset α) : Prop where
  wf : s.Wf
  normal : Normal s.toList

theorem rsetNew_valid (memory : Nat → Span α) : (rsetNew memory).Valid :=
  ⟨⟨le_refl _, le_refl _, .inl rfl⟩, normal_nil⟩

variable {s : Rset α}

theorem rsetClear_valid (wf : s.Wf) : (rsetClear s).Valid := ⟨⟨le_refl _, zero_le _, wf.capacity⟩, normal_nil⟩

section

variable (v : s.Valid)
include v

theorem valid_proper {i : Nat} (h : i < s.len) : (s.gvAt i).lo < (s.gvAt i).hi := v.normal.proper _ (gvAt_mem h)

theorem valid_apart {i j : Nat} (h : i < j) (hj : j < s.len) : (s.gvAt i).hi < (s.gvAt j).lo := by
  have pairs := pairwise_iff_getElem.mp v.normal.apart i j (by simp; omega) (by simpa) h
  simpa [toList] using pairs

theorem hiAbove_mono (x : α) (strict : Bool) {i j : Nat} (h : i ≤ j)
    (hj : j < s.len) (hi : hiAbove x strict (s.gvAt i) = true) :
    hiAbove x strict (s.gvAt j) = true := by
  rcases eq_or_lt_of_le h with rfl | less
  · exact hi
  · have := valid_apart v less hj
    have := valid_proper v hj
    unfold hiAbove at hi ⊢
    cases strict
    · simp only [Bool.false_eq_true, if_false, decide_eq_true_eq] at hi ⊢; order
    · simp only [if_true, decide_eq_true_eq] at hi ⊢; order

theorem rsFirstHi_splits (x : α) (strict : Bool) :
    Search.Splits (fun i => hiAbove x strict (s.gvAt i)) 0 s.len (rsFirstHi s x strict) := by
  exact firstWhere_splits v.wf _ fun i j _ h hj hi => hiAbove_mono v x strict h hj hi

theorem rsFirstHi_cut (x : α) (strict : Bool) :
    s.toList.takeWhile (fun c => !hiAbove x strict c) = s.toList.take (rsFirstHi s x strict) ∧
    s.toList.dropWhile (fun c => !hiAbove x strict c) = s.toList.drop (rsFirstHi s x strict) :=
  splits_cut (rsFirstHi_splits v x strict)

end

theorem addLoop_absorb (s : Rset α) (fuel j : Nat) (merged : Span α) (hj : j ≤ s.len) (enough : s.len - j ≤ fuel) :
    j ≤ (addLoop s fuel j merged).1 ∧ (addLoop s fuel j merged).1 ≤ s.len ∧
    absorb merged (s.toList.drop j) = ((addLoop s fuel j merged).2, s.toList.drop (addLoop s fuel j merged).1) := by
  induction fuel generalizing j merged with
  | zero =>
    have last : s.toList.drop j = [] := drop_eq_nil_of_le (by simp; omega)
    simp only [addLoop, last, absorb]
    exact ⟨le_refl _, hj, trivial⟩
  | succ fuel ih =>
    by_cases more : j < s.len ∧ (s.gvAt j).lo ≤ merged.hi
    · simp only [addLoop, if_pos more, drop_toList more.1, absorb]
      have rest := ih (j + 1) ⟨if (s.gvAt j).lo < merged.lo then (s.gvAt j).lo else merged.lo,
        if merged.hi < (s.gvAt j).hi then (s.gvAt j).hi else merged.hi⟩ (by omega) (by omega)
      exact ⟨by omega, rest.2.1, by simpa only [if_pos more.2] using rest.2.2⟩
    · simp only [addLoop, if_neg more]
      refine ⟨le_refl _, hj, ?_⟩
      by_cases inside : j < s.len
      · have apart : ¬ (s.gvAt j).lo ≤ merged.hi := fun h => more ⟨inside, h⟩
        simp only [drop_toList inside, absorb, if_neg apart]
      · have last : s.toList.drop j = [] := drop_eq_nil_of_le (by simp; omega)
        simp only [last, absorb]

variable {lo hi : α}

theorem rsetAdd_addSpan (v : s.Valid) (h : lo < hi) (ok : Bool) :
    s.Edited (rsetAdd s lo hi ok) (addSpan s.toList lo hi) := by
  have upper := (rsFirstHi_splits v lo false).upper
  have cut := rsFirstHi_cut v lo false
  have test : (fun c => !hiAbove lo false c) = fun c => decide (c.hi < lo) := by
    funext c; simp [hiAbove, ← decide_not]
  rw [test] at cut
  simp only [rsetAdd, not_not.mpr h, if_false, addSpan, cut.1, cut.2]
  generalize rsFirstHi s lo false = i at *
  have loop := addLoop_absorb s s.len i ⟨lo, hi⟩ upper (by omega)
  rw [loop.2.2]
  have done := splice_spec v.wf i ((addLoop s s.len i ⟨lo, hi⟩).1 - i)
    (by omega) spanSize [(addLoop s s.len i ⟨lo, hi⟩).2] ok
  have whole : i + ((addLoop s s.len i ⟨lo, hi⟩).1 - i) = (addLoop s s.len i ⟨lo, hi⟩).1 := by
    omega
  rw [whole, append_assoc] at done
  exact done

theorem removeLoop_eq (s : Rset α) (hi : α) (fuel j : Nat) :
    removeLoop s hi fuel j = s.skipWhile (fun c => decide (c.lo < hi)) fuel j := by
  induction fuel generalizing j with
  | zero => rfl
  | succ fuel ih => simp only [removeLoop, skipWhile, decide_eq_true_eq, ih]

theorem removeLoop_cut (s : Rset α) (hi : α) (fuel j : Nat) (hj : j ≤ s.len) (enough : s.len - j ≤ fuel) :
    j ≤ removeLoop s hi fuel j ∧ removeLoop s hi fuel j ≤ s.len ∧
    (s.toList.drop j).takeWhile (fun c => decide (c.lo < hi)) = (s.toList.drop j).take (removeLoop s hi fuel j - j) ∧
    (s.toList.drop j).dropWhile (fun c => decide (c.lo < hi)) = s.toList.drop (removeLoop s hi fuel j) := by
  rw [removeLoop_eq]
  exact s.skipWhile_cut _ fuel j hj enough

/-- The final splice of `dyn_rset_remove`, for the cut positions the loops find. -/
theorem remove_splice {i j : Nat} (hij : i < j)
    (hj : j ≤ s.len) (front : s.toList.takeWhile (fun c => decide (c.hi ≤ lo)) = s.toList.take i)
    (rest : s.toList.dropWhile (fun c => decide (c.hi ≤ lo)) = s.toList.drop i)
    (mid : (s.toList.drop i).takeWhile (fun c => decide (c.lo < hi)) = (s.toList.drop i).take (j - i))
    (back : (s.toList.drop i).dropWhile (fun c => decide (c.lo < hi)) = s.toList.drop j) :
    removeSpan s.toList lo hi =
      s.toList.take i ++ keep lo hi (s.gvAt i) (s.gvAt (j - 1)) ++ s.toList.drop (i + (j - i)) := by
  have first : ((s.toList.drop i).take (j - i)).head? = some (s.gvAt i) := by
    rw [head?_take, if_neg (by omega), drop_toList (by omega), head?_cons]
  have last : ((s.toList.drop i).take (j - i)).getLast? = some (s.gvAt (j - 1)) := by
    rw [getLast?_eq_getElem?, getElem?_take, getElem?_drop, toList_getElem?]
    simp only [length_take, length_drop, toList_length]
    rw [if_pos (by omega), if_pos (by omega)]
    congr 2
    omega
  simp only [removeSpan, front, rest, mid, back, first, last]
  rw [show i + (j - i) = j by omega]

theorem rsetRemove_removeSpan (v : s.Valid) (h : lo < hi) (ok : Bool) :
    s.Edited (rsetRemove s lo hi ok) (removeSpan s.toList lo hi) := by
  have upper : rsetLower s lo ≤ s.len := (rsFirstHi_splits v lo true).upper
  have cut := rsFirstHi_cut v lo true
  have test : (fun c => !hiAbove lo true c) = fun c => decide (c.hi ≤ lo) := by
    funext c; simp [hiAbove, ← decide_not]
  rw [test, ← rsetLower] at cut
  have loop := removeLoop_cut s hi s.len (rsetLower s lo) upper (by omega)
  simp only [rsetRemove, not_not.mpr h, if_false]
  by_cases none : removeLoop s hi s.len (rsetLower s lo) = rsetLower s lo
  · rw [if_pos none]
    refine ⟨v.wf, .inl ⟨rfl, ?_⟩⟩
    rw [none, Nat.sub_self, take_zero] at loop
    simp only [removeSpan, cut.2, loop.2.2.1, head?_nil]
  · rw [if_neg none]
    have done := splice_spec v.wf (rsetLower s lo)
      (removeLoop s hi s.len (rsetLower s lo) - rsetLower s lo) (by omega)
      spanSize (keep lo hi (s.gvAt (rsetLower s lo)) (s.gvAt (removeLoop s hi s.len (rsetLower s lo) - 1))) ok
    rw [← remove_splice (by omega) loop.2.1 cut.1 cut.2 loop.2.2.1 loop.2.2.2] at done
    exact done

/-- A call on a set of points: it returns 0 and leaves the given points, or -1 and the old spans. -/
def Moves (s : Rset α) (r : Int × Rset α) (P : Set α) : Prop :=
  r.2.Valid ∧ ((r.1 = 0 ∧ points r.2.toList = P) ∨ (r.1 = -1 ∧ r.2.toList = s.toList))

theorem Rset.Valid.moves (v : s.Valid) {r : Int × Rset α} {l : List (Span α)} {P : Set α} (done : s.Edited r l)
    (spec : Normal l ∧ points l = P) : Moves s r P := by
  rcases done.2 with ⟨rc, eq⟩ | ⟨rc, eq⟩
  · exact ⟨⟨done.1, eq ▸ spec.1⟩, .inl ⟨rc, eq ▸ spec.2⟩⟩
  · exact ⟨⟨done.1, eq ▸ v.normal⟩, .inr ⟨rc, eq⟩⟩

theorem rsetAdd_step (v : s.Valid) (lo hi : α) (ok : Bool) :
    Moves s (rsetAdd s lo hi ok) (points s.toList ∪ Set.Ico lo hi) := by
  by_cases h : lo < hi
  · exact v.moves (rsetAdd_addSpan v h ok) (addSpan_spec v.normal h)
  · simp only [rsetAdd, if_pos h]
    exact ⟨v, .inl ⟨rfl, by simp [Set.Ico_eq_empty h]⟩⟩

theorem rsetRemove_step (v : s.Valid) (lo hi : α) (ok : Bool) :
    Moves s (rsetRemove s lo hi ok) (points s.toList \ Set.Ico lo hi) := by
  by_cases h : lo < hi
  · exact v.moves (rsetRemove_removeSpan v h ok) (removeSpan_spec v.normal h)
  · simp only [rsetRemove, if_pos h]
    exact ⟨v, .inl ⟨rfl, by simp [Set.Ico_eq_empty h]⟩⟩

/-- The position `rset_lower` finds decides every query: a point at or above `x` in
a span before it does not exist, and the span there is the first that ends above. -/
theorem rsetLower_spec (v : s.Valid) (x : α) : (∀ i, i < rsetLower s x → (s.gvAt i).hi ≤ x) ∧
    (∀ i, rsetLower s x ≤ i → i < s.len → x < (s.gvAt i).hi) := by
  have found := rsFirstHi_splits v x true
  refine ⟨fun i h => ?_, fun i h₁ h₂ => ?_⟩
  · simpa [hiAbove] using found.before i (zero_le _) h
  · simpa [hiAbove] using found.after i h₁ h₂

theorem mem_points_iff {x : α} : x ∈ points s.toList ↔ ∃ i, i < s.len ∧ (s.gvAt i).lo ≤ x ∧ x < (s.gvAt i).hi := by
  constructor
  · rintro ⟨c, hc, hx⟩
    obtain ⟨i, hi, rfl⟩ := mem_map.mp hc
    exact ⟨i, mem_range.mp hi, hx⟩
  · rintro ⟨i, hi, hx⟩
    exact ⟨_, gvAt_mem hi, hx⟩

theorem rsetContains_iff (v : s.Valid) (x : α) : rsetContains s x = true ↔ x ∈ points s.toList := by
  have spec := rsetLower_spec v x
  simp only [rsetContains, Bool.and_eq_true, decide_eq_true_eq, mem_points_iff]
  constructor
  · rintro ⟨h₁, h₂⟩
    exact ⟨_, h₁, h₂, spec.2 _ (le_refl _) h₁⟩
  · rintro ⟨i, hi, h₁, h₂⟩
    rcases lt_trichotomy i (rsetLower s x) with before | rfl | behind
    · have := spec.1 i before
      order
    · exact ⟨hi, h₁⟩
    · have := spec.2 (rsetLower s x) (le_refl _) (by omega)
      have := valid_apart v behind hi
      order

theorem rsetEncloses_iff (v : s.Valid) (h : lo < hi) :
    rsetEncloses s lo hi = true ↔ Set.Ico lo hi ⊆ points s.toList := by
  have spec := rsetLower_spec v lo
  simp only [rsetEncloses, not_not.mpr h, if_false, Bool.and_eq_true, decide_eq_true_eq]
  constructor
  · rintro ⟨⟨h₁, h₂⟩, h₃⟩ x ⟨hx₁, hx₂⟩
    exact mem_points_iff.mpr ⟨_, h₁, by order, by order⟩
  · intro inside
    obtain ⟨⟨h₁, h₂⟩⟩ : (rsetLower s lo < s.len ∧ (s.gvAt (rsetLower s lo)).lo ≤ lo) ∧ True := by
      have := (rsetContains_iff v lo).mpr (inside ⟨le_refl _, h⟩)
      simpa [rsetContains] using this
    refine ⟨⟨h₁, h₂⟩, ?_⟩
    -- Were the span too short, its own end would be a point that no span holds.
    by_contra short
    have above := spec.2 _ (le_refl _) h₁
    obtain ⟨i, hi, h₃, h₄⟩ := mem_points_iff.mp (inside ⟨le_of_lt above, not_le.mp short⟩)
    rcases lt_trichotomy i (rsetLower s lo) with before | rfl | behind
    · have := spec.1 i before
      order
    · order
    · have := valid_apart v behind hi
      order

theorem rsetIntersects_iff (v : s.Valid) (h : lo < hi) :
    rsetIntersects s lo hi = true ↔ (Set.Ico lo hi ∩ points s.toList).Nonempty := by
  have spec := rsetLower_spec v lo
  simp only [rsetIntersects, not_not.mpr h, if_false, Bool.and_eq_true, decide_eq_true_eq]
  constructor
  · rintro ⟨h₁, h₂⟩
    have above := spec.2 _ (le_refl _) h₁
    have proper := valid_proper v h₁
    refine ⟨max lo (s.gvAt (rsetLower s lo)).lo, ⟨le_max_left _ _, max_lt h h₂⟩, ?_⟩
    exact mem_points_iff.mpr ⟨_, h₁, le_max_right _ _, max_lt above proper⟩
  · rintro ⟨x, ⟨hx₁, hx₂⟩, hx⟩
    obtain ⟨i, hi, h₁, h₂⟩ := mem_points_iff.mp hx
    rcases lt_trichotomy i (rsetLower s lo) with before | rfl | behind
    · have := spec.1 i before
      order
    · exact ⟨hi, by order⟩
    · have := valid_apart v behind hi
      have := valid_proper v (by omega : rsetLower s lo < s.len)
      exact ⟨by omega, by order⟩

end DynaJS.Ds
