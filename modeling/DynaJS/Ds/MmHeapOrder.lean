import DynaJS.Ds.MmHeap

/-! The order of the min-max heap, kept by both repair loops. A node on a minimum
level is at most its children and grandchildren, one on a maximum level at least;
one direction flag states both. -/
namespace DynaJS.Ds

open Nat

variable {P V : Type}

@[simp] theorem mmSwap_len (h : Mmheap P V) i j : (mmSwap h i j).len = h.len := rfl

theorem mmSwap_left (h : Mmheap P V) (i j : Nat) : (mmSwap h i j).v i = h.v j := by
  simp [mmSwap]

theorem mmSwap_right (h : Mmheap P V) (i j : Nat) : (mmSwap h i j).v j = h.v i := by
  by_cases same : j = i
  · simp [mmSwap, same]
  · simp [mmSwap, same]

theorem mmSwap_other (h : Mmheap P V) {i j k : Nat} (hi : k ≠ i) (hj : k ≠ j) : (mmSwap h i j).v k = h.v k := by
  simp [mmSwap, hi, hj]

variable [Preorder P]

def Leads (wantMax : Bool) (a b : P) : Prop := if wantMax then b ≤ a else a ≤ b

theorem leads_refl (d : Bool) (a : P) : Leads d a a := by
  cases d <;> exact le_refl a

theorem leads_trans {d : Bool} {a b c : P} (h₁ : Leads d a b) (h₂ : Leads d b c) : Leads d a c := by
  cases d
  · exact @le_trans P _ _ _ _ h₁ h₂
  · exact @le_trans P _ _ _ _ h₂ h₁

theorem leads_not (d : Bool) (a b : P) : Leads (!d) a b ↔ Leads d b a := by
  cases d <;> exact Iff.rfl

def maxLevel (i : Nat) : Bool := !mmIsMinLevel i

theorem maxLevel_zero : maxLevel 0 = false := by decide

theorem maxLevel_child (i : Nat) : maxLevel (2 * i + 1) = !maxLevel i ∧ maxLevel (2 * i + 2) = !maxLevel i := by
  have even : log2 (2 * i + 1 + 1) = log2 (i + 1) + 1 := by
    rw [show 2 * i + 1 + 1 = 2 * (i + 1) by omega]
    exact log2_two_mul (by omega)
  have odd : log2 (2 * i + 2 + 1) = log2 (i + 1) + 1 := by
    rw [show 2 * i + 2 + 1 = 2 * (i + 1) + 1 by omega, log2_def,
      if_pos (by omega), show (2 * (i + 1) + 1) / 2 = i + 1 by omega]
  have flip : ∀ n, decide ((n + 1) % 2 = 0) = !decide (n % 2 = 0) := fun n => by
    by_cases h : n % 2 = 0
    · simp [h, add_mod]
    · have : n % 2 = 1 := by omega
      simp [this, add_mod]
  simp only [maxLevel, mmIsMinLevel, even, odd, flip, Bool.not_not, and_self]

def Above (u i : Nat) : Prop := (1 ≤ i ∧ u = (i - 1) / 2) ∨ (3 ≤ i ∧ u = (i - 3) / 4)

variable {i : Nat}

theorem maxLevel_parent (h : 1 ≤ i) : maxLevel i = !maxLevel ((i - 1) / 2) := by
  have child := maxLevel_child ((i - 1) / 2)
  rcases mod_two_eq_zero_or_one i with even | odd
  · rw [← child.2]
    congr 1
    omega
  · rw [← child.1]
    congr 1
    omega

theorem maxLevel_grandparent (h : 3 ≤ i) : maxLevel ((i - 3) / 4) = maxLevel i := by
  rw [maxLevel_parent (by omega : 1 ≤ i), maxLevel_parent (by omega : 1 ≤ (i - 1) / 2), Bool.not_not]
  congr 1
  omega

def Ordered (h : Mmheap P V) : Prop := ∀ u i, i < h.len → Above u i → Leads (maxLevel u) (h.v u).pri (h.v i).pri

variable {h : Mmheap P V}

/-- Above every node that is deep enough stands one of the direction asked for. -/
theorem ordered_above (o : Ordered h) (hi : i < h.len) (d : Bool) (deep : if maxLevel i = d then 3 ≤ i else 1 ≤ i) :
    ∃ u, u < i ∧ maxLevel u = d ∧ Leads d (h.v u).pri (h.v i).pri := by
  split_ifs at deep with level
  · have dir := (maxLevel_grandparent deep).trans level
    have up := o ((i - 3) / 4) i hi (.inr ⟨deep, rfl⟩)
    rw [dir] at up
    exact ⟨_, by omega, dir, up⟩
  · have dir : maxLevel ((i - 1) / 2) = d := by simpa [maxLevel_parent deep] using level
    have up := o ((i - 1) / 2) i hi (.inl ⟨deep, rfl⟩)
    rw [dir] at up
    exact ⟨_, by omega, dir, up⟩

theorem ordered_root (o : Ordered h) (i : Nat) (hi : i < h.len) : (h.v 0).pri ≤ (h.v i).pri := by
  induction i using Nat.strong_induction_on with
  | _ i ih =>
    rcases Nat.eq_zero_or_pos i with rfl | pos
    · exact le_refl _
    · have deep : if maxLevel i = false then 3 ≤ i else 1 ≤ i := by
        split_ifs with level
        · by_contra low
          have : i = 1 ∨ i = 2 := by omega
          rcases this with rfl | rfl <;> revert level <;> decide
        · exact pos
      obtain ⟨u, lower, _, up⟩ := ordered_above o hi false deep
      exact (ih u lower (by omega)).trans up

theorem ordered_top (o : Ordered h) (i : Nat) (pos : 1 ≤ i) (hi : i < h.len) :
    (h.v i).pri ≤ (h.v 1).pri ∨ (2 < h.len ∧ (h.v i).pri ≤ (h.v 2).pri) := by
  induction i using Nat.strong_induction_on with
  | _ i ih =>
    by_cases deep : 3 ≤ i
    · obtain ⟨u, lower, dir, up⟩ := ordered_above o hi true (by split_ifs <;> omega)
      have below : 1 ≤ u := by
        by_contra root
        rw [show u = 0 by omega] at dir
        contradiction
      exact (ih u lower below (by omega)).imp (le_trans up) fun k => ⟨k.1, le_trans up k.2⟩
    · have : i = 1 ∨ i = 2 := by omega
      rcases this with rfl | rfl
      · exact .inl (le_refl _)
      · exact .inr ⟨hi, le_refl _⟩

/-- The heap is ordered but for node `i` against its grandparent, and the
grandparent would do in the place of `i`. -/
structure Rising (h : Mmheap P V) (i : Nat) : Prop where
  rest : ∀ u j, j < h.len → Above u j → ¬ (j = i ∧ 3 ≤ i ∧ u = (i - 3) / 4) →
    Leads (maxLevel u) (h.v u).pri (h.v j).pri
  skip : 3 ≤ i → ∀ j, j < h.len → Above i j → Leads (maxLevel i) (h.v ((i - 3) / 4)).pri (h.v j).pri

variable {p : Nat}

theorem above_lt {u j : Nat} (above : Above u j) : u < j := by
  unfold Above at above
  omega

/-- A node goes up to `p`, whose old element fits in its place. -/
theorem rising_swap (hi : i < h.len) (lower : p < i) (wins : Leads (maxLevel p) (h.v i).pri (h.v p).pri)
    (rest : ∀ u j, j < h.len → Above u j → j ≠ i → Leads (maxLevel u) (h.v u).pri (h.v j).pri)
    (into : ∀ u, Above u i → u ≠ p → Leads (maxLevel u) (h.v u).pri (h.v p).pri)
    (under : ∀ j, j < h.len → Above i j → Leads (maxLevel i) (h.v p).pri (h.v j).pri) :
    Rising (mmSwap h i p) p := by
  constructor
  · intro u j hj above fresh
    by_cases atI : j = i
    · subst atI
      rw [mmSwap_left]
      by_cases fromP : u = p
      · rw [fromP, mmSwap_right]
        exact wins
      · rw [mmSwap_other h (above_lt above).ne fromP]
        exact into u above fromP
    · have edge := rest u j hj above atI
      by_cases atP : j = p
      · subst atP
        rw [mmSwap_right, mmSwap_other h ((above_lt above).trans lower).ne (above_lt above).ne]
        rcases above with ⟨one, eq⟩ | ⟨three, eq⟩
        · have mirror : maxLevel u = !maxLevel j := by simp [maxLevel_parent one, eq]
          rw [mirror, leads_not] at edge ⊢
          exact leads_trans wins edge
        · exact absurd ⟨rfl, three, eq⟩ fresh
      · rw [mmSwap_other h atI atP]
        by_cases fromI : u = i
        · subst fromI
          rw [mmSwap_left]
          exact under j hj above
        · by_cases fromP : u = p
          · subst fromP
            rw [mmSwap_right]
            exact leads_trans wins edge
          · rwa [mmSwap_other h fromI fromP]
  · intro far j hj above
    have up := rest ((p - 3) / 4) p (by omega) (.inr ⟨far, rfl⟩) lower.ne
    rw [maxLevel_grandparent far] at up
    rw [mmSwap_other h (by omega) (by omega)]
    by_cases atI : j = i
    · subst atI
      rw [mmSwap_left]
      exact up
    · rw [mmSwap_other h atI (above_lt above).ne']
      exact leads_trans up (rest p j hj above atI)

variable [DecidableLT P]

theorem leads_of_better {d : Bool} {a b : P} (h : better d a b = true) : Leads d a b := by
  cases d
  · exact le_of_lt (by simpa [better] using h)
  · exact le_of_lt (by simpa [better] using h)

theorem rising_step (r : Rising h i) (hi : i < h.len) (deep : 3 ≤ i)
    (wins : better (maxLevel i) (h.v i).pri (h.v ((i - 3) / 4)).pri = true) :
    Rising (mmSwap h i ((i - 3) / 4)) ((i - 3) / 4) := by
  have dir := maxLevel_grandparent deep
  have rest : ∀ u j, j < h.len → Above u j → j ≠ i → Leads (maxLevel u) (h.v u).pri (h.v j).pri :=
    fun u j hj above other => r.rest u j hj above fun bad => other bad.1
  refine rising_swap hi (by omega) (by rw [dir]; exact leads_of_better wins) rest
    (fun u above other => ?_) (r.skip deep)
  rcases above with ⟨one, rfl⟩ | ⟨_, eq⟩
  · -- The parent of `i` sits between, in the other direction.
    have between := rest ((i - 3) / 4) ((i - 1) / 2) (by omega) (.inl ⟨by omega, by omega⟩) (by omega)
    rwa [dir, maxLevel_parent one, leads_not] at between
  · exact absurd eq other

/-- Both branches of `mm_bubble_up` are one: a node that beats its parent in the
parent's direction goes up the parent's levels, any other its own. -/
theorem mmBubbleUp_eq (h : Mmheap P V) (pos : 1 ≤ i) : mmBubbleUp h i =
      if better (maxLevel ((i - 1) / 2)) (h.v i).pri (h.v ((i - 1) / 2)).pri then
        mmBubbleUpDir i (mmSwap h i ((i - 1) / 2)) ((i - 1) / 2) (maxLevel ((i - 1) / 2))
      else mmBubbleUpDir i h i (maxLevel i) := by
  have flip := maxLevel_parent pos
  simp only [mmBubbleUp, if_neg (by omega : ¬ i = 0)]
  cases level : mmIsMinLevel i with
  | true =>
    have own : maxLevel i = false := by simp [maxLevel, level]
    have up : maxLevel ((i - 1) / 2) = true := by simpa [own] using flip
    simp [own, up, better]
  | false =>
    have own : maxLevel i = true := by simp [maxLevel, level]
    have up : maxLevel ((i - 1) / 2) = false := by simpa [own] using flip
    simp [own, up, better]

variable [@Std.Total P (· ≤ ·)]

theorem leads_of_not_better {d : Bool} {a b : P} (h : better d a b = false) : Leads d b a := by
  have total := total_of (· ≤ ·) a b
  cases d
  · have : ¬ a < b := by simpa [better] using h
    exact total.elim (fun le => not_lt_iff_le_imp_ge.mp this le) id
  · have : ¬ b < a := by simpa [better] using h
    exact total.elim id (fun le => not_lt_iff_le_imp_ge.mp this le)

theorem bubbleUpDir_ordered (fuel : Nat) (h : Mmheap P V) (i : Nat) (r : Rising h i)
    (hi : i < h.len) (enough : i ≤ fuel) :
    Ordered (mmBubbleUpDir fuel h i (maxLevel i)) := by
  induction fuel generalizing h i with
  | zero =>
    intro u j hj above
    exact r.rest u j hj above fun bad => by omega
  | succ fuel ih =>
    simp only [mmBubbleUpDir]
    by_cases deep : 3 ≤ i
    · rw [if_pos deep]
      split_ifs with wins
      · have next := ih _ _ (rising_step r hi deep wins) (by simp only [mmSwap_len]; omega) (by omega)
        rwa [maxLevel_grandparent deep] at next
      · intro u j hj above
        by_cases hole : j = i ∧ 3 ≤ i ∧ u = (i - 3) / 4
        · obtain ⟨rfl, _, rfl⟩ := hole
          rw [maxLevel_grandparent deep]
          exact leads_of_not_better (by simpa using wins)
        · exact r.rest u j hj above hole
    · rw [if_neg deep]
      intro u j hj above
      exact r.rest u j hj above fun bad => deep bad.2.1

theorem bubbleUp_ordered (last : h.len = i + 1)
    (old : ∀ u j, j < i → Above u j → Leads (maxLevel u) (h.v u).pri (h.v j).pri) :
    Ordered (mmBubbleUp h i) := by
  rcases Nat.eq_zero_or_pos i with rfl | pos
  · simp only [mmBubbleUp, if_true]
    intro u j hj above
    have := above_lt above
    omega
  · rw [mmBubbleUp_eq h pos]
    have flip := maxLevel_parent pos
    obtain ⟨p, hp⟩ : ∃ p, p = (i - 1) / 2 := ⟨_, rfl⟩
    rw [← hp] at flip ⊢
    split_ifs with wins
    · refine bubbleUpDir_ordered i _ p (rising_swap (by omega) (by omega) (leads_of_better wins)
        (fun u j hj above other => old u j (by omega) above) (fun u above other => ?_) fun j hj above => ?_)
        (by simp only [mmSwap_len]; omega) (by omega)
      · rcases above with ⟨_, eq⟩ | ⟨three, eq⟩
        · exact absurd (eq.trans hp.symm) other
        · exact old u p (by omega) (.inl ⟨by omega, by omega⟩)
      · have := above_lt above
        omega
    · refine bubbleUpDir_ordered i h i ⟨fun u j hj above fresh => ?_, fun far j hj above => ?_⟩ (by omega) (by omega)
      · by_cases atI : j = i
        · subst atI
          rcases above with ⟨_, eq⟩ | ⟨three, eq⟩
          · rw [eq, ← hp]
            exact leads_of_not_better (by simpa using wins)
          · exact absurd ⟨rfl, three, eq⟩ fresh
        · exact old u j (by omega) above
      · have := above_lt above
        omega

end DynaJS.Ds
