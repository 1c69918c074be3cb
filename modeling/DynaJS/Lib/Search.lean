import Mathlib.Data.List.GetD
import Mathlib.Tactic

/-! Lower-bound binary search for a predicate on positions. The window is half
open and shrinks on every round, so the window length is enough fuel. -/
namespace DynaJS.Search

open List Nat

def loop (p : Nat → Bool) : Nat → Nat → Nat → Nat
  | 0, a, _ => a
  | fuel + 1, a, b =>
    if a < b then
      let mid := a + (b - a) / 2
      if p mid then loop p fuel a mid else loop p fuel (mid + 1) b
    else a

variable (p : Nat → Bool)

def lowerBound (a b : Nat) : Nat := loop p (b - a) a b

def Monotone (a b : Nat) : Prop := ∀ i j, a ≤ i → i ≤ j → j < b → p i = true → p j = true

structure Splits (p : Nat → Bool) (a b r : Nat) : Prop where
  lower : a ≤ r
  upper : r ≤ b
  before : ∀ i, a ≤ i → i < r → p i = false
  after : ∀ i, r ≤ i → i < b → p i = true

theorem loop_splits (fuel a b : Nat) (ordered : a ≤ b)
    (enough : b - a ≤ fuel) (mono : Monotone p a b) : Splits p a b (loop p fuel a b) := by
  induction fuel generalizing a b with
  | zero =>
    have same : a = b := by omega
    subst same
    simp only [loop]
    exact ⟨le_refl _, le_refl _, fun i h₁ h₂ => by omega, fun i h₁ h₂ => by omega⟩
  | succ fuel ih =>
    unfold loop
    split_ifs with nonempty
    · have inside : a + (b - a) / 2 < b := by omega
      generalize hm : a + (b - a) / 2 = mid at inside ⊢
      have low : a ≤ mid := by omega
      by_cases hit : p mid = true
      · simp only [if_pos hit]
        have sub : Monotone p a mid := fun i j h₁ h₂ h₃ => mono i j h₁ h₂ (by omega)
        have rest := ih a mid low (by omega) sub
        refine ⟨rest.lower, by have := rest.upper; omega, rest.before, fun i h₁ h₂ => ?_⟩
        by_cases early : i < mid
        · exact rest.after i h₁ early
        · exact mono mid i low (by omega) h₂ hit
      · simp only [if_neg hit]
        have sub : Monotone p (mid + 1) b := fun i j h₁ h₂ h₃ => mono i j (by omega) h₂ h₃
        have rest := ih (mid + 1) b (by omega) (by omega) sub
        refine ⟨by have := rest.lower; omega, rest.upper, fun i h₁ h₂ => ?_, rest.after⟩
        by_cases early : i ≤ mid
        · by_contra bad
          exact hit (mono i mid h₁ early inside (by simpa using bad))
        · exact rest.before i (by omega) h₂
    · exact ⟨le_refl _, by omega, fun i h₁ h₂ => by omega, fun i h₁ h₂ => by omega⟩

theorem lowerBound_splits (a b : Nat) (ordered : a ≤ b) (mono : Monotone p a b) : Splits p a b (lowerBound p a b) :=
  loop_splits p (b - a) a b ordered (le_refl _) mono

theorem cut_at {β : Type} {l : List β} {p : β → Bool} {r : Nat}
    (before : ∀ x ∈ l.take r, p x = true) (after : ∀ x ∈ l.drop r, p x = false) :
    l.takeWhile p = l.take r ∧ l.dropWhile p = l.drop r := by
  have stop : (l.drop r).takeWhile p = [] ∧ (l.drop r).dropWhile p = l.drop r := by
    cases rest : l.drop r with
    | nil => exact ⟨rfl, rfl⟩
    | cons x xs =>
      have miss : ¬ p x = true := by simp [after x (by simp [rest])]
      exact ⟨takeWhile_cons_of_neg miss, dropWhile_cons_of_neg miss⟩
  constructor
  · conv_lhs => rw [← take_append_drop r l]
    rw [takeWhile_append_of_pos before, stop.1, append_nil]
  · conv_lhs => rw [← take_append_drop r l]
    rw [dropWhile_append_of_pos before, stop.2]

structure Cut {α : Type} [LinearOrder α] (l : List α) (k : α) (r : Nat) : Prop where
  inside : r ≤ l.length
  below : ∀ v ∈ l.take r, v < k
  above : ∀ v ∈ l.drop r, k ≤ v

theorem lowerBound_cut {l : List Nat} (sorted : l.Pairwise (· < ·)) (k : Nat) :
    Cut l k (lowerBound (fun m => ¬ l.getD m 0 < k) 0 l.length) := by
  have increasing : ∀ i j, i ≤ j → j < l.length → l.getD i 0 ≤ l.getD j 0 := fun i j le inside => by
    rcases lt_or_eq_of_le le with lt | rfl
    · rw [getD_eq_getElem _ _ (by omega), getD_eq_getElem _ _ inside]
      exact le_of_lt (pairwise_iff_getElem.mp sorted i j (by omega) inside lt)
    · exact le_refl _
  have splits := lowerBound_splits (fun m => ¬ l.getD m 0 < k) 0 l.length (zero_le _)
    fun i j _ le inside hit => by
      have := increasing i j le inside
      simp only [decide_eq_true_eq] at hit ⊢
      omega
  refine ⟨splits.upper, fun v member => ?_, fun v member => ?_⟩
  · obtain ⟨i, lt, rfl⟩ := mem_iff_getElem.mp member
    rw [length_take] at lt
    have out := splits.before i (zero_le _) (by omega)
    rw [getD_eq_getElem _ _ (by omega)] at out
    simpa using out
  · obtain ⟨i, lt, rfl⟩ := mem_iff_getElem.mp member
    rw [length_drop] at lt
    have out := splits.after (lowerBound (fun m => ¬ l.getD m 0 < k) 0 l.length + i) (le_add_right _ _) (by omega)
    rw [getD_eq_getElem _ _ (by omega)] at out
    simpa using out

theorem getElem?_insert {α : Type} {l : List α} {r : Nat} (inside : r ≤ l.length) (x : α) (i : Nat) :
    (l.take r ++ x :: l.drop r)[i]? = if i < r then l[i]? else if i = r then some x else l[i - 1]? := by
  have length : (l.take r).length = r := by
    rw [length_take]
    omega
  rcases lt_trichotomy i r with before | rfl | behind
  · rw [if_pos before, getElem?_append_left (by omega), getElem?_take_of_lt before]
  · rw [if_neg (Nat.lt_irrefl i), if_pos rfl, getElem?_append_right (by omega), length, Nat.sub_self]
    rfl
  · rw [if_neg (by omega), if_neg (by omega), getElem?_append_right (by omega), length]
    obtain ⟨d, rfl⟩ : ∃ d, i = r + d + 1 := ⟨i - r - 1, by omega⟩
    rw [show r + d + 1 - r = d + 1 by omega, getElem?_cons_succ, getElem?_drop]
    rfl

section Cut

variable {α : Type} [LinearOrder α] {l : List α} {k : α} {r : Nat}

variable (cut : Cut l k r)
include cut

theorem Cut.getElem?_iff (sorted : l.Pairwise (· < ·)) : l[r]? = some k ↔ k ∈ l := by
  constructor
  · exact mem_of_getElem?
  · intro member
    rw [← take_append_drop r l] at member
    rcases mem_append.mp member with low | high
    · exact absurd (cut.below k low) (lt_irrefl k)
    · have above := cut.above
      have later := sorted.sublist (drop_sublist r l)
      rw [← head?_drop]
      cases rest : l.drop r with
      | nil => simp [rest] at high
      | cons x xs =>
        rw [rest] at high above later
        rcases mem_cons.mp high with rfl | tail
        · rfl
        · -- A later entry is larger than the one at the cut, which is not below `k`.
          have less := (pairwise_cons.mp later).1 k tail
          exact absurd (above x mem_cons_self) (not_le_of_gt less)

theorem Cut.unique {r' : Nat} (cut' : Cut l k r') : r = r' := by
  have least : ∀ {r r' : Nat}, Cut l k r → Cut l k r' → r ≤ r' := by
    intro r r' cut cut'
    by_contra more
    have inside : r' < l.length := by
      have := cut.inside
      omega
    have below := cut.below l[r'] (mem_take_iff_getElem.mpr ⟨r', by omega, rfl⟩)
    have above := cut'.above l[r'] (mem_drop_iff_getElem.mpr ⟨0, by omega, by simp⟩)
    exact absurd below (not_lt_of_ge above)
  exact le_antisymm (least cut cut') (least cut' cut)

theorem Cut.insert_sorted (sorted : l.Pairwise (· < ·)) (new : k ∉ l) :
    (l.take r ++ k :: l.drop r).Pairwise (· < ·) := by
  have parts := sorted
  rw [← take_append_drop r l] at parts
  obtain ⟨sortedL, sortedR, _⟩ := pairwise_append.mp parts
  have high : ∀ v ∈ l.drop r, k < v := fun v member => by
    refine lt_of_le_of_ne (cut.above v member) fun same => ?_
    exact new (same ▸ mem_of_mem_drop member)
  refine pairwise_append.mpr ⟨sortedL, pairwise_cons.mpr ⟨high, sortedR⟩, fun u low v later => ?_⟩
  rcases mem_cons.mp later with rfl | later
  · exact cut.below u low
  · exact (cut.below u low).trans (high v later)

end Cut

theorem Cut.mem_iff {l : List Nat} {k r : Nat} (cut : Cut l k r) (sorted : l.Pairwise (· < ·)) :
    (r < l.length ∧ l.getD r 0 = k) ↔ k ∈ l := by
  rw [← cut.getElem?_iff sorted]
  constructor
  · rintro ⟨inside, rfl⟩
    rw [getD_eq_getElem _ _ inside, getElem?_eq_getElem inside]
  · intro here
    obtain ⟨inside, same⟩ := List.getElem?_eq_some_iff.mp here
    exact ⟨inside, by rw [getD_eq_getElem _ _ inside, same]⟩

end DynaJS.Search
