import Mathlib.Tactic

/-! Binary heaps in an array: what the order looks like while an element is on its way
and its place is a hole. -/
namespace DynaJS.Heap

open Function Multiset Equiv

variable {A K : Type} [LinearOrder K]

def parent (i : Nat) : Nat := (i - 1) / 2

theorem parent_lt {i : Nat} (h : 0 < i) : parent i < i := by
  unfold parent
  omega

theorem child_of_parent {c i : Nat} (pos : 0 < c) (child : parent c = i) : c = 2 * i + 1 ∨ c = 2 * i + 2 := by
  unfold parent at child
  omega

theorem swap_eq (h : Nat → A) (i j : Nat) : update (update h i (h j)) j (h i) = h ∘ swap i j := by
  funext k
  simp only [comp_apply, swap_apply_def, update_apply]
  split_ifs <;> simp_all

theorem swap_lt {i j k n : Nat} (hi : i < n) (hj : j < n) (hk : k < n) : swap i j k < n := by
  rw [swap_apply_def]
  split_ifs <;> assumption

theorem map_swap (h : Nat → A) {i j n : Nat} (hi : i < n) (hj : j < n) :
    (Multiset.range n).map (h ∘ swap i j) = (Multiset.range n).map h := by
  have permuted : (Multiset.range n).map (swap i j) = Multiset.range n := by
    refine (Multiset.Nodup.ext ((nodup_range _).map (swap i j).injective)
      (nodup_range _)).mpr fun k => ?_
    simp only [mem_map, mem_range]
    constructor
    · rintro ⟨k, hk, rfl⟩
      exact swap_lt hi hj hk
    · intro hk
      exact ⟨swap i j k, swap_lt hi hj hk, swap_apply_self i j k⟩
  rw [← map_map, permuted]

def Ordered (key : A → K) (h : Nat → A) (n : Nat) : Prop := ∀ i, 0 < i → i < n → key (h (parent i)) ≤ key (h i)

theorem Ordered.root {key : A → K} {h : Nat → A} {n : Nat} (o : Ordered key h n) (i : Nat)
    (inside : i < n) : key (h 0) ≤ key (h i) := by
  induction i using Nat.strongRecOn with
  | ind i ih =>
    rcases Nat.eq_zero_or_pos i with rfl | pos
    · exact le_refl _
    · exact (ih (parent i) (parent_lt pos) ((parent_lt pos).trans inside)).trans (o i pos inside)

/-- The order away from the hole, and past it. -/
structure Holed (key : A → K) (h : Nat → A) (n hole : Nat) : Prop where
  off : ∀ i, 0 < i → i < n → i ≠ hole → parent i ≠ hole → key (h (parent i)) ≤ key (h i)
  grand : 0 < hole → ∀ c, 0 < c → c < n → parent c = hole → key (h (parent hole)) ≤ key (h c)

/-- The hole can take `v` as far as its children go. -/
structure Up (key : A → K) (h : Nat → A) (n hole : Nat) (v : A) : Prop extends Holed key h n hole where
  below : ∀ c, 0 < c → c < n → parent c = hole → key v ≤ key (h c)

section Moves

variable {key : A → K} {h : Nat → A} {n hole : Nat} {v : A}

theorem Ordered.up (o : Ordered key h n) (i : Nat) : Up key h n i (h i) where
  off := fun j pos inside _ _ => o j pos inside
  grand := fun pos c hc inside child => by
    have above := o c hc inside
    rw [child] at above
    exact (o i pos (by rw [← child]; exact (parent_lt hc).trans inside)).trans above
  below := fun c hc inside child => child ▸ o c hc inside

theorem Ordered.grow (o : Ordered key h n) (v : A) : Up key h (n + 1) n v where
  off := fun i pos inside last _ => o i pos (by omega)
  grand := fun _ c pos inside child => by
    have := parent_lt pos
    omega
  below := fun c pos inside child => by
    have := parent_lt pos
    omega

theorem Up.move (u : Up key h n hole v) (pos : 0 < hole) (inside : hole < n) (less : key v < key (h (parent hole))) :
    Up key (update h hole (h (parent hole))) n (parent hole) v := by
  have upper := parent_lt pos
  have above : 0 < parent hole → key (h (parent (parent hole))) ≤ key (h (parent hole)) := fun top =>
    u.off (parent hole) top (by omega) (by omega) (by have := parent_lt top; omega)
  refine ⟨⟨fun i hi bound other child => ?_, fun top c hc bound child => ?_⟩, fun c hc bound child => ?_⟩
  · have here : i ≠ hole := fun same => child (by rw [same])
    rw [update_of_ne here]
    by_cases under : parent i = hole
    · rw [under, update_self]
      exact u.grand pos i hi bound under
    · rw [update_of_ne under]
      exact u.off i hi bound here under
  · have far : parent (parent hole) ≠ hole := by
      have := parent_lt top
      omega
    rw [update_of_ne far]
    by_cases here : c = hole
    · subst here
      rw [update_self]
      exact above top
    · rw [update_of_ne here]
      have edge := u.off c hc bound here (by omega)
      rw [child] at edge
      exact (above top).trans edge
  · by_cases here : c = hole
    · subst here
      rw [update_self]
      exact less.le
    · rw [update_of_ne here]
      have edge := u.off c hc bound here (by omega)
      rw [child] at edge
      exact less.le.trans edge

theorem Up.finish (u : Up key h n hole v) (stop : 0 < hole → key (h (parent hole)) ≤ key v) :
    Ordered key (update h hole v) n := by
  intro i hi bound
  by_cases here : i = hole
  · subst here
    have far : parent i ≠ i := by
      have := parent_lt hi
      omega
    rw [update_self, update_of_ne far]
    exact stop hi
  · rw [update_of_ne here]
    by_cases under : parent i = hole
    · rw [under, update_self]
      exact u.below i hi bound under
    · rw [update_of_ne under]
      exact u.off i hi bound here under

theorem Up.rest (u : Up key h n hole (h hole)) (stop : 0 < hole → key (h (parent hole)) ≤ key (h hole)) :
    Ordered key h n := by
  have order := u.finish stop
  rwa [update_eq_self] at order

theorem Holed.refill (d : Holed key h n hole) (v : A) : Holed key (update h hole v) n hole where
  off := fun i hi bound here under => by
    rw [update_of_ne here, update_of_ne under]
    exact d.off i hi bound here under
  grand := fun pos c hc bound child => by
    have upper := parent_lt pos
    have lower := parent_lt hc
    rw [update_of_ne (by omega), update_of_ne (by omega)]
    exact d.grand pos c hc bound child

theorem Up.fill (u : Up key h n hole v) : Up key (update h hole v) n hole v where
  toHoled := u.toHoled.refill v
  below := fun c hc bound child => by
    have lower := parent_lt hc
    rw [update_of_ne (by omega)]
    exact u.below c hc bound child

theorem Ordered.raise (o : Ordered key h n) (key' : A → K) {i : Nat}
    (same : ∀ j, j < n → j ≠ i → key' (h j) = key (h j)) (grew : key (h i) ≤ key' (h i)) (inside : i < n) :
    Holed key' h n i ∧ (0 < i → key' (h (parent i)) ≤ key' (h i)) := by
  refine ⟨⟨fun j pos bound other under => ?_, fun pos c hc bound child => ?_⟩, fun pos => ?_⟩
  · have upper := parent_lt pos
    rw [same j bound other, same (parent j) (by omega) under]
    exact o j pos bound
  · have upper := parent_lt pos
    have lower := parent_lt hc
    rw [same c bound (by omega), same (parent i) (by omega) (by omega)]
    have edge := o c hc bound
    rw [child] at edge
    exact (o i pos inside).trans edge
  · have upper := parent_lt pos
    rw [same (parent i) (by omega) (by omega)]
    exact (o i pos inside).trans grew

theorem Holed.move (d : Holed key h n hole) {m : Nat} (pos : 0 < m) (inside : m < n) (child : parent m = hole)
    (least : ∀ c, 0 < c → c < n → parent c = hole → key (h m) ≤ key (h c)) :
    Holed key (update h hole (h m)) n m := by
  have below := parent_lt pos
  refine ⟨fun i hi bound other far => ?_, fun _ c hc bound under => ?_⟩
  · by_cases here : i = hole
    · have up : parent i ≠ hole := by
        have := parent_lt hi
        omega
      rw [update_of_ne up, here, update_self]
      exact d.grand (here ▸ hi) m pos inside child
    · rw [update_of_ne here]
      by_cases sibling : parent i = hole
      · rw [sibling, update_self]
        exact least i hi bound sibling
      · rw [update_of_ne sibling]
        exact d.off i hi bound here sibling
  · have far := parent_lt hc
    rw [child, update_self, update_of_ne (by omega)]
    have edge := d.off c hc bound (by omega) (by omega)
    rwa [under] at edge

/-- Where a sift of `v` goes on from `i`: the left child if it is smaller, then the right one if it
is smaller still. -/
def child (key : A → K) (h : Nat → A) (n i : Nat) (v : A) : Nat :=
  let m := if 2 * i + 1 < n ∧ key (h (2 * i + 1)) < key v then 2 * i + 1 else i
  if 2 * i + 2 < n ∧ key (h (2 * i + 2)) < key (if m = i then v else h m) then 2 * i + 2 else m

theorem child_self (key : A → K) (h : Nat → A) (n i : Nat) : child key h n i (h i) =
      let m := if 2 * i + 1 < n ∧ key (h (2 * i + 1)) < key (h i) then 2 * i + 1 else i
      if 2 * i + 2 < n ∧ key (h (2 * i + 2)) < key (h m) then 2 * i + 2 else m := by
  have same : ∀ m, (if m = i then h i else h m) = h m := fun m => by
    split_ifs with here
    · rw [here]
    · rfl
  unfold child
  simp only [same]

/-- The child chosen is least and smaller than `v`; otherwise no child is smaller. -/
theorem child_spec (key : A → K) (h : Nat → A) (n i : Nat) (v : A) :
    (child key h n i v = i ∧ ∀ c, 0 < c → c < n → parent c = i → key v ≤ key (h c)) ∨
      (0 < child key h n i v ∧ child key h n i v < n ∧ parent (child key h n i v) = i ∧
        key (h (child key h n i v)) < key v ∧
        ∀ c, 0 < c → c < n → parent c = i → key (h (child key h n i v)) ≤ key (h c)) := by
  have children : ∀ {P : Nat → Prop}, (2 * i + 1 < n → P (2 * i + 1)) → (2 * i + 2 < n → P (2 * i + 2)) →
      ∀ c, 0 < c → c < n → parent c = i → P c := by
    intro P left right c pos inside child
    rcases child_of_parent pos child with rfl | rfl
    · exact left inside
    · exact right inside
  unfold child
  dsimp only
  by_cases goLeft : 2 * i + 1 < n ∧ key (h (2 * i + 1)) < key v
  · rw [if_pos goLeft, if_neg (show ¬2 * i + 1 = i by omega)]
    split_ifs with goRight
    · exact .inr ⟨by omega, goRight.1, by unfold parent; omega, goRight.2.trans goLeft.2,
        children (fun _ => goRight.2.le) fun _ => le_rfl⟩
    · exact .inr ⟨by omega, goLeft.1, by unfold parent; omega, goLeft.2,
        children (fun _ => le_rfl) fun inside => not_lt.mp fun less => goRight ⟨inside, less⟩⟩
  · have left : 2 * i + 1 < n → key v ≤ key (h (2 * i + 1)) := fun inside =>
      not_lt.mp fun less => goLeft ⟨inside, less⟩
    rw [if_neg goLeft, if_pos rfl]
    split_ifs with goRight
    · exact .inr ⟨by omega, goRight.1, by unfold parent; omega, goRight.2,
        children (fun inside => goRight.2.le.trans (left inside)) fun _ => le_rfl⟩
    · exact .inl ⟨rfl, children left fun inside => not_lt.mp fun less => goRight ⟨inside, less⟩⟩

end Moves

end DynaJS.Heap
