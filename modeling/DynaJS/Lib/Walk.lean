import Mathlib.Algebra.Order.Group.Defs
import Mathlib.Algebra.Order.Monoid.WithTop
import Mathlib.Data.List.Nodup
import Mathlib.Data.List.Perm.Subperm
import Mathlib.Tactic.Abel

/-! Walks in a weighted directed graph, shortest distances, and what removing closed walks
does to them. -/
namespace DynaJS.Walks

open List WithTop

variable {V K : Type} [AddCommGroup K]

inductive Walk (E : V → V → K → Prop) : V → V → List V → K → Prop
  | nil (u : V) : Walk E u u [] 0
  | cons {u x v : V} {w c : K} {l : List V} : E u x w → Walk E x v l c → Walk E u v (x :: l) (w + c)

variable {E : V → V → K → Prop} {u v x : V} {l l' : List V} {c c' w : K}

theorem Walk.append (first : Walk E u x l c) (second : Walk E x v l' c') : Walk E u v (l ++ l') (c + c') := by
  induction first with
  | nil => rwa [zero_add]
  | cons edge _ ih =>
    rw [add_assoc]
    exact .cons edge (ih second)

theorem Walk.single (edge : E u v w) : Walk E u v [v] w := by
  have walk := Walk.cons edge (.nil v)
  rwa [add_zero] at walk

theorem Walk.snoc (walk : Walk E u x l c) (edge : E x v w) : Walk E u v (l ++ [v]) (c + w) :=
  walk.append (.single edge)

theorem Walk.split (walk : Walk E u v (l ++ l') c) : ∃ x c₁ c₂, Walk E u x l c₁ ∧ Walk E x v l' c₂ ∧ c = c₁ + c₂ := by
  induction l generalizing u c with
  | nil => exact ⟨u, 0, c, .nil u, walk, (zero_add c).symm⟩
  | cons y l ih =>
    cases walk with
    | cons edge rest =>
      obtain ⟨x, c₁, c₂, first, second, rfl⟩ := ih rest
      exact ⟨x, _, c₂, .cons edge first, second, (add_assoc _ _ _).symm⟩

theorem Walk.last (walk : Walk E u x (l ++ [v]) c) : x = v := by
  induction l generalizing u c with
  | nil =>
    cases walk with
    | cons edge rest =>
      cases rest
      rfl
  | cons y l ih =>
    cases walk with
    | cons edge rest => exact ih rest

theorem Walk.nil_eq (walk : Walk E u v [] c) : u = v ∧ c = 0 := by
  cases walk
  exact ⟨rfl, rfl⟩

theorem Walk.split_at (walk : Walk E u v (l ++ x :: l') c) :
    ∃ c₁ c₂, Walk E u x (l ++ [x]) c₁ ∧ Walk E x v l' c₂ ∧ c = c₁ + c₂ := by
  rw [append_cons] at walk
  obtain ⟨y, c₁, c₂, first, second, sum⟩ := walk.split
  obtain rfl := first.last
  exact ⟨c₁, c₂, first, second, sum⟩

theorem Walk.snoc_inv (walk : Walk E u v (l ++ [x]) c) : ∃ y c₁ w, Walk E u y l c₁ ∧ E y v w ∧ c = c₁ + w := by
  obtain ⟨y, c₁, c₂, first, second, sum⟩ := walk.split
  cases second with
  | cons edge rest =>
    cases rest
    exact ⟨y, c₁, _, first, edge, by rw [sum, add_zero]⟩

theorem Walk.inside {P : V → Prop} (walk : Walk E u v l c) (ends : ∀ u v w, E u v w → P v) : ∀ y ∈ l, P y := by
  induction walk with
  | nil => exact forall_mem_nil _
  | cons edge _ ih =>
    intro y member
    rcases mem_cons.mp member with rfl | member
    · exact ends _ _ _ edge
    · exact ih y member

section Order

variable [LinearOrder K] [IsOrderedAddMonoid K]

structure Shortest (E : V → V → K → Prop) (u v : V) (d : WithTop K) : Prop where
  lower : ∀ l c, Walk E u v l c → d ≤ c
  attained : ∀ c : K, d = c → ∃ l, Walk E u v l c

omit [IsOrderedAddMonoid K] in
def NoNegative (E : V → V → K → Prop) (u : V) : Prop := ∀ x l c l' c', Walk E u x l c → Walk E x x l' c' → 0 ≤ c'

omit [IsOrderedAddMonoid K] in
theorem NoNegative.step (none : NoNegative E u) (edge : E u x w) : NoNegative E x := by
  intro y l c l' c' walk closed
  exact none y _ _ l' c' (.cons edge walk) closed

/-- Without negative closed walks, a walk is no better than one that visits no vertex twice. The
walk is cut at its returns to the first vertex. -/
theorem Walk.simple (none : NoNegative E u) (walk : Walk E u v l c) :
    ∃ l' c', Walk E u v l' c' ∧ (u :: l').Nodup ∧ l' ⊆ l ∧ c' ≤ c := by
  classical
  generalize size : l.length = n
  induction n using Nat.strongRecOn generalizing u l c with
  | ind n ih =>
    by_cases returns : u ∈ l
    · obtain ⟨p, q, rfl⟩ := append_of_mem returns
      obtain ⟨c₁, c₂, closed, rest, rfl⟩ := walk.split_at
      rw [length_append, length_cons] at size
      obtain ⟨l', c', walk', nodup, sub, le⟩ := ih q.length (by omega) none rest rfl
      refine ⟨l', c', walk', nodup, fun y member => ?_, ?_⟩
      · exact mem_append_right _ (mem_cons_of_mem _ (sub member))
      · have positive := none u [] 0 _ c₁ (.nil u) closed
        exact le.trans (le_add_of_nonneg_left positive)
    · cases walk with
      | nil => exact ⟨[], 0, .nil _, nodup_singleton _, List.Subset.refl _, le_rfl⟩
      | cons edge rest =>
        rename_i y w c l
        rw [length_cons] at size
        obtain ⟨l', c', walk', nodup, sub, le⟩ := ih l.length (by omega) (none.step edge) rest rfl
        have subset : y :: l' ⊆ y :: l := cons_subset_cons y sub
        exact ⟨y :: l', _, .cons edge walk', nodup_cons.mpr ⟨fun member => returns (subset member), nodup⟩, subset,
          add_le_add_right le w⟩

omit [AddCommGroup K] [LinearOrder K] [IsOrderedAddMonoid K] in
theorem exists_repeat {l : List V} (repeats : ¬l.Nodup) : ∃ y p q r, l = p ++ y :: (q ++ y :: r) := by
  classical
  induction l with
  | nil => exact absurd nodup_nil repeats
  | cons a l ih =>
    by_cases again : a ∈ l
    · obtain ⟨q, r, rfl⟩ := append_of_mem again
      exact ⟨a, [], q, r, rfl⟩
    · obtain ⟨y, p, q, r, rfl⟩ := ih fun nodup => repeats (nodup_cons.mpr ⟨again, nodup⟩)
      exact ⟨y, a :: p, q, r, rfl⟩

/-- A negative closed walk contains one that visits no vertex twice: of the two parts that a
repeated vertex cuts off, one is negative. -/
theorem Walk.negative_simple (walk : Walk E x x l c) (negative : c < 0) :
    ∃ y l' c', Walk E y y l' c' ∧ l'.Nodup ∧ c' < 0 := by
  generalize size : l.length = n
  induction n using Nat.strongRecOn generalizing x l c with
  | ind n ih =>
    by_cases simple : l.Nodup
    · exact ⟨x, l, c, walk, simple, negative⟩
    obtain ⟨y, p, q, r, rfl⟩ := exists_repeat simple
    obtain ⟨c₁, c₂, first, rest, rfl⟩ := walk.split_at
    obtain ⟨c₃, c₄, inner, second, rfl⟩ := rest.split_at
    simp only [length_append, length_cons] at size
    by_cases below : c₃ < 0
    · refine ih (q ++ [y]).length ?_ inner below rfl
      rw [length_append, length_singleton]
      omega
    · have outer : c₁ + c₄ < 0 := by
        have order : c₁ + c₄ ≤ c₁ + (c₃ + c₄) := by
          rw [add_left_comm]
          exact le_add_of_nonneg_left (not_lt.mp below)
        exact lt_of_le_of_lt order negative
      refine ih (p ++ [y] ++ r).length ?_ (first.append second) outer rfl
      simp only [length_append, length_singleton]
      omega

theorem Walk.bounded {d : V → WithTop K} (stable : ∀ u v w, E u v w → d v ≤ d u + w) (walk : Walk E u v l c) :
    d v ≤ d u + c := by
  induction walk with
  | nil => rw [coe_zero, add_zero]
  | cons edge _ ih =>
    rw [coe_add, ← add_assoc]
    exact ih.trans (add_le_add_left (stable _ _ _ edge) _)

/-- A finite distance that no edge improves rules out negative closed walks. -/
theorem noNegative_of_stable {d : V → WithTop K} (stable : ∀ u v w, E u v w → d v ≤ d u + w) (finite : d u ≠ ⊤) :
    NoNegative E u := by
  intro x l c l' c' walk closed
  have reached : d x ≠ ⊤ := by
    have bound := walk.bounded stable
    exact ne_top_of_le_ne_top (add_ne_top.mpr ⟨finite, coe_ne_top⟩) bound
  obtain ⟨a, value⟩ := ne_top_iff_exists.mp reached
  have bound := closed.bounded stable
  rw [← value, ← coe_add, coe_le_coe] at bound
  exact nonneg_of_le_add_right bound

theorem Walk.nonneg (positive : ∀ u v w, E u v w → 0 ≤ w) (walk : Walk E u v l c) : 0 ≤ c := by
  induction walk with
  | nil => exact le_rfl
  | cons edge _ ih => exact add_nonneg (positive _ _ _ edge) ih

end Order

end DynaJS.Walks
