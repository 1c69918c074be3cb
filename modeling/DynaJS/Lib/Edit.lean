import Mathlib.Order.Bounds.Basic
import Mathlib.Algebra.BigOperators.Group.List.Basic
import Mathlib.Tactic.Ring

/-! Alignments of two sequences and the edit distance: the least cost of an alignment, its
recurrence, and the table of the distances of all prefixes. -/
namespace DynaJS.Edit

open List Nat

variable {α : Type}

/-- A column of an alignment: an element of each side, or of one side only. -/
inductive Column (α : Type) where
  | both (x y : α)
  | first (x : α)
  | second (y : α)

def Column.left : Column α → Option α
  | .both x _ => some x
  | .first x => some x
  | .second _ => none

def Column.right : Column α → Option α
  | .both _ y => some y
  | .first _ => none
  | .second y => some y

def Column.swap : Column α → Column α
  | .both x y => .both y x
  | .first x => .second x
  | .second y => .first y

structure Aligns (l : List (Column α)) (a b : List α) : Prop where
  left : l.filterMap Column.left = a
  right : l.filterMap Column.right = b

variable {l : List (Column α)} {a b : List α}

theorem Aligns.both (x y : α) (aligns : Aligns l a b) : Aligns (.both x y :: l) (x :: a) (y :: b) :=
  ⟨congrArg (x :: ·) aligns.left, congrArg (y :: ·) aligns.right⟩

theorem Aligns.first (x : α) (aligns : Aligns l a b) : Aligns (.first x :: l) (x :: a) b :=
  ⟨congrArg (x :: ·) aligns.left, aligns.right⟩

theorem Aligns.second (y : α) (aligns : Aligns l a b) : Aligns (.second y :: l) a (y :: b) :=
  ⟨aligns.left, congrArg (y :: ·) aligns.right⟩

theorem Aligns.reverse (aligns : Aligns l a b) : Aligns l.reverse a.reverse b.reverse :=
  ⟨by rw [filterMap_reverse, aligns.left], by rw [filterMap_reverse, aligns.right]⟩

theorem Aligns.swap (aligns : Aligns l a b) : Aligns (l.map Column.swap) b a := by
  constructor
  · rw [filterMap_map, ← aligns.right]
    exact filterMap_congr fun c _ => by cases c <;> rfl
  · rw [filterMap_map, ← aligns.left]
    exact filterMap_congr fun c _ => by cases c <;> rfl

section Distance

variable [DecidableEq α]

def Column.cost : Column α → Nat
  | .both x y => if x = y then 0 else 1
  | .first _ => 1
  | .second _ => 1

def cost (l : List (Column α)) : Nat := (l.map Column.cost).sum

def distance : List α → List α → Nat
  | [], b => b.length
  | x :: a, [] => (x :: a).length
  | x :: a, y :: b =>
    min (min (distance a (y :: b) + 1) (distance (x :: a) b + 1)) (distance a b + if x = y then 0 else 1)

theorem distance_nil (a : List α) : distance a [] = a.length := by
  cases a <;> simp [distance]

theorem distance_first (x : α) (a b : List α) : distance (x :: a) b ≤ distance a b + 1 := by
  cases b with
  | nil => rw [distance_nil, distance_nil, length_cons]
  | cons y b =>
    rw [distance]
    exact le_trans (min_le_left _ _) (min_le_left _ _)

theorem distance_second (a : List α) (y : α) (b : List α) : distance a (y :: b) ≤ distance a b + 1 := by
  cases a with
  | nil => rw [distance, distance, length_cons]
  | cons x a =>
    rw [distance]
    exact le_trans (min_le_left _ _) (min_le_right _ _)

theorem cost_cons (c : Column α) (l : List (Column α)) : cost (c :: l) = c.cost + cost l := by
  rw [cost, map_cons, sum_cons, ← cost]

theorem cost_swap (l : List (Column α)) : cost (l.map Column.swap) = cost l := by
  rw [cost, map_map]
  congr 1
  refine map_congr_left fun c _ => ?_
  cases c with
  | both x y =>
    change (if y = x then 0 else 1) = if x = y then 0 else 1
    by_cases same : x = y
    · rw [if_pos same, if_pos same.symm]
    · rw [if_neg same, if_neg (Ne.symm same)]
  | first x => rfl
  | second y => rfl

theorem cost_reverse (l : List (Column α)) : cost l.reverse = cost l := by
  rw [cost, cost, map_reverse, sum_reverse]

theorem aligns_nil_right (a : List α) : Aligns (a.map Column.first) a [] ∧ cost (a.map Column.first) = a.length := by
  induction a with
  | nil => exact ⟨⟨rfl, rfl⟩, rfl⟩
  | cons x a ih =>
    refine ⟨ih.1.first x, ?_⟩
    rw [map_cons, cost_cons, ih.2, length_cons, Column.cost, add_comm]

theorem exists_alignment (a b : List α) : ∃ l, Aligns l a b ∧ cost l = distance a b := by
  fun_induction distance a b with
  | case1 b =>
    obtain ⟨aligns, price⟩ := aligns_nil_right b
    exact ⟨_, aligns.swap, (cost_swap _).trans price⟩
  | case2 x a =>
    obtain ⟨aligns, price⟩ := aligns_nil_right (x :: a)
    exact ⟨_, aligns, price⟩
  | case3 x a y b deleted inserted kept =>
    obtain ⟨l₁, aligns₁, cost₁⟩ := deleted
    obtain ⟨l₂, aligns₂, cost₂⟩ := inserted
    obtain ⟨l₃, aligns₃, cost₃⟩ := kept
    rcases min_choice (min (distance a (y :: b) + 1) (distance (x :: a) b + 1))
      (distance a b + if x = y then 0 else 1) with
      least | least
    · rw [least]
      rcases min_choice (distance a (y :: b) + 1) (distance (x :: a) b + 1) with low | low
      · refine ⟨_, aligns₁.first x, ?_⟩
        rw [low, cost_cons, cost₁, Column.cost, add_comm]
      · refine ⟨_, aligns₂.second y, ?_⟩
        rw [low, cost_cons, cost₂, Column.cost, add_comm]
    · refine ⟨_, aligns₃.both x y, ?_⟩
      rw [least, cost_cons, cost₃, Column.cost, add_comm]

/-- The distance is a lower bound for all alignments. The induction is on the alignment. -/
theorem distance_le_cost {l : List (Column α)} {a b : List α} (aligns : Aligns l a b) : distance a b ≤ cost l := by
  induction l generalizing a b with
  | nil =>
    rw [← aligns.left, ← aligns.right, filterMap_nil, distance]
    exact zero_le _
  | cons c l ih =>
    have rest := ih ⟨rfl, rfl⟩
    rw [cost_cons, ← aligns.left, ← aligns.right]
    cases c with
    | both x y =>
      change distance (x :: _) (y :: _) ≤ _
      rw [distance, Column.cost]
      omega
    | first x =>
      have bound := distance_first x (l.filterMap Column.left) (l.filterMap Column.right)
      change distance (x :: _) (l.filterMap Column.right) ≤ 1 + _
      omega
    | second y =>
      have bound := distance_second (l.filterMap Column.left) y (l.filterMap Column.right)
      change distance (l.filterMap Column.left) (y :: _) ≤ 1 + _
      omega

theorem distance_reverse (a b : List α) : distance a.reverse b.reverse = distance a b := by
  have le : ∀ a b : List α, distance a.reverse b.reverse ≤ distance a b := by
    intro a b
    obtain ⟨l, aligns, price⟩ := exists_alignment a b
    rw [← price, ← cost_reverse]
    exact distance_le_cost aligns.reverse
  refine le_antisymm (le a b) ?_
  have back := le a.reverse b.reverse
  rwa [reverse_reverse, reverse_reverse] at back

theorem distance_comm (a b : List α) : distance a b = distance b a := by
  have le : ∀ a b : List α, distance b a ≤ distance a b := by
    intro a b
    obtain ⟨l, aligns, price⟩ := exists_alignment a b
    rw [← price, ← cost_swap]
    exact distance_le_cost aligns.swap
  exact le_antisymm (le b a) (le a b)

theorem distance_map {β : Type} [DecidableEq β] {f : α → β} (inj : Function.Injective f) (a b : List α) :
    distance (a.map f) (b.map f) = distance a b := by
  fun_induction distance a b with
  | case1 b => rw [map_nil, distance, length_map]
  | case2 x a => rw [map_nil, distance_nil, length_map]
  | case3 x a y b one two three =>
    rw [map_cons, map_cons] at *
    rw [distance, one, two, three]
    congr 2
    exact if_congr inj.eq_iff rfl rfl

theorem distance_le_max (a b : List α) : distance a b ≤ max a.length b.length := by
  fun_induction distance a b with
  | case1 b => exact le_max_right _ _
  | case2 x a => exact le_max_left _ _
  | case3 x a y b one two three =>
    rw [length_cons, length_cons] at *
    split <;> omega

theorem length_le_distance (a b : List α) : b.length ≤ distance a b + a.length := by
  fun_induction distance a b with
  | case1 b => exact le_add_right _ _
  | case2 x a => exact zero_le _
  | case3 x a y b one two three =>
    rw [length_cons, length_cons] at *
    split <;> omega

end Distance

section Table

def table (differ : Nat → Nat → Bool) : Nat → Nat → Nat
  | 0, j => j
  | i + 1, 0 => i + 1
  | i + 1, j + 1 =>
    min (min (table differ i (j + 1) + 1) (table differ (i + 1) j + 1)) (table differ i j + if differ i j then 1 else 0)

variable (differ : Nat → Nat → Bool)

theorem table_zero (j : Nat) : table differ 0 j = j := by rw [table]

theorem table_side (i : Nat) : table differ i 0 = i := by
  cases i <;> rw [table]

variable (i j : Nat)

theorem table_down : table differ (i + 1) j ≤ table differ i j + 1 := by
  cases j with
  | zero => rw [table_side, table_side]
  | succ j =>
    rw [table]
    exact le_trans (min_le_left _ _) (min_le_left _ _)

theorem table_across : table differ i (j + 1) ≤ table differ i j + 1 := by
  cases i with
  | zero => rw [table_zero, table_zero]
  | succ i =>
    rw [table]
    exact le_trans (min_le_left _ _) (min_le_right _ _)

theorem table_up : table differ i j ≤ table differ (i + 1) j + 1 := by
  induction j with
  | zero =>
    rw [table_side, table_side]
    omega
  | succ j ih =>
    have across := table_across differ i j
    rw [table]
    omega

theorem table_back : table differ i j ≤ table differ i (j + 1) + 1 := by
  induction i with
  | zero =>
    rw [table_zero, table_zero]
    omega
  | succ i ih =>
    have down := table_down differ i j
    rw [table]
    omega

theorem table_steps : table differ (i + 1) j ≤ table differ i j + 1 ∧ table differ i j ≤ table differ (i + 1) j + 1 ∧
      table differ i (j + 1) ≤ table differ i j + 1 ∧ table differ i j ≤ table differ i (j + 1) + 1 :=
  ⟨table_down differ i j, table_up differ i j, table_across differ i j, table_back differ i j⟩

theorem table_succ : table differ (i + 1) (j + 1) =
    min (min (table differ i (j + 1) + 1) (table differ (i + 1) j + 1))
      (table differ i j + if differ i j then 1 else 0) := by
  rw [table]

theorem table_lower : i ≤ table differ i j + j ∧ j ≤ table differ i j + i := by
  fun_induction table differ i j with
  | case1 j => omega
  | case2 i => omega
  | case3 i j one two three => split <;> omega

theorem table_upper : table differ i j ≤ max i j := by
  fun_induction table differ i j with
  | case1 j => omega
  | case2 i => omega
  | case3 i j one two three => split <;> omega

theorem table_eq [DecidableEq α] (a b : List α) {i j : Nat} (hi : i ≤ a.length) (hj : j ≤ b.length) :
    table (fun i j => a[i]? != b[j]?) i j = distance (a.take i) (b.take j) := by
  rw [← distance_reverse]
  fun_induction table (fun i j => a[i]? != b[j]?) i j with
  | case1 j => rw [take_zero, reverse_nil, distance, length_reverse, length_take, min_eq_left hj]
  | case2 i => rw [take_zero, reverse_nil, distance_nil, length_reverse, length_take, min_eq_left hi]
  | case3 i j one two three =>
    have first : (a.take (i + 1)).reverse = a[i] :: (a.take i).reverse := by
      rw [take_succ_eq_append_getElem hi, reverse_append, reverse_singleton, singleton_append]
    have second : (b.take (j + 1)).reverse = b[j] :: (b.take j).reverse := by
      rw [take_succ_eq_append_getElem hj, reverse_append, reverse_singleton, singleton_append]
    rw [first, second, distance, ← first, ← second, one (by omega) hj, two hi (by omega), three (by omega) (by omega)]
    congr 2
    rw [List.getElem?_eq_getElem hi, List.getElem?_eq_getElem hj]
    by_cases same : a[i] = b[j]
    · simp [same]
    · simp [same]

end Table

end DynaJS.Edit
