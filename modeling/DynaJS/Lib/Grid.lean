import Mathlib.Data.List.Basic
import Mathlib.Order.Bounds.Basic

/-! Paths in a grid that step right, down or, where a cell is open, along its diagonal: how many
of their steps are no diagonals. A cell is open where two sequences agree, so that the fewest
steps are what their longest common subsequence leaves over. -/
namespace DynaJS.Grid

open List

/-- The fewest steps from the corner `(0, 0)`, diagonals not counted. -/
def edits (ok : Nat → Nat → Bool) : Nat → Nat → Nat
  | 0, y => y
  | x + 1, 0 => x + 1
  | x + 1, y + 1 => if ok x y then edits ok x y else 1 + min (edits ok x (y + 1)) (edits ok (x + 1) y)

section Steps

variable {ok : Nat → Nat → Bool}

theorem edits_top (y : Nat) : edits ok 0 y = y := by rw [edits]

theorem edits_side (x : Nat) : edits ok x 0 = x := by
  cases x <;> rw [edits]

variable {x y : Nat}

theorem edits_open (free : ok x y = true) : edits ok (x + 1) (y + 1) = edits ok x y := by
  rw [edits, if_pos free]

theorem edits_shut (shut : ok x y = false) :
    edits ok (x + 1) (y + 1) = 1 + min (edits ok x (y + 1)) (edits ok (x + 1) y) := by
  rw [edits, shut, if_neg Bool.false_ne_true]

theorem edits_congr {ok' : Nat → Nat → Bool} (same : ∀ i j, i < x → j < y → ok i j = ok' i j) :
    edits ok x y = edits ok' x y := by
  induction x generalizing y with
  | zero => rw [edits_top, edits_top]
  | succ x ihx =>
    induction y with
    | zero => rw [edits_side, edits_side]
    | succ y ihy =>
      rw [edits, edits, same x y (by omega) (by omega), ihx fun i j hi hj => same i j (by omega) (by omega),
        ihx fun i j hi hj => same i j (by omega) (by omega), ihy fun i j hi hj => same i j (by omega) (by omega)]

/-- The same grid with its sides exchanged. -/
theorem edits_flip (ok : Nat → Nat → Bool) (x y : Nat) : edits (fun i j => ok j i) y x = edits ok x y := by
  fun_induction edits ok x y with
  | case1 y => exact edits_side y
  | case2 x => exact edits_top (x + 1)
  | case3 x y free ih => rw [edits, if_pos free, ih]
  | case4 x y shut ihx ihy => rw [edits, if_neg shut, ihx, ihy, Nat.min_comm]

theorem edits_near (ok : Nat → Nat → Bool) (x y : Nat) :
    (edits ok (x + 1) y ≤ edits ok x y + 1 ∧ edits ok x y ≤ edits ok (x + 1) y + 1) ∧
      (edits ok x (y + 1) ≤ edits ok x y + 1 ∧ edits ok x y ≤ edits ok x (y + 1) + 1) := by
  induction size : x + y using Nat.strongRecOn generalizing ok x y with
  | ind s ih =>
    have right : ∀ (ok : Nat → Nat → Bool) x y, x + y = s →
        edits ok (x + 1) y ≤ edits ok x y + 1 ∧ edits ok x y ≤ edits ok (x + 1) y + 1 := fun ok x y sum => by
      cases y with
      | zero =>
        rw [edits_side, edits_side]
        omega
      | succ y =>
        have near := ih (x + y) (by omega) ok x y rfl
        cases free : ok x y with
        | true =>
          rw [edits_open free]
          omega
        | false =>
          rw [edits_shut free]
          omega
    have down := right (fun i j => ok j i) y x (by omega)
    rw [edits_flip ok x, edits_flip ok x] at down
    exact ⟨right ok x y size, down⟩

theorem edits_diagonal (x y : Nat) : edits ok x y ≤ edits ok (x + 1) (y + 1) := by
  have near := edits_near ok x y
  cases free : ok x y with
  | true => rw [edits_open free]
  | false =>
    rw [edits_shut free]
    omega

theorem edits_along (ok : Nat → Nat → Bool) (x y t : Nat) : edits ok x y ≤ edits ok (x + t) (y + t) := by
  induction t with
  | zero => exact le_rfl
  | succ t ih => exact ih.trans (edits_diagonal (x + t) (y + t))

theorem edits_slide {x y t : Nat} (free : ∀ i, i < t → ok (x + i) (y + i) = true) :
    edits ok (x + t) (y + t) = edits ok x y := by
  induction t with
  | zero => rfl
  | succ t ih =>
    rw [← ih fun i hi => free i (by omega)]
    exact edits_open (free t (by omega))

theorem edits_bounds (ok : Nat → Nat → Bool) (x y : Nat) : x ≤ y + edits ok x y ∧ y ≤ x + edits ok x y ∧
    edits ok x y ≤ x + y := by
  fun_induction edits ok x y with
  | case1 y => omega
  | case2 x => omega
  | case3 x y free ih => omega
  | case4 x y shut ihx ihy => omega

theorem edits_parity (ok : Nat → Nat → Bool) (x y : Nat) : edits ok x y % 2 = (x + y) % 2 := by
  fun_induction edits ok x y with
  | case1 y => omega
  | case2 x => omega
  | case3 x y free ih => omega
  | case4 x y shut ihx ihy => omega

theorem edits_closed (shut : ∀ i j, i < x → j < y → ok i j = false) : edits ok x y = x + y := by
  have none : edits ok x y = edits (fun _ _ => false) x y := edits_congr shut
  rw [none]
  clear none shut
  induction x generalizing y with
  | zero => rw [edits_top, Nat.zero_add]
  | succ x ihx =>
    induction y with
    | zero => rw [edits_side]
    | succ y ihy =>
      rw [edits_shut rfl, ihx]
      omega

theorem open_of_edits_zero (zero : edits ok (x + 1) (y + 1) = 0) : ok 0 0 = true ∧ ok x y = true := by
  induction x generalizing y with
  | zero =>
    cases free : ok 0 y with
    | false =>
      rw [edits_shut free] at zero
      omega
    | true =>
      rw [edits_open free, edits_top] at zero
      subst zero
      exact ⟨free, rfl⟩
  | succ x ih =>
    cases free : ok (x + 1) y with
    | false =>
      rw [edits_shut free] at zero
      omega
    | true =>
      rw [edits_open free] at zero
      cases y with
      | zero =>
        rw [edits_side] at zero
        omega
      | succ y => exact ⟨(ih zero).1, rfl⟩

theorem edits_right {x y t : Nat} (shut : ∀ i j, x ≤ i → ok i j = false) : edits ok (x + t) y = edits ok x y + t := by
  have one : ∀ x', x ≤ x' → ∀ y, edits ok (x' + 1) y = edits ok x' y + 1 := by
    intro x' hx y
    induction y with
    | zero => rw [edits_side, edits_side]
    | succ y ih =>
      have near := edits_near ok x' y
      rw [edits_shut (shut x' y hx)]
      omega
  induction t with
  | zero => rfl
  | succ t ih =>
    rw [← Nat.add_assoc, one (x + t) (by omega)]
    omega

theorem edits_down {x y t : Nat} (shut : ∀ i j, y ≤ j → ok i j = false) : edits ok x (y + t) = edits ok x y + t := by
  have right := @edits_right (fun i j => ok j i) y x t fun i j low => shut j i low
  rwa [edits_flip ok x, edits_flip ok x] at right

end Steps

section Furthest

/-- The last point of a diagonal that a number of steps reaches. -/
def Furthest (ok : Nat → Nat → Bool) (d : Nat) (k x : Int) : Prop :=
  ∃ p q : Nat, x = p ∧ k = (p : Int) - q ∧ edits ok p q ≤ d ∧ d < edits ok (p + 1) (q + 1)

variable {ok : Nat → Nat → Bool} {d : Nat} {k x : Int}

theorem Furthest.within (far : Furthest ok d k x) {p q : Nat} (on : k = (p : Int) - q) (low : (p : Int) ≤ x) :
    edits ok p q ≤ d := by
  obtain ⟨p', q', rfl, rfl, reached, -⟩ := far
  have along := edits_along ok p q (p' - p)
  rw [show p + (p' - p) = p' by omega, show q + (p' - p) = q' by omega] at along
  exact along.trans reached

theorem Furthest.beyond (far : Furthest ok d k x) {p q : Nat} (on : k = (p : Int) - q) (high : x < p) :
    d < edits ok p q := by
  obtain ⟨p', q', rfl, rfl, -, passed⟩ := far
  have along := edits_along ok (p' + 1) (q' + 1) (p - (p' + 1))
  rw [show p' + 1 + (p - (p' + 1)) = p by omega, show q' + 1 + (p - (p' + 1)) = q by omega] at along
  exact passed.trans_le along

/-- A shut cell ends the diagonal when both neighbours take as many steps. -/
theorem furthest_of_shut {p q : Nat} (reached : edits ok p q ≤ d) (shut : ok p q = false)
    (below : d ≤ edits ok p (q + 1))
    (beside : d ≤ edits ok (p + 1) q) : Furthest ok d ((p : Int) - q) p := by
  refine ⟨p, q, rfl, rfl, reached, ?_⟩
  rw [edits_shut shut]
  omega

end Furthest

section Box

def Mirror (ok ok' : Nat → Nat → Bool) (n m : Nat) : Prop :=
  ∀ x y, x < n → y < m → ok x y = ok' (n - 1 - x) (m - 1 - y)

def Boxed (ok : Nat → Nat → Bool) (n m : Nat) : Prop := ∀ x y, ok x y = true → x < n ∧ y < m

variable {ok ok' : Nat → Nat → Bool} {n m : Nat}

section

variable (mirror : Mirror ok ok' n m)
include mirror

theorem Mirror.symm : Mirror ok' ok n m := by
  intro x y hx hy
  rw [mirror (n - 1 - x) (m - 1 - y) (by omega) (by omega), show n - 1 - (n - 1 - x) = x by omega,
    show m - 1 - (m - 1 - y) = y by omega]

theorem Mirror.through {i j : Nat} (hi : i ≤ n) (hj : j ≤ m) :
    edits ok n m ≤ edits ok (n - i) (m - j) + edits ok' i j := by
  induction i generalizing j with
  | zero =>
    rw [edits_top, Nat.sub_zero]
    induction j with
    | zero => exact le_rfl
    | succ j ih =>
      have before := ih (by omega)
      have near := (edits_near ok n (m - (j + 1))).2.1
      rw [show m - (j + 1) + 1 = m - j by omega] at near
      exact before.trans (by omega)
  | succ i ihi =>
    induction j with
    | zero =>
      have before := ihi (by omega) (by omega)
      have near := (edits_near ok (n - (i + 1)) (m - 0)).1.1
      rw [show n - (i + 1) + 1 = n - i by omega] at near
      rw [edits_side] at before ⊢
      omega
    | succ j ihj =>
      have cell := mirror.symm i j (by omega) (by omega)
      rw [show n - 1 - i = n - (i + 1) by omega, show m - 1 - j = m - (j + 1) by omega] at cell
      cases free : ok' i j with
      | true =>
        rw [free] at cell
        have step := edits_open cell.symm
        rw [show n - (i + 1) + 1 = n - i by omega, show m - (j + 1) + 1 = m - j by omega] at step
        rw [edits_open free, ← step]
        exact ihi (by omega) (by omega)
      | false =>
        have right := ihi (by omega) (by omega)
        have near := (edits_near ok (n - (i + 1)) (m - (j + 1)))
        rw [show n - (i + 1) + 1 = n - i by omega, show m - (j + 1) + 1 = m - j by omega] at near
        rw [edits_shut free]
        omega

theorem Mirror.edits_eq : edits ok n m = edits ok' n m := by
  have first := mirror.through le_rfl le_rfl
  have second := mirror.symm.through le_rfl le_rfl
  rw [Nat.sub_self, edits_top] at first second
  omega

theorem Mirror.back {x y : Nat} (hx : x ≤ n) (hy : y ≤ m) (steps : 0 < edits ok x y) :
    ∃ x' y', x' ≤ x ∧ y' ≤ y ∧ x' + y' < x + y ∧ edits ok x' y' ≤ edits ok x y ∧ edits ok x y ≤ edits ok x' y' + 1 ∧
      edits ok' (n - x') (m - y') + edits ok x' y' ≤ edits ok' (n - x) (m - y) + edits ok x y := by
  cases x with
  | zero =>
    rw [edits_top] at steps
    obtain ⟨y, rfl⟩ : ∃ z, y = z + 1 := ⟨y - 1, by omega⟩
    have near := (edits_near ok' (n - 0) (m - (y + 1))).2.1
    rw [show m - (y + 1) + 1 = m - y by omega] at near
    refine ⟨0, y, le_rfl, by omega, by omega, ?_, ?_, ?_⟩
    all_goals rw [edits_top, edits_top]
    all_goals omega
  | succ x =>
    cases y with
    | zero =>
      have near := (edits_near ok' (n - (x + 1)) (m - 0)).1.1
      rw [show n - (x + 1) + 1 = n - x by omega] at near
      refine ⟨x, 0, by omega, le_rfl, by omega, ?_, ?_, ?_⟩
      all_goals rw [edits_side, edits_side]
      all_goals omega
    | succ y =>
      have across : n - (x + 1) + 1 = n - x := by omega
      have downward : m - (y + 1) + 1 = m - y := by omega
      cases free : ok x y with
      | true =>
        have cell := mirror x y (by omega) (by omega)
        rw [free, show n - 1 - x = n - (x + 1) by omega, show m - 1 - y = m - (y + 1) by omega] at cell
        have step := edits_open cell.symm
        rw [across, downward] at step
        refine ⟨x, y, by omega, by omega, by omega, ?_, ?_, ?_⟩
        all_goals rw [edits_open free]
        · omega
        · omega
      | false =>
        have near := edits_near ok' (n - (x + 1)) (m - (y + 1))
        rw [across, downward] at near
        have value := edits_shut free
        rcases le_total (edits ok x (y + 1)) (edits ok (x + 1) y) with least | least
        · exact ⟨x, y + 1, by omega, by omega, by omega, by omega, by omega, by omega⟩
        · exact ⟨x + 1, y, by omega, by omega, by omega, by omega, by omega, by omega⟩

theorem Mirror.split {x y d : Nat} (hx : x ≤ n) (hy : y ≤ m) (steps : d ≤ edits ok x y) :
    ∃ x' y', x' ≤ x ∧ y' ≤ y ∧ edits ok x' y' = d ∧
      edits ok' (n - x') (m - y') + d ≤ edits ok' (n - x) (m - y) + edits ok x y := by
  induction size : x + y using Nat.strongRecOn generalizing x y with
  | ind size ih =>
    by_cases done : edits ok x y = d
    · exact ⟨x, y, le_rfl, le_rfl, done, by rw [done]⟩
    · obtain ⟨x₁, y₁, hx₁, hy₁, smaller, -, close, total⟩ := mirror.back hx hy (by omega)
      obtain ⟨x₂, y₂, hx₂, hy₂, value, rest⟩ := ih (x₁ + y₁) (by omega) (hx₁.trans hx) (hy₁.trans hy) (by omega) rfl
      exact ⟨x₂, y₂, hx₂.trans hx₁, hy₂.trans hy₁, value, rest.trans total⟩

/-- Ways from both corners that pass each other on a diagonal: together they take at least the
fewest steps. -/
theorem Mirror.meet {d e : Nat} {k x u : Int} (ahead : Furthest ok d k x)
    (back : Furthest ok' e ((n : Int) - m - k) u) (overlap : (n : Int) ≤ x + u) : edits ok n m ≤ d + e := by
  obtain ⟨p, q, rfl, rfl, reached, -⟩ := id ahead
  obtain ⟨i, j, rfl, on, reached', -⟩ := id back
  have first := edits_bounds ok p q
  have second := edits_bounds ok' i j
  have most := (edits_bounds ok n m).2.2
  by_cases inside : -m ≤ (p : Int) - q ∧ p - q ≤ n
  · -- a point of the diagonal inside the box, between the two ends
    obtain ⟨s, hs⟩ : ∃ s : Nat, s = max (max 0 (p - q)) (n - i) :=
      ⟨(max (max 0 ((p : Int) - q)) (n - i)).toNat, by omega⟩
    obtain ⟨t, ht⟩ : ∃ t : Nat, t = s - ((p : Int) - q) := ⟨(s - ((p : Int) - q)).toNat, by omega⟩
    have forward : edits ok s t ≤ d := ahead.within (by omega) (by omega)
    have backward : edits ok' (n - s) (m - t) ≤ e := back.within (by omega) (by omega)
    have way := mirror.through (i := n - s) (j := m - t) (by omega) (by omega)
    rw [show n - (n - s) = s by omega, show m - (m - t) = t by omega] at way
    omega
  · omega

/-- If they take no more, then the first of them ends inside the box. -/
theorem Mirror.inside (boxed : Boxed ok n m) {d e : Nat} {k : Int} {u : Int} {p q : Nat}
    (ahead : Furthest ok d k p) (on : k = (p : Int) - q) (back : Furthest ok' e ((n : Int) - m - k) u)
    (overlap : (n : Int) ≤ p + u)
    (least : edits ok n m = d + e) :
    p ≤ n ∧ q ≤ m ∧ edits ok p q = d ∧ edits ok' (n - p) (m - q) = e := by
  have reached : edits ok p q ≤ d := ahead.within on le_rfl
  have most := (edits_bounds ok n m).2.2
  have first := edits_bounds ok p q
  obtain ⟨i, j, rfl, on', reached', -⟩ := id back
  have second := edits_bounds ok' i j
  have shut_right : ∀ i j, n ≤ i → ok i j = false := by
    intro i j hi
    rw [Bool.eq_false_iff]
    intro free
    have bound := boxed i j free
    omega
  have shut_down : ∀ i j, m ≤ j → ok i j = false := by
    intro i j hj
    rw [Bool.eq_false_iff]
    intro free
    have bound := boxed i j free
    omega
  have right : n < p → edits ok p q = edits ok n q + (p - n) := fun past => by
    have out := edits_right (y := q) (t := p - n) shut_right
    rwa [show n + (p - n) = p by omega] at out
  have down : ∀ x, m < q → edits ok x q = edits ok x m + (q - m) := fun x past => by
    have out := edits_down (x := x) (t := q - m) shut_down
    rwa [show m + (q - m) = q by omega] at out
  have hp : p ≤ n := by
    by_contra past
    have cost := right (by omega)
    by_cases low : q ≤ m
    · have edge : edits ok' 0 (m - (q - (p - n))) ≤ e := back.within (by omega) (by omega)
      have way := mirror.through (i := 0) (j := m - q) (by omega) (by omega)
      rw [edits_top] at edge way
      rw [Nat.sub_zero, show m - (m - q) = q by omega] at way
      omega
    · have further := down n (by omega)
      omega
  have hq : q ≤ m := by
    by_contra past
    have cost := down p (by omega)
    have edge : edits ok' (n - (p - (q - m))) 0 ≤ e := back.within (by omega) (by omega)
    have way := mirror.through (i := n - p) (j := 0) (by omega) (by omega)
    rw [edits_side] at edge way
    rw [Nat.sub_zero, show n - (n - p) = p by omega] at way
    omega
  have backward : edits ok' (n - p) (m - q) ≤ e := back.within (by omega) (by omega)
  have way := mirror.through (i := n - p) (j := m - q) (by omega) (by omega)
  rw [show n - (n - p) = p by omega, show m - (m - q) = q by omega] at way
  exact ⟨hp, hq, by omega, by omega⟩

end

end Box

section Subsequences

variable {A : Type}

theorem reverse_take_succ {a : List A} {x : Nat} (inside : x < a.length) :
    (a.take (x + 1)).reverse = a[x] :: (a.take x).reverse := by
  rw [take_add_one, getElem?_eq_getElem inside, Option.toList_some, reverse_append, reverse_singleton, singleton_append]

variable [DecidableEq A]

def agree (a b : List A) (i j : Nat) : Bool := decide (a[i]? = b[j]?)

def Common (a b : List A) : Set Nat := {n | ∃ l : List A, l.Sublist a ∧ l.Sublist b ∧ l.length = n}

/-- A common subsequence of two prefixes (read backwards) from the fewest steps. -/
theorem exists_common {a b : List A} {x y : Nat} (hx : x ≤ a.length) (hy : y ≤ b.length) :
    ∃ l : List A, l.Sublist (a.take x).reverse ∧ l.Sublist (b.take y).reverse ∧
      edits (agree a b) x y + 2 * l.length = x + y := by
  fun_induction edits (agree a b) x y with
  | case1 y => exact ⟨[], nil_sublist _, nil_sublist _, by rw [length_nil]; omega⟩
  | case2 x => exact ⟨[], nil_sublist _, nil_sublist _, by rw [length_nil]⟩
  | case3 x y free ih =>
    obtain ⟨l, left, right, size⟩ := ih (by omega) (by omega)
    have same := of_decide_eq_true free
    rw [getElem?_eq_getElem hx, getElem?_eq_getElem hy, Option.some.injEq] at same
    refine ⟨a[x] :: l, ?_, ?_, by rw [length_cons]; omega⟩
    · rw [reverse_take_succ hx]
      exact left.cons_cons _
    · rw [reverse_take_succ hy, same]
      exact right.cons_cons _
  | case4 x y shut ihx ihy =>
    rcases le_total (edits (agree a b) x (y + 1)) (edits (agree a b) (x + 1) y) with least | least
    · obtain ⟨l, left, right, size⟩ := ihx (by omega) hy
      refine ⟨l, ?_, right, by omega⟩
      rw [reverse_take_succ hx]
      exact left.cons _
    · obtain ⟨l, left, right, size⟩ := ihy hx (by omega)
      refine ⟨l, left, ?_, by omega⟩
      rw [reverse_take_succ hy]
      exact right.cons _

theorem common_le {a b : List A} {x y : Nat} (hx : x ≤ a.length) (hy : y ≤ b.length) {l : List A}
    (left : l.Sublist (a.take x).reverse) (right : l.Sublist (b.take y).reverse) :
    edits (agree a b) x y + 2 * l.length ≤ x + y := by
  fun_induction edits (agree a b) x y generalizing l with
  | case1 y =>
    rw [take_zero, reverse_nil, sublist_nil] at left
    rw [left, length_nil]
    omega
  | case2 x =>
    rw [take_zero, reverse_nil, sublist_nil] at right
    rw [right, length_nil]
  | case3 x y free ih =>
    rw [reverse_take_succ hx] at left
    rw [reverse_take_succ hy] at right
    have rest := ih (by omega) (by omega) left.tail right.tail
    rw [length_tail] at rest
    omega
  | case4 x y shut ihx ihy =>
    rw [reverse_take_succ hx, sublist_cons_iff] at left
    rcases left with shorter | ⟨rest, rfl, shorter⟩
    · have bound := ihx (by omega) hy shorter right
      omega
    · rw [reverse_take_succ hy, sublist_cons_iff] at right
      rcases right with short | ⟨rest', same, -⟩
      · have bound := ihy hx (by omega) (by rw [reverse_take_succ hx]; exact shorter.cons_cons _) short
        omega
      · refine absurd (decide_eq_true ?_) shut
        rw [getElem?_eq_getElem hx, getElem?_eq_getElem hy, (List.cons.inj same).1]

/-- The fewest steps are what a longest common subsequence leaves over. -/
theorem exists_lcs (a b : List A) : ∃ L, IsGreatest (Common a b) L ∧
    edits (agree a b) a.length b.length + 2 * L = a.length + b.length := by
  obtain ⟨l, left, right, size⟩ := exists_common (b := b) le_rfl le_rfl
  rw [take_length] at left right
  refine ⟨l.length, ⟨⟨l.reverse, ?_, ?_, length_reverse⟩, ?_⟩, size⟩
  · rw [← reverse_reverse a]
    exact left.reverse
  · rw [← reverse_reverse b]
    exact right.reverse
  · rintro n ⟨l', left', right', rfl⟩
    have bound := common_le (a := a) (b := b) (l := l'.reverse) le_rfl le_rfl
      (by rw [take_length]; exact left'.reverse) (by rw [take_length]; exact right'.reverse)
    rw [length_reverse] at bound
    omega

end Subsequences

end DynaJS.Grid
