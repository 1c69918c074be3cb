import Mathlib.Order.Bounds.Basic
import Mathlib.Order.MinMax
import Mathlib.Tactic.Common

/-! Local alignments as paths in a grid: a step along both sequences scores by the pair it
aligns, a step along one of them costs a gap. Cells may be out of bounds. -/
namespace DynaJS.Local

inductive Op where
  | both
  | first
  | second
  deriving DecidableEq, Repr

/-- An alignment from the corner `(i₀, j₀)`, with its steps, the corner where it ends and its
score. Every cell it steps on is `ok`. -/
inductive Path (sc : Nat → Nat → Int) (gap : Int) (ok : Nat → Nat → Bool) (i₀ j₀ : Nat) :
    List Op → Nat → Nat → Int → Prop
  | nil : Path sc gap ok i₀ j₀ [] i₀ j₀ 0
  | both {l : List Op} {i j : Nat} {s : Int} : Path sc gap ok i₀ j₀ l i j s → ok (i + 1) (j + 1) = true →
      Path sc gap ok i₀ j₀ (l ++ [.both]) (i + 1) (j + 1) (s + sc i j)
  | first {l : List Op} {i j : Nat} {s : Int} : Path sc gap ok i₀ j₀ l i j s → ok (i + 1) j = true →
      Path sc gap ok i₀ j₀ (l ++ [.first]) (i + 1) j (s + gap)
  | second {l : List Op} {i j : Nat} {s : Int} : Path sc gap ok i₀ j₀ l i j s → ok i (j + 1) = true →
      Path sc gap ok i₀ j₀ (l ++ [.second]) i (j + 1) (s + gap)

def best (sc : Nat → Nat → Int) (gap : Int) (ok : Nat → Nat → Bool) : Nat → Nat → Int
  | 0, _ => 0
  | _ + 1, 0 => 0
  | i + 1, j + 1 =>
    if ok (i + 1) (j + 1) then
      max 0 (max (best sc gap ok i j + sc i j) (max (best sc gap ok i (j + 1) + gap) (best sc gap ok (i + 1) j + gap)))
    else 0

variable {sc : Nat → Nat → Int} {gap : Int} {ok : Nat → Nat → Bool}

theorem best_zero (j : Nat) : best sc gap ok 0 j = 0 := by rw [best]

theorem best_side (i : Nat) : best sc gap ok i 0 = 0 := by
  cases i <;> rw [best]

theorem best_out {i j : Nat} (out : ok i j = false) : best sc gap ok i j = 0 := by
  cases i with
  | zero => exact best_zero j
  | succ i =>
    cases j with
    | zero => exact best_side (i + 1)
    | succ j => rw [best, out, if_neg Bool.false_ne_true]

theorem best_succ {i j : Nat} (inside : ok (i + 1) (j + 1) = true) : best sc gap ok (i + 1) (j + 1) =
    max 0 (max (best sc gap ok i j + sc i j)
      (max (best sc gap ok i (j + 1) + gap) (best sc gap ok (i + 1) j + gap))) := by
  rw [best, if_pos inside]

theorem best_nonneg (i j : Nat) : 0 ≤ best sc gap ok i j := by
  unfold best
  split
  · exact le_rfl
  · exact le_rfl
  · split
    · exact le_max_left _ _
    · exact le_rfl

theorem Path.le_best (cost : gap ≤ 0) {i₀ j₀ i j : Nat} {l : List Op} {s : Int} (path : Path sc gap ok i₀ j₀ l i j s) :
    s ≤ best sc gap ok i j := by
  induction path with
  | nil => exact best_nonneg _ _
  | both _ inside ih =>
    rw [best_succ inside]
    omega
  | @first l i j s _ inside ih =>
    cases j with
    | zero =>
      rw [best_side] at ih ⊢
      omega
    | succ j =>
      rw [best_succ inside]
      omega
  | @second l i j s _ inside ih =>
    cases i with
    | zero =>
      rw [best_zero] at ih ⊢
      omega
    | succ i =>
      rw [best_succ inside]
      omega

theorem exists_path (sc : Nat → Nat → Int) (gap : Int) (ok : Nat → Nat → Bool) (i j : Nat) :
    ∃ i₀ j₀ l, Path sc gap ok i₀ j₀ l i j (best sc gap ok i j) := by
  fun_induction best sc gap ok i j with
  | case1 j => exact ⟨0, j, [], .nil⟩
  | case2 i => exact ⟨i + 1, 0, [], .nil⟩
  | case3 i j inside both first second =>
    obtain ⟨i₁, j₁, l₁, path₁⟩ := both
    obtain ⟨i₂, j₂, l₂, path₂⟩ := first
    obtain ⟨i₃, j₃, l₃, path₃⟩ := second
    rcases max_choice 0 (max (best sc gap ok i j + sc i j)
      (max (best sc gap ok i (j + 1) + gap) (best sc gap ok (i + 1) j + gap))) with top | top
    · rw [top]
      exact ⟨i + 1, j + 1, [], .nil⟩
    rw [top]
    rcases max_choice (best sc gap ok i j + sc i j)
      (max (best sc gap ok i (j + 1) + gap) (best sc gap ok (i + 1) j + gap)) with top | top
    · rw [top]
      exact ⟨i₁, j₁, _, path₁.both inside⟩
    rw [top]
    rcases max_choice (best sc gap ok i (j + 1) + gap) (best sc gap ok (i + 1) j + gap) with top | top
    · rw [top]
      exact ⟨i₂, j₂, _, path₂.first inside⟩
    · rw [top]
      exact ⟨i₃, j₃, _, path₃.second inside⟩
  | case4 i j out => exact ⟨i + 1, j + 1, [], .nil⟩

def Scores (sc : Nat → Nat → Int) (gap : Int) (ok : Nat → Nat → Bool) (n m : Nat) : Set Int :=
  {s | ∃ i₀ j₀ l i j, i ≤ n ∧ j ≤ m ∧ Path sc gap ok i₀ j₀ l i j s}

theorem isGreatest_best (cost : gap ≤ 0) {n m i j : Nat} (hi : i ≤ n) (hj : j ≤ m)
    (most : ∀ x y, x ≤ n → y ≤ m → best sc gap ok x y ≤ best sc gap ok i j) :
    IsGreatest (Scores sc gap ok n m) (best sc gap ok i j) := by
  constructor
  · obtain ⟨i₀, j₀, l, path⟩ := exists_path sc gap ok i j
    exact ⟨i₀, j₀, l, i, j, hi, hj, path⟩
  · rintro s ⟨i₀, j₀, l, x, y, hx, hy, path⟩
    exact (path.le_best cost).trans (most x y hx hy)

end DynaJS.Local
