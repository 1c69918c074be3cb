import Mathlib.Tactic

/-! A loop as a step on its state: a step either goes on or leaves with a result.
The fuel bounds the rounds, and the measure rule says when it is enough. -/
namespace DynaJS.Loop

variable {σ ρ : Type}

def run (step : σ → σ ⊕ ρ) : Nat → σ → Option ρ
  | 0, _ => none
  | fuel + 1, s =>
    match step s with
    | .inl next => run step fuel next
    | .inr result => some result

variable {step : σ → σ ⊕ ρ}

theorem run_next {s next : σ} (goes : step s = .inl next) (fuel : Nat) :
    run step (fuel + 1) s = run step fuel next := by
  simp only [run, goes]

variable {s : σ}

theorem run_leave {result : ρ} (leaves : step s = .inr result)
    (fuel : Nat) : run step (fuel + 1) s = some result := by
  simp only [run, leaves]

theorem run_more {fuel : Nat} {result : ρ}
    (done : run step fuel s = some result) (more : Nat) (enough : fuel ≤ more) :
    run step more s = some result := by
  induction fuel generalizing s more with
  | zero => simp [run] at done
  | succ fuel ih =>
    cases more with
    | zero => omega
    | succ more =>
      cases kind : step s with
      | inl next =>
        rw [run_next kind] at done ⊢
        exact ih done more (by omega)
      | inr out =>
        rw [run_leave kind] at done ⊢
        exact done

theorem run_unique {one two : Nat} {r₁ r₂ : ρ}
    (first : run step one s = some r₁) (second : run step two s = some r₂) : r₁ = r₂ := by
  have both := run_more first (max one two) (Nat.le_max_left _ _)
  rw [run_more second (max one two) (Nat.le_max_right _ _)] at both
  exact (Option.some.inj both).symm

/-- The rule for loops: an invariant kept by every round, a measure every round
lowers, and a relation of state and result that holds on the way out and before a round after which it holds. -/
theorem run_rule (step : σ → σ ⊕ ρ) (inv : σ → Prop) (post : σ → ρ → Prop) (measure : σ → Nat)
    (keeps : ∀ s next, inv s → step s = .inl next →
      inv next ∧ measure next < measure s ∧ ∀ result, post next result → post s result)
    (leaves : ∀ s result, inv s → step s = .inr result → post s result)
    (start : inv s) (fuel : Nat) (enough : measure s < fuel) :
    ∃ result, run step fuel s = some result ∧ post s result := by
  induction fuel generalizing s with
  | zero => omega
  | succ fuel ih =>
    cases kind : step s with
    | inl next =>
      obtain ⟨kept, less, back⟩ := keeps s next start kind
      obtain ⟨result, done, holds⟩ := ih kept (by omega)
      exact ⟨result, (run_next kind fuel).trans done, back result holds⟩
    | inr result => exact ⟨result, run_leave kind fuel, leaves s result start kind⟩

/-- A loop that takes every round another takes gets at least to the state from
which the other leaves. -/
theorem run_follows {one : σ → σ ⊕ ρ} (two : σ → σ ⊕ ρ) (same : ∀ s next, one s = .inl next → two s = .inl next)
    {fuel : Nat} {result : ρ} (done : run one fuel s = some result) :
    ∃ (last : σ) (rounds : Nat), one last = .inr result ∧ ∀ more, run two (more + rounds) s = run two more last := by
  induction fuel generalizing s with
  | zero => simp [run] at done
  | succ fuel ih =>
    cases kind : one s with
    | inl next =>
      rw [run_next kind] at done
      obtain ⟨last, rounds, leaves, follows⟩ := ih done
      refine ⟨last, rounds + 1, leaves, fun more => ?_⟩
      rw [← Nat.add_assoc, run_next (same s next kind)]
      exact follows more
    | inr out =>
      rw [run_leave kind] at done
      cases Option.some.inj done
      exact ⟨s, 0, kind, fun _ => rfl⟩

end DynaJS.Loop
