import Mathlib.Tactic

/-! `ds_reserve` of `dyn-ds.c`: the doubling capacity behind every growable array
of the container library. -/
namespace DynaJS.Ds

/-- The doubling loop of `ds_reserve`. Capacities are `uint32_t`; a capacity that
wraps to zero doubles to zero for ever, which the fuel turns into a failure. -/
def growCap (need : Nat) : Nat → Nat → Option Nat
  | 0, _ => none
  | fuel + 1, nc =>
    if nc < need then
      if 0x40000000 < nc then none else growCap need fuel (nc * 2 % 2 ^ 32)
    else some nc

def Capacity (cap : Nat) : Prop := cap = 0 ∨ ∃ k, k ≤ 28 ∧ cap = 8 * 2 ^ k

theorem capacity_le {cap : Nat} (h : Capacity cap) : cap ≤ 2 ^ 31 := by
  rcases h with rfl | ⟨k, hk, rfl⟩
  · exact Nat.zero_le _
  · calc 8 * 2 ^ k ≤ 8 * 2 ^ 28 := Nat.mul_le_mul_left _ (Nat.pow_le_pow_right (by decide) hk)
      _ = 2 ^ 31 := by decide

theorem capacity_dvd {cap : Nat} (h : Capacity cap) : 8 ∣ cap := by
  rcases h with rfl | ⟨k, _, rfl⟩
  · exact dvd_zero 8
  · exact dvd_mul_right 8 _

theorem growCap_sound (need fuel nc c : Nat) (h : growCap need fuel nc = some c) : need ≤ c := by
  induction fuel generalizing nc with
  | zero => simp [growCap] at h
  | succ fuel ih =>
    simp only [growCap] at h
    split at h
    · split at h
      · contradiction
      · exact ih _ h
    · cases Option.some.inj h
      omega

theorem double_power {k : Nat} (hk : k < 28) : 8 * 2 ^ k * 2 % 2 ^ 32 = 8 * 2 ^ (k + 1) := by
  have : 8 * 2 ^ k ≤ 8 * 2 ^ 27 := Nat.mul_le_mul_left _ (Nat.pow_le_pow_right (by decide) (by omega))
  omega

/-- From a power of two the loop stays on powers of two up to 2^31, and it
reaches any need up to that size. -/
theorem growCap_powers (need k : Nat) (hk : k ≤ 28) (fuel : Nat) (enough : 29 - k ≤ fuel) :
    (∀ c, growCap need fuel (8 * 2 ^ k) = some c → Capacity c ∧ 8 * 2 ^ k ≤ c) ∧
    (need ≤ 2 ^ 31 → (growCap need fuel (8 * 2 ^ k)).isSome) := by
  induction fuel generalizing k with
  | zero => omega
  | succ fuel ih =>
    by_cases small : 8 * 2 ^ k < need
    · by_cases top : k = 28
      · subst top
        have large : 0x40000000 < 8 * 2 ^ 28 := by decide
        simp only [growCap, if_pos small, if_pos large]
        refine ⟨fun c h => by contradiction, fun h => ?_⟩
        omega
      · have low : ¬ 0x40000000 < 8 * 2 ^ k := by
          have : 8 * 2 ^ k ≤ 8 * 2 ^ 27 := Nat.mul_le_mul_left _ (Nat.pow_le_pow_right (by decide) (by omega))
          omega
        simp only [growCap, if_pos small, if_neg low, double_power (k := k) (by omega)]
        have rest := ih (k + 1) (by omega) (by omega)
        refine ⟨fun c h => ?_, rest.2⟩
        have next := rest.1 c h
        exact ⟨next.1, by omega⟩
    · simp only [growCap, if_neg small]
      refine ⟨fun c h => ?_, fun _ => rfl⟩
      cases Option.some.inj h
      exact ⟨.inr ⟨k, hk, rfl⟩, Nat.le_refl _⟩

theorem growCap_zero {need : Nat} (positive : 0 < need) (fuel : Nat) : growCap need fuel 0 = none := by
  induction fuel with
  | zero => rfl
  | succ fuel ih => simp [growCap, positive, ih]

def firstCap (cap : Nat) : Nat := if cap = 0 then 8 else cap * 2 % 2 ^ 32

theorem firstCap_power {cap : Nat} (h : Capacity cap) :
    (∃ k, k ≤ 28 ∧ firstCap cap = 8 * 2 ^ k ∧ cap < firstCap cap) ∨ (cap = 2 ^ 31 ∧ firstCap cap = 0) := by
  rcases h with rfl | ⟨k, hk, rfl⟩
  · exact .inl ⟨0, by omega, rfl, by decide⟩
  · have pos : 0 < 2 ^ k := Nat.pow_pos (by decide)
    have nonzero : 8 * 2 ^ k ≠ 0 := by omega
    by_cases top : k = 28
    · subst top
      exact .inr ⟨by decide, by decide⟩
    · refine .inl ⟨k + 1, by omega, ?_, ?_⟩
      · simp only [firstCap, if_neg nonzero, double_power (k := k) (by omega)]
      · simp only [firstCap, if_neg nonzero, double_power (k := k) (by omega)]
        omega

/-- `ds_reserve`: the capacity after the call, or `none` when it returns -1.
`ok` is the outcome of the `realloc`, should the call get that far. -/
def dsReserve (cap need esz : Nat) (ok : Bool) : Option Nat :=
  if need ≤ cap then some cap
  else if (2 ^ 64 - 1) / esz < need then none
  else
    match growCap need 64 (firstCap cap) with
    | none => none
    | some nc => if ok then some nc else none

theorem dsReserve_sound {cap need esz c : Nat} {ok : Bool} (valid : Capacity cap)
    (h : dsReserve cap need esz ok = some c) : need ≤ c ∧ cap ≤ c ∧ Capacity c := by
  unfold dsReserve at h
  split at h
  · cases Option.some.inj h
    exact ⟨by assumption, Nat.le_refl _, valid⟩
  · rename_i short
    split at h
    · contradiction
    · split at h
      · contradiction
      · rename_i nc grown
        split at h
        · cases Option.some.inj h
          rcases firstCap_power valid with ⟨k, hk, first, above⟩ | ⟨_, zero⟩
          · rw [first] at grown above
            have next := (growCap_powers need k hk 64 (by omega)).1 c grown
            exact ⟨growCap_sound _ _ _ _ grown, by omega, next.1⟩
          · rw [zero, growCap_zero (by omega)] at grown
            contradiction
        · contradiction

/-- With memory to be had, only a need past 2^31 slots is refused. -/
theorem dsReserve_succeeds {cap need esz : Nat} (valid : Capacity cap)
    (fits : need ≤ 2 ^ 31) (element : 0 < esz) (small : esz ≤ 2 ^ 32) :
    (dsReserve cap need esz true).isSome := by
  unfold dsReserve
  split
  · rfl
  · rename_i short
    have room : ¬ (2 ^ 64 - 1) / esz < need := by
      have : 2 ^ 31 ≤ (2 ^ 64 - 1) / esz := by
        rw [Nat.le_div_iff_mul_le element]
        calc 2 ^ 31 * esz ≤ 2 ^ 31 * 2 ^ 32 := Nat.mul_le_mul_left _ small
          _ ≤ 2 ^ 64 - 1 := by decide
      omega
    rw [if_neg room]
    rcases firstCap_power valid with ⟨k, hk, first, _⟩ | ⟨top, _⟩
    · have reached := (growCap_powers need k hk 64 (by omega)).2 fits
      split
      · simp_all
      · rfl
    · omega

theorem dsReserve_none_iff {cap need esz : Nat} {ok : Bool} (valid : Capacity cap) (element : 0 < esz)
    (small : esz ≤ 2 ^ 32) : dsReserve cap need esz ok = none ↔ cap < need ∧ (ok = false ∨ 2 ^ 31 < need) := by
  constructor
  · intro refused
    refine ⟨not_le.mp fun fits => ?_, ?_⟩
    · rw [dsReserve, if_pos fits] at refused
      contradiction
    · by_contra had
      obtain ⟨granted, fits⟩ := not_or.mp had
      rw [Bool.eq_true_of_not_eq_false granted] at refused
      have reserved := dsReserve_succeeds valid (not_lt.mp fits) element small
      rw [refused] at reserved
      contradiction
  · rintro ⟨short, cause⟩
    rw [Option.eq_none_iff_forall_ne_some]
    intro c reserved
    obtain ⟨enough, -, capacity⟩ := dsReserve_sound valid reserved
    have bound := capacity_le capacity
    have refused : ok = false := cause.resolve_right (by omega)
    rw [dsReserve, if_neg (by omega), refused] at reserved
    split at reserved
    · contradiction
    · split at reserved <;> contradiction

end DynaJS.Ds
