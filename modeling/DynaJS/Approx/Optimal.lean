import DynaJS.Approx.Align
import Mathlib.Data.Finset.Max
import Mathlib.Data.Finset.Prod

/-! `dyn_smith_waterman` finds the best local alignment as long as its score fits in 32 bits. -/
namespace DynaJS.Approx

open Engine Local Nat List Bool Except
open Function (update update_of_ne update_self)

def swAllowed (o : SwOpts) (i j : Nat) : Bool := decide (o.band < 0) || decide (|(j : Int) - i - o.diagonal| ≤ o.band)

structure SwOpts.Valid (o : SwOpts) : Prop where
  mismatch : -1000 ≤ o.mismatch ∧ o.mismatch ≤ o.matched
  matched : 1 ≤ o.matched ∧ o.matched ≤ 1000
  gap : -1000 ≤ o.gap ∧ o.gap ≤ 0

theorem swIntOpt_range {key : String} {lo hi out x : Int} {v : Option Double} (default : lo ≤ out ∧ out ≤ hi)
    (read : swIntOpt key lo hi v out = .ok x) : lo ≤ x ∧ x ≤ hi := by
  unfold swIntOpt at read
  split at read
  · rw [← ok.inj read]
    exact default
  · split at read
    · contradiction
    · split at read
      · rename_i inside
        rw [← ok.inj read]
        exact inside
      · contradiction

theorem swReadOpts_valid {opts : Option SwOptions} {o : SwOpts} (read : swReadOpts opts = .ok o) : o.Valid := by
  unfold swReadOpts at read
  split at read
  · rw [← ok.inj read]
    exact ⟨by decide, by decide, by decide⟩
  split at read
  · contradiction
  obtain ⟨matched, first, read⟩ := bind_ok read
  obtain ⟨mismatch, second, read⟩ := bind_ok read
  obtain ⟨gap, third, read⟩ := bind_ok read
  have range₁ := swIntOpt_range (by decide) first
  have range₂ := swIntOpt_range (by decide) second
  have range₃ := swIntOpt_range (by decide) third
  split at read
  · contradiction
  rename_i order
  obtain ⟨band, -, read⟩ := bind_ok read
  obtain ⟨diagonal, -, read⟩ := bind_ok read
  rw [← ok.inj read]
  exact ⟨⟨range₂.1, not_lt.mp order⟩, range₁, range₃⟩

def SwInput.symbols : SwInput → List Nat
  | .text s => codePoints s.units
  | .tokens t => t.map UInt32.toNat

theorem Operand.Holds.values {o : Operand} {cps : List Nat} (holds : o.Holds cps) : o.values = cps := by
  rw [Operand.values]
  cases ascii : o.ascii with
  | true => exact (holds.bytes ascii).1
  | false => exact holds.points ascii

theorem operandWiden_values {o : Operand} {cps : List Nat} (holds : o.Holds cps) : (operandWiden o).values = cps := by
  rw [operandWiden]
  cases ascii : o.ascii with
  | true => exact (holds.bytes ascii).1
  | false =>
    exact holds.values

theorem swSequences_symbols {a b : SwInput} {x y : List Nat} (read : swSequences a b = .ok (x, y)) :
    x = a.symbols ∧ y = b.symbols := by
  unfold swSequences at read
  split at read
  · obtain ⟨A, got_a, read⟩ := bind_ok read
    obtain ⟨B, got_b, read⟩ := bind_ok read
    have first := operandGet_holds got_a
    have second := operandGet_holds got_b
    split at read
    · rw [operandWiden_values first, operandWiden_values second] at read
      obtain ⟨rfl, rfl⟩ := Prod.mk.inj (ok.inj read)
      exact ⟨rfl, rfl⟩
    · rw [first.values, second.values] at read
      obtain ⟨rfl, rfl⟩ := Prod.mk.inj (ok.inj read)
      exact ⟨rfl, rfl⟩
  · obtain ⟨rfl, rfl⟩ := Prod.mk.inj (ok.inj read)
    exact ⟨rfl, rfl⟩
  · contradiction

section Words

theorem wrap32_small {x : Int} (low : -2 ^ 31 ≤ x) (high : x < 2 ^ 31) : wrap32 x = x :=
  Int.bmod_eq_of_le (by omega) (by omega)

theorem wrap32_lt (x : Int) : wrap32 x < 2 ^ 31 := by
  have bound := @Int.bmod_lt x (2 ^ 32) (by decide)
  rw [wrap32]
  omega

theorem swValue_lt (diag up left score gap : Int) : (swValue diag up left score gap).1 < 2 ^ 31 := by
  have one := wrap32_lt (diag + score)
  have two := wrap32_lt (up + gap)
  have three := wrap32_lt (left + gap)
  rw [swValue]
  split_ifs <;> omega

theorem choice_eq_max (d u l : Int) :
    (if (if (if 0 < d then d else 0) < u then u else if 0 < d then d else 0) < l then l
      else if (if 0 < d then d else 0) < u then u else if 0 < d then d else 0) = max 0 (max d (max u l)) := by
  split_ifs <;> omega

/-- Without overflow a cell holds the greatest of its choices, and its mark tells which. -/
theorem swValue_exact {diag up left score gap v : Int} (hd : 0 ≤ diag) (hu : 0 ≤ up) (hl : 0 ≤ left)
    (most : v = max 0 (max (diag + score) (max (up + gap) (left + gap)))) (fits : v < 2 ^ 31)
    (hs : -1000 ≤ score) (hg : -1000 ≤ gap) :
    swValue diag up left score gap = (v, if v = 0 then none else if v = diag + score then some .both
      else if v = up + gap then some .first else some .second) := by
  have one := wrap32_small (x := diag + score) (by omega) (by omega)
  have two := wrap32_small (x := up + gap) (by omega) (by omega)
  have three := wrap32_small (x := left + gap) (by omega) (by omega)
  rw [swValue, one, two, three, choice_eq_max, ← most]

end Words

section Best

variable {g : SwGrid}

theorem swCells_best (i : Nat) (prev : Nat → Int) (count j : Nat) {s : SwFill} (small : s.best < 2 ^ 31) :
    (swCells g i prev count j s).best < 2 ^ 31 := by
  induction count generalizing j s with
  | zero => exact small
  | succ count ih =>
    refine ih (j + 1) ?_
    unfold swCell
    dsimp only
    split
    · exact swValue_lt ..
    · exact small

theorem swRow_best (i : Nat) (prev : Nat → Int) {s : SwFill} (small : s.best < 2 ^ 31) :
    (swRow g i prev s).best < 2 ^ 31 := by
  unfold swRow
  dsimp only
  split
  · exact swCells_best i prev _ _ small
  · exact swCells_best i prev _ _ small

theorem swRows_best (count i : Nat) (prev : Nat → Int) {s : SwFill} (small : s.best < 2 ^ 31) :
    (swRows g count i prev s).best < 2 ^ 31 := by
  induction count generalizing i prev s with
  | zero => exact small
  | succ count ih => exact ih (i + 1) _ (swRow_best i prev small)

theorem swFill_best g : (swFill g).best < 2 ^ 31 := swRows_best _ _ _ (by decide)

end Best

section Fill

def swBest (g : SwGrid) : Nat → Nat → Int := best (swScore g.a g.b g.o) g.o.gap (swAllowed g.o)

structure SwGrid.Fits (g : SwGrid) : Prop where
  valid : g.o.Valid
  order : g.lo ≤ g.hi
  band : ∀ i j : Nat, 1 ≤ i → i ≤ g.a.length → 1 ≤ j → j ≤ g.b.length →
    (swAllowed g.o i j = true ↔ g.lo ≤ (j : Int) - i ∧ (j : Int) - i ≤ g.hi)
  column : ∀ i j : Nat, 1 ≤ i → i ≤ g.a.length → 1 ≤ j → j ≤ g.b.length →
    (¬((if 0 ≤ g.o.band then (j : Int) - i - g.lo else j) < 0 ∨
      (g.width : Int) ≤ (if 0 ≤ g.o.band then (j : Int) - i - g.lo else j)) ↔ swAllowed g.o i j = true)
  apart : ∀ i j j' : Nat, 1 ≤ i → i ≤ g.a.length → 1 ≤ j → j ≤ g.b.length → 1 ≤ j' → j' ≤ g.b.length →
    swAllowed g.o i j = true → swAllowed g.o i j' = true → swCol g i j = swCol g i j' → j = j'

theorem swGrid_fields (a b : List Nat) (o : SwOpts) :
    (swGrid a b o).a = a ∧ (swGrid a b o).b = b ∧ (swGrid a b o).o = o := by
  unfold swGrid
  split
  · exact ⟨rfl, rfl, rfl⟩
  · exact ⟨rfl, rfl, rfl⟩

theorem swGrid_fits (a b : List Nat) {o : SwOpts} (valid : o.Valid) : (swGrid a b o).Fits := by
  by_cases banded : 0 ≤ o.band
  · have shape : swGrid a b o = ⟨a, b, o, (2 * o.band + 1).toNat, o.diagonal - o.band, o.diagonal + o.band⟩ := by
      rw [swGrid, if_pos banded]
    have allowed : ∀ i j, swAllowed o i j = true ↔
        o.diagonal - o.band ≤ j - i ∧ j - i ≤ o.diagonal + o.band := by
      intro i j
      rw [swAllowed, or_eq_true, decide_eq_true_eq, decide_eq_true_eq, abs_le]
      omega
    rw [shape]
    refine ⟨valid, by dsimp only; omega, fun i j _ _ _ _ => allowed i j, fun i j _ _ _ _ => ?_, ?_⟩
    · dsimp only
      rw [allowed]
      omega
    · intro i j j' _ _ _ _ _ _ first second same
      rw [allowed] at first second
      rw [swCol, swCol] at same
      dsimp only at same
      rw [if_pos banded, if_pos banded] at same
      omega
  · have shape : swGrid a b o = ⟨a, b, o, b.length + 1, -(a.length : Int), b.length⟩ := by
      rw [swGrid, if_neg banded]
    have allowed : ∀ i j, swAllowed o i j = true := by
      intro i j
      rw [swAllowed, decide_eq_true (by omega), Bool.true_or]
    rw [shape]
    refine ⟨valid, by dsimp only; omega, fun i j hi hi' hj hj' => ?_, fun i j _ _ hj hj' => ?_, ?_⟩
    · dsimp only at hi' hj' ⊢
      have always := allowed i j
      refine ⟨fun _ => ?_, fun _ => always⟩
      omega
    · dsimp only at hj' ⊢
      have always := allowed i j
      refine ⟨fun _ => always, fun _ => ?_⟩
      omega
    · intro i j j' _ _ _ _ _ _ _ _ same
      rw [swCol, swCol] at same
      rwa [if_neg banded, if_neg banded] at same

def Marks (g : SwGrid) (p : Option Op) (i j : Nat) : Prop :=
  match p with
  | none => swBest g i j = 0
  | some .both => swBest g i j = swBest g (i - 1) (j - 1) + swScore g.a g.b g.o (i - 1) (j - 1)
  | some .first => swBest g i j = swBest g (i - 1) j + g.o.gap
  | some .second => swBest g i j = swBest g i (j - 1) + g.o.gap

def Done (g : SwGrid) (i j x y : Nat) : Prop :=
  1 ≤ x ∧ x ≤ g.a.length ∧ 1 ≤ y ∧ y ≤ g.b.length ∧ swAllowed g.o x y = true ∧ (x < i ∨ (x = i ∧ y < j))

structure Filled (g : SwGrid) (i j : Nat) (s : SwFill) : Prop where
  top : s.best = swBest g s.bi s.bj
  inside : s.bi ≤ g.a.length ∧ s.bj ≤ g.b.length
  most : ∀ x y, Done g i j x y → swBest g x y ≤ s.best
  marked : g.o.traceback = true → ∀ x y, Done g i j x y → Marks g (s.trace (x - 1) (swCol g x y)) x y

variable {g : SwGrid} {i j : Nat} {s : SwFill} {prev : Nat → Int}

theorem swScore_low (valid : g.o.Valid) (i j : Nat) : -1000 ≤ swScore g.a g.b g.o i j := by
  have first := valid.mismatch
  rw [swScore]
  split <;> omega

theorem swBest_nonneg g (i j : Nat) : 0 ≤ swBest g i j := best_nonneg i j

theorem swFrom_pos (g : SwGrid) (i : Nat) : 1 ≤ swFrom g i := by
  unfold swFrom
  split <;> omega

theorem swFrom_mono (g : SwGrid) (i : Nat) : swFrom g i ≤ swFrom g (i + 1) := by
  unfold swFrom
  split <;> split <;> omega

theorem swTo_le (g : SwGrid) (i : Nat) : swTo g i ≤ g.b.length := by
  unfold swTo
  split_ifs <;> omega

theorem swTo_succ (g : SwGrid) (i : Nat) : swTo g (i + 1) ≤ swTo g i + 1 := by
  unfold swTo
  split_ifs <;> omega

theorem swAllowed_iff (fits : g.Fits) (hi : 1 ≤ i ∧ i ≤ g.a.length) (hj : 1 ≤ j ∧ j ≤ g.b.length) :
    swAllowed g.o i j = true ↔ swFrom g i ≤ j ∧ j ≤ swTo g i := by
  rw [fits.band i j hi.1 hi.2 hj.1 hj.2, swFrom, swTo]
  split_ifs <;> omega

theorem swBest_outside (fits : g.Fits) (hi : 1 ≤ i ∧ i ≤ g.a.length) (hj : j ≤ g.b.length)
    (out : ¬(swFrom g i ≤ j ∧ j ≤ swTo g i)) : swBest g i j = 0 := by
  rcases Nat.eq_zero_or_pos j with rfl | pos
  · exact best_side i
  · refine best_out ?_
    rw [eq_false_iff]
    exact fun allowed => out ((swAllowed_iff fits hi ⟨pos, hj⟩).mp allowed)

theorem swClear_left {m first x : Nat} {cur : Nat → Int} (edge : x + 1 = first) (hx : x ≤ m) :
    swClear m first cur x = 0 := by
  unfold swClear
  by_cases zero : x = 0
  · rw [zero, update_self]
  · rw [update_of_ne zero]
    have cleared : (if 2 ≤ first ∧ first - 1 ≤ m then update cur (first - 1) 0 else cur) x = 0 := by
      rw [if_pos (by omega), show first - 1 = x by omega, update_self]
    split
    · rw [update_of_ne (by omega)]
      exact cleared
    · exact cleared

def Window (g : SwGrid) (i : Nat) (row : Nat → Int) : Prop :=
  ∀ x, x ≤ g.b.length → swFrom g i ≤ x + 1 → x ≤ swTo g i + 1 → row x = swBest g i x

section

variable (fits : g.Fits) (small : ∀ x y, x ≤ g.a.length → y ≤ g.b.length → swBest g x y < 2 ^ 31)
include fits small

theorem swCell_filled (filled : Filled g i j s) (hi : 1 ≤ i ∧ i ≤ g.a.length) (hj : 1 ≤ j ∧ j ≤ g.b.length)
    (allowed : swAllowed g.o i j = true) (diag : prev (j - 1) = swBest g (i - 1) (j - 1))
    (up : prev j = swBest g (i - 1) j) (left : s.cur (j - 1) = swBest g i (j - 1)) :
    Filled g i (j + 1) (swCell g i prev s j) ∧ (swCell g i prev s j).cur = update s.cur j (swBest g i j) := by
  have most : swBest g i j = max 0 (max (swBest g (i - 1) (j - 1) + swScore g.a g.b g.o (i - 1) (j - 1))
      (max (swBest g (i - 1) j + g.o.gap) (swBest g i (j - 1) + g.o.gap))) := by
    obtain ⟨x, rfl⟩ : ∃ x, i = x + 1 := ⟨i - 1, by omega⟩
    obtain ⟨y, rfl⟩ : ∃ y, j = y + 1 := ⟨j - 1, by omega⟩
    exact best_succ allowed
  have value := swValue_exact (swBest_nonneg g (i - 1) (j - 1)) (swBest_nonneg g (i - 1) j)
    (swBest_nonneg g i (j - 1)) most
    (small i j hi.2 hj.2) (swScore_low fits.valid (i - 1) (j - 1)) fits.valid.gap.1
  have mark : Marks g (if swBest g i j = 0 then none
      else if swBest g i j = swBest g (i - 1) (j - 1) + swScore g.a g.b g.o (i - 1) (j - 1) then some .both
      else if swBest g i j = swBest g (i - 1) j + g.o.gap then some .first else some .second) i j := by
    split
    · assumption
    split
    · assumption
    split
    · assumption
    · change swBest g i j = swBest g i (j - 1) + g.o.gap
      omega
  have split_done : ∀ x y, Done g i (j + 1) x y → Done g i j x y ∨ (x = i ∧ y = j) := by
    rintro x y ⟨hx, hx', hy, hy', ok, before⟩
    by_cases here : x = i ∧ y = j
    · exact .inr here
    · exact .inl ⟨hx, hx', hy, hy', ok, by omega⟩
  rw [swCell, diag, up, left, value]
  refine ⟨⟨?_, ?_, fun x y done => ?_, fun on x y done => ?_⟩, rfl⟩
  · dsimp only
    split
    · rfl
    · exact filled.top
  · dsimp only
    split
    · exact ⟨hi.2, hj.2⟩
    · exact filled.inside
  · dsimp only
    rcases split_done x y done with old | ⟨rfl, rfl⟩
    · have bound := filled.most x y old
      split <;> omega
    · split <;> omega
  · dsimp only
    rw [if_pos on]
    rcases split_done x y done with old | ⟨rfl, rfl⟩
    · have known := filled.marked on x y old
      obtain ⟨hx, hx', hy, hy', ok, before⟩ := old
      by_cases row : x = i
      · subst row
        have other : swCol g x y ≠ swCol g x j := fun same => by
          have equal := fits.apart x y j hx hx' hy hy' hj.1 hj.2 ok allowed same
          omega
        rw [update_self, update_of_ne other]
        exact known
      · rw [update_of_ne (by omega)]
        exact known
    · rw [update_self, update_self]
      exact mark

/-- The cells of a row: `prev` and what is written agree with the best scores as far as they
are read. -/
theorem swCells_filled (hi : 1 ≤ i ∧ i ≤ g.a.length) {first : Nat} (count j : Nat) {s : SwFill}
    (filled : Filled g i j s) (hj : 1 ≤ j) (start : first ≤ j)
    (cells : ∀ y, j ≤ y → y < j + count → y ≤ g.b.length ∧ swAllowed g.o i y = true)
    (above : 0 < count → ∀ y, j ≤ y + 1 → y < j + count → prev y = swBest g (i - 1) y)
    (before : ∀ y, first ≤ y + 1 → y < j → y ≤ g.b.length → s.cur y = swBest g i y) :
    Filled g i (j + count) (swCells g i prev count j s) ∧
      ∀ y, first ≤ y + 1 → y < j + count → y ≤ g.b.length → (swCells g i prev count j s).cur y = swBest g i y := by
  induction count generalizing j s with
  | zero => exact ⟨filled, before⟩
  | succ count ih =>
    obtain ⟨inside, allowed⟩ := cells j le_rfl (by omega)
    have past := above (by omega)
    obtain ⟨filled', written⟩ := swCell_filled fits small filled hi ⟨hj, inside⟩ allowed
      (past (j - 1) (by omega) (by omega))
      (past j (by omega) (by omega)) (before (j - 1) (by omega) (by omega) (by omega))
    have next := ih (j + 1) filled' (by omega) (by omega) (fun y low high => cells y (by omega) (by omega))
      (fun _ y low high => past y (by omega) (by omega)) fun y low high most => by
        rw [written]
        by_cases here : y = j
        · rw [here, update_self]
        · rw [update_of_ne here]
          exact before y low (by omega) most
    rw [show j + 1 + count = j + (count + 1) by omega] at next
    exact next

/-- One row. The cells beside the band are 0, as their best scores are. -/
theorem swRow_filled (hi : i < g.a.length) (filled : Filled g (i + 1) 1 s) (above : Window g i prev) :
    Filled g (i + 2) 1 (swRow g (i + 1) prev s) ∧ Window g (i + 1) (swRow g (i + 1) prev s).cur := by
  have inside : 1 ≤ i + 1 ∧ i + 1 ≤ g.a.length := ⟨by omega, hi⟩
  have pos := swFrom_pos g (i + 1)
  have mono := swFrom_mono g i
  have last := swTo_le g (i + 1)
  have grow := swTo_succ g i
  have allowed : ∀ y, 1 ≤ y → y ≤ g.b.length →
    (swAllowed g.o (i + 1) y = true ↔ swFrom g (i + 1) ≤ y ∧ y ≤ swTo g (i + 1)) :=
    fun y hy hy' => swAllowed_iff fits inside ⟨hy, hy'⟩
  -- nothing of this row lies left of the band
  have begun : Filled g (i + 1) (swFrom g (i + 1)) { s with cur := swClear g.b.length (swFrom g (i + 1)) s.cur } := by
    have same : ∀ x y, Done g (i + 1) (swFrom g (i + 1)) x y → Done g (i + 1) 1 x y := by
      rintro x y ⟨hx, hx', hy, hy', ok, earlier⟩
      refine ⟨hx, hx', hy, hy', ok, ?_⟩
      rcases earlier with row | ⟨rfl, column⟩
      · exact .inl row
      · have bounds := (allowed y hy hy').mp ok
        omega
    exact ⟨filled.top, filled.inside, fun x y done => filled.most x y (same x y done),
      fun on x y done => filled.marked on x y (same x y done)⟩
  obtain ⟨full, row⟩ := swCells_filled fits small inside (swTo g (i + 1) + 1 - swFrom g (i + 1))
    (swFrom g (i + 1)) begun pos le_rfl
    (fun y low high => ⟨by omega, (allowed y (by omega) (by omega)).mpr (by omega)⟩)
    (fun nonempty y low high => above y (by omega) (by omega) (by omega))
    fun y low high most => by
      dsimp only
      rw [swClear_left (by omega) most, swBest_outside fits inside most (by omega)]
  -- and nothing right of it
  have ended : ∀ x y, Done g (i + 2) 1 x y →
      Done g (i + 1) (swFrom g (i + 1) + (swTo g (i + 1) + 1 - swFrom g (i + 1))) x y := by
    rintro x y ⟨hx, hx', hy, hy', ok, earlier⟩
    refine ⟨hx, hx', hy, hy', ok, ?_⟩
    by_cases this : x = i + 1
    · subst this
      have bounds := (allowed y hy hy').mp ok
      omega
    · omega
  have complete : ∀ cur, Filled g (i + 2) 1
      { swCells g (i + 1) prev (swTo g (i + 1) + 1 - swFrom g (i + 1)) (swFrom g (i + 1))
          { s with cur := swClear g.b.length (swFrom g (i + 1)) s.cur } with cur := cur } :=
    fun cur => ⟨full.top, full.inside, fun x y done => full.most x y (ended x y done),
      fun on x y done => full.marked on x y (ended x y done)⟩
  unfold swRow
  dsimp only
  split_ifs with clear
  · refine ⟨complete _, fun x hx low high => ?_⟩
    dsimp only
    by_cases edge : x = swTo g (i + 1) + 1
    · rw [edge, update_self, swBest_outside fits inside clear.1 (by omega)]
    · rw [update_of_ne edge]
      exact row x low (by omega) hx
  · exact ⟨complete _, fun x hx low high => row x low (by omega) hx⟩

theorem swRows_filled (count i : Nat) (rest : i + count = g.a.length) {prev : Nat → Int} {s : SwFill}
    (filled : Filled g (i + 1) 1 s)
    (above : Window g i prev) : Filled g (g.a.length + 1) 1 (swRows g count (i + 1) prev s) := by
  induction count generalizing i prev s with
  | zero =>
    rw [← rest]
    exact filled
  | succ count ih =>
    obtain ⟨filled', row⟩ := swRow_filled fits small (by omega) filled above
    exact ih (i + 1) (by omega) ⟨filled'.top, filled'.inside, filled'.most, filled'.marked⟩ row

theorem swFill_filled : Filled g (g.a.length + 1) 1 (swFill g) := by
  refine swRows_filled fits small g.a.length 0 (by omega) ⟨(best_zero 0).symm, ⟨zero_le _, zero_le _⟩, ?_, ?_⟩
    fun x _ _ _ => (best_zero x).symm
  · rintro x y ⟨hx, _, _, _, _, before⟩
    omega
  · rintro _ x y ⟨hx, _, _, _, _, before⟩
    omega

end

theorem Filled.greatest (fits : g.Fits) (filled : Filled g (g.a.length + 1) 1 s) :
    IsGreatest (Scores (swScore g.a g.b g.o) g.o.gap (swAllowed g.o) g.a.length g.b.length) s.best := by
  rw [filled.top]
  refine isGreatest_best fits.valid.gap.2 filled.inside.1 filled.inside.2 fun x y hx hy => ?_
  change swBest g x y ≤ swBest g s.bi s.bj
  rw [← filled.top]
  by_cases done : Done g (g.a.length + 1) 1 x y
  · exact filled.most x y done
  -- every other cell is on the border or outside of the band
  · have zero : swBest g x y = 0 := by
      rcases Nat.eq_zero_or_pos x with rfl | hx'
      · exact best_zero y
      rcases Nat.eq_zero_or_pos y with rfl | hy'
      · exact best_side x
      refine best_out (eq_false_iff.mpr fun allowed => done ⟨hx', hx, hy', hy, allowed, by omega⟩)
    rw [zero, filled.top]
    exact swBest_nonneg g _ _

end Fill

section Traceback

def swHit (a b : List Nat) (i j : Nat) : Int := if a[i]? = b[j]? then 1 else 0

variable {g : SwGrid} {s : SwFill}

theorem swTraceback_path (fits : g.Fits) (filled : Filled g (g.a.length + 1) 1 s) (on : g.o.traceback = true)
    (fuel i j : Nat) (enough : i + j ≤ fuel) (hi : i ≤ g.a.length) (hj : j ≤ g.b.length) :
    let t := swTraceback g s.trace fuel i j
    Path (swScore g.a g.b g.o) g.o.gap (swAllowed g.o) t.i t.j t.ops.reverse i j (swBest g i j) ∧
      Path (swHit g.a g.b) 0 (swAllowed g.o) t.i t.j t.ops.reverse i j t.hits := by
  have stop : ∀ {x y : Nat}, swBest g x y = 0 →
    Path (swScore g.a g.b g.o) g.o.gap (swAllowed g.o) x y [] x y (swBest g x y) := by
    intro x y zero
    rw [zero]
    exact .nil
  induction fuel generalizing i j with
  | zero =>
    obtain rfl : i = 0 := by omega
    exact ⟨stop (best_zero j), .nil⟩
  | succ fuel ih =>
    rw [swTraceback]
    by_cases inside : 0 < i ∧ 0 < j
    swap
    · rw [if_neg inside]
      refine ⟨stop ?_, .nil⟩
      rcases Nat.eq_zero_or_pos i with rfl | pos
      · exact best_zero j
      · obtain rfl : j = 0 := by omega
        exact best_side i
    rw [if_pos inside]
    have column := fits.column i j inside.1 hi inside.2 hj
    have place : (if 0 ≤ g.o.band then j - i - g.lo else j).toNat = swCol g i j := by
      rw [swCol]
      split <;> simp
    generalize (if 0 ≤ g.o.band then j - i - g.lo else j) = k at column place ⊢
    by_cases out : k < 0 ∨ (g.width : Int) ≤ k
    · rw [if_pos out]
      exact ⟨stop (best_out (eq_false_iff.mpr fun allowed => column.mpr allowed out)), .nil⟩
    rw [if_neg out]
    have allowed := column.mp out
    have mark := filled.marked on i j ⟨inside.1, hi, inside.2, hj, allowed, by omega⟩
    rw [← place] at mark
    obtain ⟨x, rfl⟩ : ∃ x, i = x + 1 := ⟨i - 1, by omega⟩
    obtain ⟨y, rfl⟩ : ∃ y, j = y + 1 := ⟨j - 1, by omega⟩
    split
    · rename_i found
      rw [found] at mark
      exact ⟨stop mark, .nil⟩
    · rename_i found
      rw [found] at mark
      obtain ⟨scored, counted⟩ := ih x y (by omega) (by omega) (by omega)
      dsimp only [add_sub_cancel]
      rw [reverse_cons]
      refine ⟨?_, ?_⟩
      · rw [show swBest g (x + 1) (y + 1) = swBest g x y + swScore g.a g.b g.o x y from mark]
        exact scored.both allowed
      · have step := counted.both allowed
        rw [swHit] at step
        push_cast
        exact step
    · rename_i found
      rw [found] at mark
      obtain ⟨scored, counted⟩ := ih x (y + 1) (by omega) (by omega) (by omega)
      dsimp only [add_sub_cancel]
      rw [reverse_cons]
      refine ⟨?_, ?_⟩
      · rw [show swBest g (x + 1) (y + 1) = swBest g x (y + 1) + g.o.gap from mark]
        exact scored.first allowed
      · have step := counted.first allowed
        rwa [add_zero] at step
    · rename_i found
      rw [found] at mark
      obtain ⟨scored, counted⟩ := ih (x + 1) y (by omega) (by omega) (by omega)
      dsimp only [add_sub_cancel]
      rw [reverse_cons]
      refine ⟨?_, ?_⟩
      · rw [show swBest g (x + 1) (y + 1) = swBest g (x + 1) y + g.o.gap from mark]
        exact scored.second allowed
      · have step := counted.second allowed
        rwa [add_zero] at step

end Traceback

section Result

def swScores (a b : List Nat) (o : SwOpts) : Set Int := Scores (swScore a b o) o.gap (swAllowed o) a.length b.length

/-- The score is the greatest of all local alignments, and what the traceback reports is an
alignment with this score and these matches. -/
structure Optimal (a b : List Nat) (o : SwOpts) (r : SwResult) : Prop where
  score : IsGreatest (swScores a b o) r.score
  traced : o.traceback = true → ∃ hits ops, r.details = some (hits, swCigar ops) ∧
    r.aEnd ≤ a.length ∧ r.bEnd ≤ b.length ∧
    Path (swScore a b o) o.gap (swAllowed o) r.aStart r.bStart ops r.aEnd r.bEnd r.score ∧
    Path (swHit a b) 0 (swAllowed o) r.aStart r.bStart ops r.aEnd r.bEnd hits

variable {a b : List Nat} {o : SwOpts} {r : SwResult}

theorem swRun_cases (ran : swRun a b o = .ok r) :
    let f := swFill (swGrid a b o)
    r.score = f.best ∧ (o.traceback = true → r.score = 0 → r = ⟨0, 0, 0, 0, 0, some (0, "")⟩) ∧
      (o.traceback = true → r.score ≠ 0 → ∃ t, t = swTraceback (swGrid a b o) f.trace (f.bi + f.bj) f.bi f.bj ∧
        r = ⟨r.score, t.i, f.bi, t.j, f.bj, some (t.hits, swCigar t.ops.reverse)⟩) := by
  unfold swRun at ran
  dsimp only at ran
  generalize (if a.length = 0 then 0 else if swMaxCells / a.length < (swGrid a b o).width then 2 ^ 64 - 1
    else a.length * (swGrid a b o).width) = cells at ran
  by_cases big : swMaxCells < cells
  · rw [if_pos big] at ran
    contradiction
  rw [if_neg big] at ran
  by_cases long : o.traceback = true ∧ swMaxTrace < cells
  · rw [if_pos long] at ran
    contradiction
  rw [if_neg long] at ran
  by_cases on : o.traceback = true
  · rw [if_pos on] at ran
    split_ifs at ran with zero
    · rw [← ok.inj ran]
      exact ⟨zero.symm, fun _ _ => rfl, fun _ other => absurd rfl other⟩
    · rw [← ok.inj ran]
      exact ⟨rfl, fun _ other => absurd other zero, fun _ _ => ⟨_, rfl, rfl⟩⟩
  · rw [if_neg on] at ran
    rw [← ok.inj ran]
    exact ⟨rfl, fun other => absurd other on, fun other => absurd other on⟩

theorem swScores_greatest (a b : List Nat) {o : SwOpts} (valid : o.Valid) : ∃ S, IsGreatest (swScores a b o) S := by
  obtain ⟨top, inside, most⟩ := Finset.exists_max_image (Finset.range (a.length + 1) ×ˢ Finset.range (b.length + 1))
    (fun p => best (swScore a b o) o.gap (swAllowed o) p.1 p.2) ⟨(0, 0), by simp⟩
  rw [Finset.mem_product, Finset.mem_range, Finset.mem_range] at inside
  refine ⟨_, isGreatest_best valid.gap.2 (by omega) (by omega) fun x y hx hy => most (x, y) ?_⟩
  rw [Finset.mem_product, Finset.mem_range, Finset.mem_range]
  omega

theorem swRun_optimal (valid : o.Valid) (ran : swRun a b o = .ok r) {S : Int} (greatest : IsGreatest (swScores a b o) S)
    (small : S < 2 ^ 31) : Optimal a b o r := by
  obtain ⟨value, empty, found⟩ := swRun_cases ran
  obtain ⟨hga, hgb, hgo⟩ := swGrid_fields a b o
  have fits := swGrid_fits a b valid
  have filled : Filled (swGrid a b o) ((swGrid a b o).a.length + 1) 1 (swFill (swGrid a b o)) := by
    refine swFill_filled fits fun x y hx hy => ?_
    rw [hga] at hx
    rw [hgb] at hy
    rw [swBest, hga, hgb, hgo]
    obtain ⟨i₀, j₀, l, path⟩ := exists_path (swScore a b o) o.gap (swAllowed o) x y
    exact (greatest.2 ⟨i₀, j₀, l, x, y, hx, hy, path⟩).trans_lt small
  have top := filled.greatest fits
  rw [hga, hgb, hgo, ← value] at top
  refine ⟨top, fun on => ?_⟩
  by_cases zero : r.score = 0
  · rw [empty on zero]
    exact ⟨0, [], rfl, zero_le _, zero_le _, .nil, .nil⟩
  · obtain ⟨t, ht, shape⟩ := found on zero
    obtain ⟨scored, counted⟩ := swTraceback_path fits filled
      (by rw [hgo]; exact on) _ _ _ le_rfl filled.inside.1 filled.inside.2
    rw [← filled.top, ← value, ← ht, hga, hgb, hgo] at scored
    rw [← ht, hga, hgb, hgo] at counted
    have ends := filled.inside
    rw [hga, hgb] at ends
    rw [shape]
    exact ⟨t.hits, t.ops.reverse, rfl, ends.1, ends.2, scored, counted⟩

theorem smithWaterman_run {a b : SwInput} {opts : Option SwOptions} (read : swReadOpts opts = .ok o)
    (ran : smithWaterman a b opts = .ok r) : swRun a.symbols b.symbols o = .ok r := by
  obtain ⟨o', read', ran⟩ := bind_ok ran
  obtain rfl : o = o' := ok.inj (read.symm.trans read')
  obtain ⟨⟨x, y⟩, sequences, ran⟩ := bind_ok ran
  obtain ⟨rfl, rfl⟩ := swSequences_symbols sequences
  exact ran

/-- The result is optimal exactly when the greatest score is a 32-bit number. -/
theorem smith_waterman_optimal_iff (a b : SwInput) (opts : Option SwOptions) (o : SwOpts) (r : SwResult)
    (read : swReadOpts opts = .ok o) (ran : smithWaterman a b opts = .ok r) :
    ∃ S, IsGreatest (swScores a.symbols b.symbols o) S ∧ (Optimal a.symbols b.symbols o r ↔ S < 2 ^ 31) := by
  have valid := swReadOpts_valid read
  have run := smithWaterman_run read ran
  obtain ⟨S, greatest⟩ := swScores_greatest a.symbols b.symbols valid
  refine ⟨S, greatest, fun optimal => ?_, swRun_optimal valid run greatest⟩
  rw [greatest.unique optimal.score, (swRun_cases run).1]
  exact swFill_best _

theorem smith_waterman_optimal_pair :
    ∃ r, smithWaterman (.tokens [1, 2, 2]) (.tokens [3, 1, 2]) none = .ok r ∧ r.score = 4 ∧
      ∃ S, IsGreatest (swScores [1, 2, 2] [3, 1, 2] ⟨2, -1, -1, -1, 0, true⟩) S ∧
        (Optimal [1, 2, 2] [3, 1, 2] ⟨2, -1, -1, -1, 0, true⟩ r ↔ S < 2 ^ 31) :=
  ⟨⟨4, 0, 2, 1, 3, some (2, "2M")⟩, by rfl, rfl,
    smith_waterman_optimal_iff (.tokens [1, 2, 2]) (.tokens [3, 1, 2]) none _ _ rfl (by rfl)⟩

theorem diagonal_path (x n : Nat) (o : SwOpts) (diagonal : o.diagonal = 0) (band : 0 ≤ o.band) (k : Nat) (hk : k ≤ n) :
    Path (swScore (List.replicate n x) (List.replicate n x) o) o.gap (swAllowed o) 0 0 (List.replicate k .both) k k
      (k * o.matched) := by
  induction k with
  | zero =>
    rw [cast_zero, zero_mul]
    exact .nil
  | succ k ih =>
    have allowed : swAllowed o (k + 1) (k + 1) = true := by
      rw [swAllowed, or_eq_true, decide_eq_true_eq, decide_eq_true_eq, diagonal, sub_self]
      exact .inr band
    have step := (ih (by omega)).both allowed
    rw [swScore, if_pos rfl, ← replicate_succ'] at step
    rwa [cast_succ, add_mul, one_mul]

def swDiagonal : SwOptions := ⟨["match", "band"], some ⟨0x408F400000000000⟩, none, none, some ⟨0⟩, none, none⟩

theorem swIntOpt_some {key : String} {lo hi out x : Int} {d : Double} (value : d.intValue = some x)
    (inside : lo ≤ x ∧ x ≤ hi) :
    swIntOpt key lo hi (some d) out = .ok x := by
  unfold swIntOpt
  dsimp only
  rw [value]
  exact if_pos inside

theorem swDiagonal_read : swReadOpts (some swDiagonal) = .ok ⟨1000, -1, -1, 0, 0, true⟩ := by
  have matched : swIntOpt "match" 1 swScoreLimit swDiagonal.matched 2 = .ok 1000 :=
    swIntOpt_some (by decide +kernel) (by decide)
  have band : swIntOpt "band" 0 (2 ^ 30) swDiagonal.band (-1) = .ok 0 := swIntOpt_some (by decide +kernel) (by decide)
  have names : swDiagonal.names.find? (fun name => !swKeys.contains name) = none := by decide +kernel
  rw [swReadOpts, names]
  rw [swReadValues, band]
  rfl

theorem swRun_narrow (a b : List Nat) {o : SwOpts} (band : o.band = 0) (short : a.length ≤ swMaxTrace) :
    ∃ r, swRun a b o = .ok r := by
  have width : (swGrid a b o).width = 1 := by
    rw [swGrid, band]
    rfl
  have most : swMaxTrace ≤ swMaxCells := by decide
  have cells : (if a.length = 0 then 0 else if swMaxCells / a.length < 1 then 2 ^ 64 - 1 else a.length * 1) =
    a.length := by
    by_cases empty : a.length = 0
    · rw [if_pos empty, empty]
    · have fits : 1 ≤ swMaxCells / a.length := (one_le_div_iff (by omega)).mpr (by omega)
      rw [if_neg empty, if_neg (by omega), mul_one]
  unfold swRun
  dsimp only
  rw [width, if_neg (by omega), if_neg (by omega)]
  split
  · split
    · exact ⟨_, rfl⟩
    · exact ⟨_, rfl⟩
  · exact ⟨_, rfl⟩

/-- A diagonal of equal pairs: the score that is reported is a 32-bit number. -/
theorem diagonal_run (n : Nat) (short : n ≤ swMaxTrace) :
    ∃ r, smithWaterman (.tokens (List.replicate n 7)) (.tokens (List.replicate n 7)) (some swDiagonal) = .ok r ∧
      r.score < 2 ^ 31 ∧
      (n : Int) * 1000 ∈ swScores (List.replicate n 7) (List.replicate n 7) ⟨1000, -1, -1, 0, 0, true⟩ := by
  obtain ⟨r, ran⟩ : ∃ r, swRun (List.replicate n 7) (List.replicate n 7) ⟨1000, -1, -1, 0, 0, true⟩ = .ok r := by
    refine swRun_narrow _ _ rfl ?_
    rw [length_replicate]
    exact short
  refine ⟨r, ?_, ?_, ?_⟩
  · rw [smithWaterman, swDiagonal_read]
    change swRun ((List.replicate n 7).map UInt32.toNat) ((List.replicate n 7).map UInt32.toNat) _ = _
    rw [map_replicate]
    exact ran
  · rw [(swRun_cases ran).1]
    exact swFill_best _
  · have path := diagonal_path 7 n ⟨1000, -1, -1, 0, 0, true⟩ rfl le_rfl n le_rfl
    refine ⟨0, 0, _, n, n, ?_, ?_, path⟩
    · rw [length_replicate]
    · rw [length_replicate]

/-- 2147484 equal pairs score 2147484000, which does not fit. -/
theorem long_diagonal_wraps :
    ∃ r, smithWaterman (.tokens (List.replicate 2147484 7)) (.tokens (List.replicate 2147484 7))
        (some swDiagonal) = .ok r ∧
      ¬Optimal (List.replicate 2147484 7) (List.replicate 2147484 7) ⟨1000, -1, -1, 0, 0, true⟩ r := by
  obtain ⟨r, ran, small, scored⟩ := diagonal_run 2147484 (by decide)
  refine ⟨r, ran, fun optimal => ?_⟩
  have most := optimal.score.2 scored
  omega

end Result

end DynaJS.Approx
