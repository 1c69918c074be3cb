import DynaJS.Approx.Myers
import DynaJS.Engine.Double

/-! `dyn_levenshtein`: the banded dynamic program for long operands, the choice of the kernel
and the bound. -/
namespace DynaJS.Approx

open Function Edit Engine Except List

def levInf : Nat := (2 ^ 64 - 1) / 4

def levMaxCells : Nat := 400000000

def dpLo (band i : Nat) : Nat := if band < i then i - band else 1

def dpHi (band m i : Nat) : Nat := if i + band < m then i + band else m

def dpCells (differ : Nat → Bool) (prev : Nat → Nat) : Nat → Nat → (Nat → Nat) → Nat → Nat
  | 0, _, cur => cur
  | count + 1, j, cur =>
    let del := prev j + 1
    let ins := cur (j - 1) + 1
    let sub := prev (j - 1) + if differ (j - 1) then 1 else 0
    let v := if del < ins then del else ins
    dpCells differ prev count (j + 1) (update cur j (if v < sub then v else sub))

def dpRow (differ : Nat → Nat → Bool) (m band i : Nat) (prev cur : Nat → Nat) : Nat → Nat :=
  let lo := dpLo band i
  let hi := dpHi band m i
  let cur := update cur (lo - 1) (if lo = 1 then i else levInf)
  let cur := dpCells (differ (i - 1)) prev (hi + 1 - lo) lo cur
  if hi < m then update cur (hi + 1) levInf else cur

def dpRows (differ : Nat → Nat → Bool) (m band : Nat) : Nat → Nat → (Nat → Nat) → (Nat → Nat) → Nat → Nat
  | 0, _, prev, _ => prev
  | count + 1, i, prev, cur => dpRows differ m band count (i + 1) (dpRow differ m band i prev cur) prev

def levDpBody {C : Type} [DecidableEq C] (A B : List C) (band : Nat) (row : Nat → Nat) : Nat :=
  let m := B.length
  dpRows (fun i j => A[i]? != B[j]?) m band A.length 1 (fun j => if j ≤ m then j else row j)
    (fun j => row (m + 2 + j)) m

def levDpU8 (A B : List UInt8) (band : Nat) (row : Nat → Nat) : Nat := levDpBody A B band row

def levDpCp (A B : List Nat) (band : Nat) (row : Nat → Nat) : Nat := levDpBody A B band row

/-- What the masks of `dyn_eq_t` and the allocated rows hold before they are written. -/
structure Scratch where
  masks : Nat → BitVec 64
  row : Nat → Nat

def levReadMax (v : Option Double) (fname : String) : Except Thrown Int :=
  match v with
  | none => .ok (-1)
  | some v =>
    if v.toInt64 < 0 then .error (.rangeError (fname ++ "(a, b, \x7b max \x7d): max must be >= 0")) else .ok v.toInt64

def tooManyCells (n m : Nat) (hint : String) : Thrown :=
  .rangeError ("Levenshtein: " ++ toString n ++ " x " ++ toString m ++ " exceeds 400000000 cells" ++ hint)

def levDist (mem : Scratch) (maxv : Int) (pat txt : Operand) : Except Thrown Nat :=
  let m := pat.n
  let n := txt.n
  if m = 0 then .ok n
  else if m ≤ 64 then
    if pat.ascii && txt.ascii then .ok (levMyersU8 pat.u8 txt.u8)
    else .ok (levMyersCp mem.masks (operandWiden pat).cp (operandWiden txt).cp)
  else
    let band := if maxv < 0 then n else maxv.toNat
    let width := if m ≤ band then m else 2 * band + 1
    if levMaxCells / width < n then .error (tooManyCells n m " even with \x7b max \x7d; shorten the input")
    else if pat.ascii && txt.ascii then .ok (levDpU8 txt.u8 pat.u8 band mem.row)
    else .ok (levDpCp (operandWiden txt).cp (operandWiden pat).cp band mem.row)

def levPair (mem : Scratch) (maxv : Int) (pat txt : Operand) : Except Thrown Nat :=
  let m := pat.n
  let n := txt.n
  if maxv < 0 ∧ m ≠ 0 ∧ levMaxCells / m < n then
    .error (tooManyCells n m "; pass \x7b max \x7d to bound the distance, or shorten the input")
  else if 0 ≤ maxv ∧ maxv.toNat < n - m then .ok (maxv.toNat + 1)
  else
    match levDist mem maxv pat txt with
    | .error e => .error e
    | .ok dist => .ok (if 0 ≤ maxv ∧ maxv.toNat < dist then maxv.toNat + 1 else dist)

def levenshtein (mem : Scratch) (a b : JsString) (max : Option Double) : Except Thrown Nat :=
  match levReadMax max "Levenshtein", operandGet a "a", operandGet b "b" with
  | .error e, _, _ => .error e
  | _, .error e, _ => .error e
  | _, _, .error e => .error e
  | .ok maxv, .ok A, .ok B => if A.n ≤ B.n then levPair mem maxv A B else levPair mem maxv B A

section Banded

variable {differ : Nat → Nat → Bool} {band m : Nat}

/-- Cells of row `i` as far as the band needs them: never too small, and right when small. -/
def Good (differ : Nat → Nat → Bool) (band i : Nat) (first last : Nat) (row : Nat → Nat) : Prop :=
  ∀ j, first ≤ j → j ≤ last → table differ i j ≤ row j ∧ (table differ i j ≤ band → row j = table differ i j)

theorem Good.update_past {i first last j : Nat} {row : Nat → Nat} (good : Good differ band i first last row)
    (past : last < j) (v : Nat) (fits : table differ i j ≤ v ∧ (table differ i j ≤ band → v = table differ i j))
    (next : j ≤ last + 1) : Good differ band i first (last + 1) (update row j v) := by
  intro k low high
  by_cases here : k = j
  · rw [here, update_self]
    exact fits
  · rw [update_of_ne here]
    exact good k low (by omega)

theorem good_cell {i j : Nat} {prev cur : Nat → Nat} {first last : Nat}
    (above : Good differ band i first last prev) (inside : first ≤ j ∧ j + 1 ≤ last)
    (left : table differ (i + 1) j ≤ cur j ∧ (table differ (i + 1) j ≤ band → cur j = table differ (i + 1) j)) :
    let v := if prev (j + 1) + 1 < cur j + 1 then prev (j + 1) + 1 else cur j + 1
    let sub := prev j + if differ i j then 1 else 0
    let cell := if v < sub then v else sub
    table differ (i + 1) (j + 1) ≤ cell ∧ (table differ (i + 1) (j + 1) ≤ band →
      cell = table differ (i + 1) (j + 1)) := by
  have up := above (j + 1) (by omega) inside.2
  have diagonal := above j inside.1 (by omega)
  have cell := table_succ differ i j
  intro v sub value
  have shape : value = min (min (prev (j + 1) + 1) (cur j + 1)) (prev j + if differ i j then 1 else 0) := by
    dsimp only [value, v, sub]
    split_ifs <;> omega
  rw [shape]
  omega

variable {prev : Nat → Nat}

theorem dpCells_good {i first last lo : Nat} (above : Good differ band i first last prev) (count j : Nat)
    (cur : Nat → Nat) (low : first ≤ j) (high : j + count ≤ last) (start : lo ≤ j)
    (left : Good differ band (i + 1) lo j cur) :
    Good differ band (i + 1) lo (j + count) (dpCells (differ i) prev count (j + 1) cur) := by
  induction count generalizing j cur with
  | zero => exact left
  | succ count ih =>
    have value := good_cell above ⟨low, by omega⟩ (left j start le_rfl)
    have next := ih (j + 1) _ (by omega) (by omega) (by omega) (left.update_past (Nat.lt_succ_self j) _ value le_rfl)
    rw [show j + 1 + count = j + (count + 1) by omega] at next
    exact next

/-- One row keeps the band good: the cells beside it stand for more than the band allows. -/
theorem dpRow_good {i : Nat} (cur : Nat → Nat)
    (above : Good differ band i (dpLo band i - 1) (min (dpHi band m i + 1) m) prev) (narrow : i + 1 ≤ m + band)
    (some : 0 < m) (large : max (i + 1) m ≤ levInf) :
    Good differ band (i + 1) (dpLo band (i + 1) - 1) (min (dpHi band m (i + 1) + 1) m)
      (dpRow differ m band (i + 1) prev cur) := by
  have infinite : ∀ j, j ≤ m → (band + j < i + 1 ∨ i + 1 + band < j) → table differ (i + 1) j ≤ levInf ∧
      (table differ (i + 1) j ≤ band → levInf = table differ (i + 1) j) := by
    intro j inside outside
    have lower := table_lower differ (i + 1) j
    have upper := table_upper differ (i + 1) j
    refine ⟨by omega, fun small => ?_⟩
    omega
  have lo : dpLo band (i + 1) = if band < i + 1 then i + 1 - band else 1 := rfl
  have hi : dpHi band m (i + 1) = if i + 1 + band < m then i + 1 + band else m := rfl
  have before_lo : dpLo band i = if band < i then i - band else 1 := rfl
  have before_hi : dpHi band m i = if i + band < m then i + band else m := rfl
  obtain ⟨l, low⟩ : ∃ l, dpLo band (i + 1) = l + 1 := by
    refine ⟨dpLo band (i + 1) - 1, ?_⟩
    split at lo <;> omega
  rw [dpRow, low]
  -- the cell left of the band
  have left : Good differ band (i + 1) l l (update cur l (if l + 1 = 1 then i + 1 else levInf)) := by
    intro j above_l below_l
    obtain rfl : j = l := by omega
    rw [update_self]
    by_cases edge : j = 0
    · rw [edge, table_side]
      exact ⟨le_rfl, fun _ => rfl⟩
    · rw [if_neg (by omega)]
      refine infinite j ?_ (.inl ?_) <;> split at lo <;> omega
  have cells := dpCells_good above (dpHi band m (i + 1) - l) l _ (by split_ifs at lo before_lo <;> omega)
    (by split_ifs at lo hi before_hi <;> omega) le_rfl left
  rw [show l + (dpHi band m (i + 1) - l) = dpHi band m (i + 1) by split_ifs at lo hi <;> omega] at cells
  rw [show dpHi band m (i + 1) + 1 - (l + 1) = dpHi band m (i + 1) - l by omega]
  by_cases short : dpHi band m (i + 1) < m
  · rw [if_pos short, min_eq_left short]
    refine cells.update_past (Nat.lt_succ_self _) _ (infinite _ short (.inr ?_)) le_rfl
    split at hi <;> omega
  · rw [if_neg short, min_eq_right (by omega)]
    have whole : dpHi band m (i + 1) = m := by split at hi <;> omega
    rw [whole] at cells ⊢
    exact cells

theorem dpRows_good (count i : Nat) (cur : Nat → Nat)
    (above : Good differ band i (dpLo band i - 1) (min (dpHi band m i + 1) m) prev) (narrow : i + count ≤ m + band)
    (some : 0 < m) (large : max (i + count) m ≤ levInf) :
    Good differ band (i + count) (dpLo band (i + count) - 1) (min (dpHi band m (i + count) + 1) m)
      (dpRows differ m band count (i + 1) prev cur) := by
  induction count generalizing i prev cur with
  | zero => exact above
  | succ count ih =>
    have next := ih (i + 1) prev (dpRow_good cur above (by omega) some (by omega)) (by omega) (by omega)
    rw [show i + 1 + count = i + (count + 1) by omega] at next
    exact next

theorem levDpBody_spec {C : Type} [DecidableEq C] (A B : List C) (band : Nat) (row : Nat → Nat) (some : 0 < B.length)
    (longer : B.length ≤ A.length) (narrow : A.length ≤ B.length + band) (large : A.length ≤ levInf) :
    distance A B ≤ levDpBody A B band row ∧ (distance A B ≤ band → levDpBody A B band row = distance A B) := by
  have start : Good (fun i j => A[i]? != B[j]?) band 0 (dpLo band 0 - 1) (min (dpHi band B.length 0 + 1) B.length)
      (fun j => if j ≤ B.length then j else row j) := by
    intro j _ inside
    rw [table_zero]
    dsimp only
    rw [if_pos (le_trans inside (min_le_right _ _))]
    exact ⟨le_rfl, fun _ => rfl⟩
  have run := dpRows_good A.length 0 (fun j => row (B.length + 2 + j)) start (by omega) some (by omega)
  have final := run B.length (by rw [dpLo]; split <;> omega) (by rw [dpHi]; split <;> omega)
  rw [zero_add, table_eq A B le_rfl le_rfl, take_length, take_length] at final
  exact final

end Banded

section Exact

variable {mem : Scratch} {pat txt : Operand} {p t : List Nat} {maxv : Int}

theorem levDist_spec (first : pat.Holds p) (second : txt.Holds t) (longer : p.length ≤ t.length)
    (narrow : 0 ≤ maxv → t.length ≤ p.length + maxv.toNat) {dist : Nat} (ran : levDist mem maxv pat txt = .ok dist) :
    distance p t ≤ dist ∧ ((maxv < 0 ∨ distance p t ≤ maxv.toNat) → dist = distance p t) := by
  have exact_case : dist = distance p t →
      distance p t ≤ dist ∧ ((maxv < 0 ∨ distance p t ≤ maxv.toNat) → dist = distance p t) :=
    fun same => ⟨same.ge, fun _ => same⟩
  rw [levDist, first.count, second.count] at ran
  dsimp only at ran
  split at ran
  case isTrue empty =>
    rw [length_eq_zero_iff] at empty
    exact exact_case (by rw [← ok.inj ran, empty, distance])
  split at ran
  case isTrue some word =>
    split at ran
    case isTrue plain =>
      rw [Bool.and_eq_true] at plain
      obtain ⟨shape_p, -⟩ := first.bytes plain.1
      obtain ⟨shape_t, -⟩ := second.bytes plain.2
      have size : pat.u8.length = p.length := by rw [← shape_p, length_map]
      refine exact_case ?_
      rw [← ok.inj ran, levMyersU8_eq _ _ (by omega) (by omega), shape_p, shape_t]
    case isFalse =>
      refine exact_case ?_
      rw [← ok.inj ran, operandWiden_cp first, operandWiden_cp second,
        levMyersCp_eq _ _ _ (by omega) word fun c member => ?_]
      have valid := first.valid c member
      unfold eqEmpty
      omega
  case isFalse some long =>
    have limit : t.length ≤ levInf := le_trans second.limit (by decide)
    have upper := distance_le_max p t
    generalize reach : (if maxv < 0 then t.length else maxv.toNat) = band at ran
    generalize (if p.length ≤ band then p.length else 2 * band + 1) = width at ran
    have wide : t.length ≤ p.length + band := by
      split at reach <;> omega
    split at ran
    · contradiction
    have program : distance t p ≤ dist ∧ (distance t p ≤ band → dist = distance t p) := by
      split at ran
      case isTrue plain =>
        rw [Bool.and_eq_true] at plain
        obtain ⟨shape_p, -⟩ := first.bytes plain.1
        obtain ⟨shape_t, -⟩ := second.bytes plain.2
        have size_p : pat.u8.length = p.length := by rw [← shape_p, length_map]
        have size_t : txt.u8.length = t.length := by rw [← shape_t, length_map]
        rw [← ok.inj ran, ← shape_p, ← shape_t, distance_map fun x y same => UInt8.toNat_inj.mp same]
        exact levDpBody_spec txt.u8 pat.u8 band mem.row (by omega) (by omega) (by omega) (by omega)
      case isFalse =>
        rw [← ok.inj ran, operandWiden_cp first, operandWiden_cp second]
        exact levDpBody_spec t p band mem.row (by omega) longer wide limit
    rw [distance_comm t p] at program
    refine ⟨program.1, fun small => program.2 ?_⟩
    split at reach <;> omega

def clamped (d : Nat) (maxv : Int) : Nat := if maxv < 0 then d else min d (maxv.toNat + 1)

theorem levPair_spec (first : pat.Holds p) (second : txt.Holds t) (longer : p.length ≤ t.length) {r : Nat}
    (ran : levPair mem maxv pat txt = .ok r) : r = clamped (distance p t) maxv := by
  have lower := length_le_distance p t
  rw [levPair, first.count, second.count] at ran
  split at ran
  · contradiction
  split at ran
  case isTrue far =>
    rw [← ok.inj ran, clamped, if_neg (by omega)]
    omega
  case isFalse near =>
    cases found : levDist mem maxv pat txt with
    | error e =>
      rw [found] at ran
      contradiction
    | ok dist =>
      have spec := levDist_spec first second longer (fun bounded => by omega) found
      rw [found] at ran
      rw [← ok.inj ran, clamped]
      by_cases free : maxv < 0
      · rw [if_neg (by omega), if_pos free]
        exact spec.2 (.inl free)
      · rw [if_neg free]
        split <;> omega

/-- What a call that returns gives, in terms of the bound as it was read. -/
theorem levenshtein_clamped {a b : JsString} {max : Option Double} {r : Nat} (ran : levenshtein mem a b max = .ok r) :
    ∃ maxv, levReadMax max "Levenshtein" = .ok maxv ∧
      r = clamped (distance (codePoints a.units) (codePoints b.units)) maxv := by
  rw [levenshtein] at ran
  split at ran
  · contradiction
  · contradiction
  · contradiction
  · rename_i maxv A B read got_a got_b
    have first := operandGet_holds got_a
    have second := operandGet_holds got_b
    refine ⟨maxv, read, ?_⟩
    rw [first.count, second.count] at ran
    split at ran
    · exact levPair_spec first second ‹_› ran
    · rw [distance_comm]
      exact levPair_spec second first (by omega) ran

end Exact

section Bound

/-- A number with `max >= 0`: no NaN, and the sign only of a zero. -/
def NonNegative (x : Double) : Prop :=
  (x.exponent = 2047 → x.fraction = 0) ∧ (x.sign = true → x.exponent = 0 ∧ x.fraction = 0)

def numberValue (x : Double) : WithTop ℚ :=
  if x.exponent = 2047 then ⊤
  else (((if x.exponent = 0 then x.fraction else x.fraction + 2 ^ 52 : Nat) *
    2 ^ max x.exponent 1 / 2 ^ 1075 : ℚ) : WithTop ℚ)

theorem truncated_le (x : Double) :
    (x.truncated : ℚ) ≤ (if x.exponent = 0 then x.fraction else x.fraction + 2 ^ 52 : Nat) *
      2 ^ max x.exponent 1 / 2 ^ 1075 := by
  rw [Double.truncated, le_div_iff₀ (by positivity)]
  generalize (if x.exponent = 0 then x.fraction else x.fraction + 2 ^ 52) = f
  generalize max x.exponent 1 = k
  have ring : ((if 1075 ≤ k then f * 2 ^ (k - 1075) else f / 2 ^ (1075 - k)) * 2 ^ 1075 : Nat) ≤ f * 2 ^ k := by
    split_ifs with whole
    · rw [Nat.mul_assoc, ← Nat.pow_add, Nat.sub_add_cancel whole]
    · calc f / 2 ^ (1075 - k) * 2 ^ 1075 = f / 2 ^ (1075 - k) * 2 ^ (1075 - k) * 2 ^ k := by
            rw [Nat.mul_assoc, ← Nat.pow_add, Nat.sub_add_cancel (by omega)]
        _ ≤ f * 2 ^ k := Nat.mul_le_mul_right _ (Nat.div_mul_le_self _ _)
  exact_mod_cast ring

theorem toInt64_le_truncated {x : Double} (given : NonNegative x) : x.toInt64 ≤ x.truncated := by
  rw [Double.toInt64]
  by_cases cast : x.exponent ≤ 1023 + 62
  · rw [if_pos cast]
    split <;> omega
  rw [if_neg cast]
  by_cases wrap : x.exponent ≤ 1023 + 62 + 53
  · have positive : x.sign = false := by
      cases side : x.sign with
      | false => rfl
      | true =>
        have zero := (given.2 side).1
        omega
    have whole : x.truncated = (x.fraction + 2 ^ 52) <<< (x.exponent - 1023 - 52) := by
      rw [Double.truncated, if_neg (show ¬x.exponent = 0 by omega), max_eq_left (by omega),
        if_pos (by omega), Nat.shiftLeft_eq, Nat.sub_sub]
    rw [if_pos wrap, positive, whole]
    dsimp only
    rw [if_neg Bool.false_ne_true, BitVec.toInt_eq_toNat_cond, BitVec.toNat_ofNat]
    split <;> omega
  · rw [if_neg wrap]
    exact Int.natCast_nonneg _

theorem toInt64_le {x : Double} (given : NonNegative x) : ((x.toInt64 : ℚ) : WithTop ℚ) ≤ numberValue x := by
  rw [numberValue]
  by_cases infinite : x.exponent = 2047
  · rw [if_pos infinite]
    exact le_top
  · rw [if_neg infinite, WithTop.coe_le_coe]
    refine le_trans ?_ (truncated_le x)
    exact_mod_cast toInt64_le_truncated given

def promised (d : Nat) : Option Double → WithTop ℚ
  | none => ((d : ℚ) : WithTop ℚ)
  | some x => min ((d : ℚ) : WithTop ℚ) (numberValue x + 1)

/-- A call that returns gives the distance, cut at the bound, exactly when the bound is a whole
number that fits in 64 bits or the distance does not pass the number read for it. -/
theorem levenshtein_exact_iff (mem : Scratch) (a b : JsString) (max : Option Double)
    (given : ∀ x, max = some x → NonNegative x) (r : Nat) (ran : levenshtein mem a b max = .ok r) :
    ((r : ℚ) : WithTop ℚ) = promised (distance (codePoints a.units) (codePoints b.units)) max ↔
      ∀ x, max = some x → numberValue x = ((x.toInt64 : ℚ) : WithTop ℚ) ∨
        (distance (codePoints a.units) (codePoints b.units) : Int) ≤ x.toInt64 + 1 := by
  obtain ⟨maxv, read, value⟩ := levenshtein_clamped ran
  generalize distance (codePoints a.units) (codePoints b.units) = d at value ⊢
  cases max with
  | none =>
    have absent : maxv = -1 := (ok.inj read).symm
    rw [absent] at value
    rw [value]
    exact ⟨fun _ x none => by contradiction, fun _ => rfl⟩
  | some x =>
    have below := toInt64_le (given x rfl)
    rw [levReadMax] at read
    split at read
    · contradiction
    rename_i least
    have same : maxv = x.toInt64 := (ok.inj read).symm
    rw [clamped, same, if_neg least] at value
    rw [promised]
    have shape : (∀ y, some x = some y → numberValue y = ((y.toInt64 : ℚ) : WithTop ℚ) ∨ d ≤ y.toInt64 + 1) ↔
        numberValue x = ((x.toInt64 : ℚ) : WithTop ℚ) ∨ d ≤ x.toInt64 + 1 := by
      refine ⟨fun all => all x rfl, fun holds y known => ?_⟩
      obtain rfl := Option.some.inj known
      exact holds
    rw [shape]
    obtain ⟨k, bound⟩ : ∃ k : Nat, x.toInt64 = k := ⟨x.toInt64.toNat, by omega⟩
    rw [bound] at value below ⊢
    rw [Int.toNat_natCast] at value
    cases top : numberValue x with
    | top =>
      rw [WithTop.top_add, min_eq_left le_top, value]
      constructor
      · intro equal
        have whole : min d (k + 1) = d := by exact_mod_cast equal
        exact .inr (by omega)
      · rintro (never | small)
        · exact absurd never WithTop.top_ne_coe
        · rw [min_eq_left (by omega)]
    | coe q =>
      rw [top, WithTop.coe_le_coe] at below
      have cast : (q + 1) = ((q + 1 : ℚ) : WithTop ℚ) := rfl
      rw [cast, ← WithTop.coe_min, WithTop.coe_inj, WithTop.coe_inj, value]
      rw [Int.cast_natCast] at below ⊢
      by_cases small : d ≤ k + 1
      · have fits : d ≤ q + 1 := by
          have whole : (d : ℚ) ≤ k + 1 := by exact_mod_cast small
          linarith
        rw [min_eq_left small, min_eq_left fits]
        exact ⟨fun _ => .inr (by omega), fun _ => rfl⟩
      · have passed : (k : ℚ) + 1 < d := by exact_mod_cast Nat.lt_of_not_le small
        rw [min_eq_right (by omega), Nat.cast_add, Nat.cast_one]
        constructor
        · intro equal
          refine .inl ?_
          rcases min_choice (d : ℚ) (q + 1) with least | least <;> rw [least] at equal <;> linarith
        · rintro (exact_bound | small')
          · rw [exact_bound, min_eq_right (le_of_lt passed)]
          · omega

def asciiText (bytes : List UInt8) : JsString where
  units := bytes.map fun b => UInt16.ofNat b.toNat
  wide := false
  narrow := fun _ c member => by
    obtain ⟨b, -, rfl⟩ := mem_map.mp member
    have small := b.toNat_lt
    rw [UInt16.toNat_ofNat', Nat.mod_eq_of_lt (by omega)]
    omega

/-- "kitten" and "sitting" with `max: 5`. -/
theorem levenshtein_exact_kitten :
    let a := asciiText [107, 105, 116, 116, 101, 110]
    let b := asciiText [115, 105, 116, 116, 105, 110, 103]
    let five : Double := ⟨0x4014000000000000⟩
    levenshtein ⟨fun _ => 0, fun _ => 0⟩ a b (some five) = .ok 3 ∧
      (((3 : Nat) : ℚ) : WithTop ℚ) = promised (distance (codePoints a.units) (codePoints b.units)) (some five) := by
  intro a b five
  have ran : levenshtein ⟨fun _ => 0, fun _ => 0⟩ a b (some five) = .ok 3 := by decide +kernel
  have far : distance (codePoints a.units) (codePoints b.units) = 3 :=
    (levMyersU8_eq [107, 105, 116, 116, 101, 110] [115, 105, 116, 116, 105, 110, 103]
      (by decide) (by decide)).symm.trans
      (by decide +kernel)
  refine ⟨ran, (levenshtein_exact_iff _ a b (some five) (fun x known => ?_) 3 ran).mpr fun x known => .inr ?_⟩
  · rw [← Option.some.inj known]
    exact ⟨by decide +kernel, by decide +kernel⟩
  · rw [← Option.some.inj known, far]
    decide +kernel

/-- "abc" and "xyz" with `max: Infinity`: the bound is read as 0, and 1 is returned for the
distance 3. -/
theorem infinite_max_is_read_as_zero :
    let a := asciiText [97, 98, 99]
    let b := asciiText [120, 121, 122]
    NonNegative Double.infinity ∧ levenshtein ⟨fun _ => 0, fun _ => 0⟩ a b (some Double.infinity) = .ok 1 ∧
      promised (distance (codePoints a.units) (codePoints b.units)) (some Double.infinity) =
        (((3 : Nat) : ℚ) : WithTop ℚ) := by
  intro a b
  have far : distance (codePoints a.units) (codePoints b.units) = 3 :=
    (levMyersU8_eq [97, 98, 99] [120, 121, 122] (by decide) (by decide)).symm.trans (by decide +kernel)
  refine ⟨⟨by decide +kernel, by decide +kernel⟩, by decide +kernel, ?_⟩
  rw [far, promised, numberValue, if_pos (by decide +kernel), WithTop.top_add, min_eq_left le_top]

end Bound

end DynaJS.Approx
