import DynaJS.Dec.Div

/-! Square roots of decimals. -/
namespace DynaJS.Dec

open DynaJS.Digits List
open DynaJS.Rounding
open Nat (ofDigits)

def twenty (root : List Nat) : List Nat :=
  let double := carry 10 0 (root.map (· * 2))
  let b := double.1 ++ if double.2 = 0 then [] else [double.2]
  strip (if b = [] then [] else 0 :: b)

def prodOf (b20 : List Nat) (d : Nat) : List Nat :=
  let times := carry 10 (d * d) (b20.map (· * d))
  strip (times.1 ++ Nat.digits 10 times.2)

def tryDigits (b20 rem : List Nat) : Nat → Nat × List Nat
  | 0 => (0, if decGe rem (prodOf b20 0) then decSubInto rem (prodOf b20 0) else rem)
  | d + 1 =>
    if decGe rem (prodOf b20 (d + 1)) then (d + 1, decSubInto rem (prodOf b20 (d + 1)))
    else tryDigits b20 rem d

def pairs : List Nat → List (Nat × Nat)
  | hd :: ld :: rest => (hd, ld) :: pairs rest
  | _ => []

/-- The loop of `dec_isqrt`; the `i`-th request is for `prod`. -/
def sqrtLoop (mem : Nat → Bool) : Nat → List (Nat × Nat) → List Nat → List Nat → Option (List Nat × List Nat)
  | _, [], root, rem => some (root, rem)
  | i, (hd, ld) :: rest, root, rem =>
    if ¬ mem i then none
    else
      let digit := tryDigits (twenty root) (strip (ld :: hd :: rem)) 9
      sqrtLoop mem (i + 1) rest (digit.1 :: root) digit.2

/-- `dec_isqrt`: root and remainder of a number written from the top; an odd number of digits
starts with a pair of which the first is zero. -/
def decIsqrt (mem : Nat → Bool) (msd : List Nat) : Option (List Nat × List Nat) :=
  if ¬ mem 0 then none
  else sqrtLoop mem 1 (pairs (if msd.length % 2 = 1 then 0 :: msd else msd)) [] []

def oddLow : List Nat → List Nat
  | [] => []
  | x :: xs => (x ||| 1) :: xs

def sqrtShift (ntot prec : Nat) : Nat := if ntot < 2 * prec + 2 then (2 * prec + 2 - ntot + 1) / 2 else 0

def decSqrt (mem : Nat → Bool) (r a : DecT) (prec : Nat) : Except Fail DecT :=
  let t := (a.exp % 2).toNat
  let ntot := a.d.length + t
  let s := sqrtShift ntot prec
  let D := ntot + 2 * s
  if a.d = [] then .ok { r with d := [], exp := 0, sign := false }
  else if a.sign then .error .invalid
  else if maxDigits < D then .error .exceeded
  else if ¬ (mem 0 ∧ mem 1 ∧ mem 2) then .error .exceeded
  else
    match decIsqrt (fun i => mem (i + 5)) (a.d.reverse ++ List.replicate (t + 2 * s) 0) with
    | none => .error .exceeded
    | some (root, rem) =>
      match decGrow (mem 3) r.cap (if root = [] then 1 else root.length) with
      | none => .error .exceeded
      | some cap =>
        let x := decTrim ⟨i32 ((a.exp - t).tdiv 2 - s), root, cap, false⟩
        if prec + 1 < x.d.length then
          decRoundSig (mem 4) (if rem ≠ [] then { x with d := oddLow x.d } else x) prec .halfEven false
        else decRoundSig (mem 4) x prec .halfEven (rem ≠ [])

section Digit

variable {root rem b20 : List Nat}

theorem carry_all (c : Nat) (xs : List Nat) :
    ofDigits 10 ((carry 10 c xs).1 ++ Nat.digits 10 (carry 10 c xs).2) = ofDigits 10 xs + c := by
  rw [Nat.ofDigits_append, carry_length, Nat.ofDigits_digits, carry_value]

theorem ofDigits_scaled (k : Nat) (xs : List Nat) : ofDigits 10 (xs.map (· * k)) = k * ofDigits 10 xs := by
  induction xs with
  | nil => rfl
  | cons x xs ih =>
    rw [map_cons, Nat.ofDigits_cons, Nat.ofDigits_cons, ih]
    ring

theorem prodOf_spec (b20 : List Nat) (d : Nat) :
    ofDigits 10 (prodOf b20 d) = ofDigits 10 b20 * d + d * d ∧ Below 10 (prodOf b20 d) ∧ Short (prodOf b20 d) := by
  refine ⟨?_, strip_below (below_append.mpr ⟨carry_below (by decide) _ _, fun x member =>
    Nat.digits_lt_base (by decide) member⟩), strip_short _⟩
  rw [prodOf, strip_value, carry_all, ofDigits_scaled]
  ring

theorem twenty_value (root : List Nat) : ofDigits 10 (twenty root) = 20 * ofDigits 10 root := by
  have double := carry_value (b := 10) 0 (root.map (· * 2))
  have length := carry_length (b := 10) 0 (root.map (· * 2))
  simp only [twenty]
  generalize carry 10 0 (root.map (· * 2)) = c at *
  rw [ofDigits_scaled, length_map] at double
  have joined : ofDigits 10 (c.1 ++ if c.2 = 0 then [] else [c.2]) = 2 * ofDigits 10 root := by
    rw [Nat.ofDigits_append, length, length_map]
    split_ifs with zero
    · rw [zero] at double
      simpa using double
    · rw [Nat.ofDigits_singleton]
      exact double
  rw [strip_value]
  generalize (c.1 ++ if c.2 = 0 then [] else [c.2]) = b at joined ⊢
  split_ifs with none
  · rw [Nat.ofDigits_nil]
    rw [none, Nat.ofDigits_nil] at joined
    omega
  · rw [Nat.ofDigits_cons, joined]
    ring

theorem tryDigits_spec (br : Below 10 rem) (sr : Short rem) (d : Nat) (b20 : List Nat)
    (above : ofDigits 10 rem < ofDigits 10 b20 * (d + 1) + (d + 1) * (d + 1)) :
    ∃ c rem', tryDigits b20 rem d = (c, rem') ∧ c ≤ d ∧ Below 10 rem' ∧ Short rem' ∧
      ofDigits 10 rem' + (ofDigits 10 b20 * c + c * c) = ofDigits 10 rem ∧
      ofDigits 10 rem < ofDigits 10 b20 * (c + 1) + (c + 1) * (c + 1) := by
  have subtract : ∀ c, decGe rem (prodOf b20 c) = true →
      ofDigits 10 (decSubInto rem (prodOf b20 c)) + (ofDigits 10 b20 * c + c * c) = ofDigits 10 rem ∧
        Below 10 (decSubInto rem (prodOf b20 c)) ∧ Short (decSubInto rem (prodOf b20 c)) := by
    intro c ge
    obtain ⟨value, below, short⟩ := prodOf_spec b20 c
    have le := (decGe_iff br sr below short).mp ge
    obtain ⟨difference, below', short'⟩ := decSubInto_spec br below short le
    rw [value] at difference
    exact ⟨difference, below', short'⟩
  induction d with
  | zero =>
    obtain ⟨value, below, short⟩ := prodOf_spec b20 0
    have ge : decGe rem (prodOf b20 0) = true := (decGe_iff br sr below short).mpr (by rw [value]; omega)
    obtain ⟨difference, below', short'⟩ := subtract 0 ge
    exact ⟨0, _, by rw [tryDigits, if_pos ge], le_rfl, below', short', difference, above⟩
  | succ d ih =>
    by_cases ge : decGe rem (prodOf b20 (d + 1)) = true
    · obtain ⟨difference, below', short'⟩ := subtract (d + 1) ge
      exact ⟨d + 1, _, by rw [tryDigits, if_pos ge], le_rfl, below', short', difference, above⟩
    · obtain ⟨value, below, short⟩ := prodOf_spec b20 (d + 1)
      have less : ofDigits 10 rem < ofDigits 10 b20 * (d + 1) + (d + 1) * (d + 1) := by
        rw [← value]
        exact not_le.mp fun le => ge ((decGe_iff br sr below short).mpr le)
      obtain ⟨c, rem', done, le, rest⟩ := ih less
      exact ⟨c, rem', by rw [tryDigits, if_neg ge, done], by omega, rest⟩

end Digit

section Isqrt

/-- `root` is the root of `P` and `rem` what remains. -/
structure RootOf (P : Nat) (root rem : List Nat) : Prop where
  digits : Below 10 root
  below : Below 10 rem
  short : Short rem
  square : ofDigits 10 root * ofDigits 10 root + ofDigits 10 rem = P
  least : ofDigits 10 rem ≤ 2 * ofDigits 10 root

variable {P : Nat} {root rem : List Nat}

theorem RootOf.step (inv : RootOf P root rem) {hd ld : Nat} (dh : hd < 10) (dl : ld < 10) :
    RootOf (100 * P + 10 * hd + ld) ((tryDigits (twenty root) (strip (ld :: hd :: rem)) 9).1 :: root)
      (tryDigits (twenty root) (strip (ld :: hd :: rem)) 9).2 := by
  have value : ofDigits 10 (strip (ld :: hd :: rem)) = ld + 10 * (hd + 10 * ofDigits 10 rem) := by
    rw [strip_value, Nat.ofDigits_cons, Nat.ofDigits_cons]
  have b20 := twenty_value root
  have least := inv.least
  obtain ⟨c, rem', done, small, below, short, difference, most⟩ := tryDigits_spec
    (strip_below (below_cons.mpr ⟨dl, below_cons.mpr ⟨dh, inv.below⟩⟩)) (strip_short (ld :: hd :: rem)) 9
    (twenty root) (by rw [b20]; omega)
  rw [done]
  rw [value, b20] at difference most
  have square := inv.square
  refine ⟨below_cons.mpr ⟨by omega, inv.digits⟩, below, short, ?_, ?_⟩
  · rw [Nat.ofDigits_cons, ← square]
    linear_combination difference
  · rw [Nat.ofDigits_cons]
    nlinarith

def pairsValue (ps : List (Nat × Nat)) (P : Nat) : Nat := ps.foldl (fun P p => 100 * P + 10 * p.1 + p.2) P

theorem sqrtLoop_spec {mem : Nat → Bool} (ps : List (Nat × Nat)) (digits : ∀ p ∈ ps, p.1 < 10 ∧ p.2 < 10)
    {i : Nat} {root' rem' : List Nat} (inv : RootOf P root rem)
    (done : sqrtLoop mem i ps root rem = some (root', rem')) :
    RootOf (pairsValue ps P) root' rem' ∧ root'.length = root.length + ps.length := by
  induction ps generalizing i P root rem with
  | nil =>
    obtain ⟨rfl, rfl⟩ := Prod.mk.inj (Option.some.inj done)
    exact ⟨inv, rfl⟩
  | cons p ps ih =>
    rw [forall_mem_cons] at digits
    rw [sqrtLoop] at done
    split_ifs at done with refused
    obtain ⟨inv', length⟩ := ih digits.2 (inv.step digits.1.1 digits.1.2) done
    refine ⟨inv', ?_⟩
    rw [length, length_cons, length_cons]
    omega

theorem pairs_spec (n : Nat) (l : List Nat) (length : l.length = 2 * n) (P : Nat) :
    (pairs l).length = n ∧ pairsValue (pairs l) P = 10 ^ (2 * n) * P + ofDigits 10 l.reverse ∧
      (Below 10 l → ∀ p ∈ pairs l, p.1 < 10 ∧ p.2 < 10) := by
  induction n generalizing l P with
  | zero =>
    obtain rfl := length_eq_zero_iff.mp length
    simp [pairs, pairsValue]
  | succ n ih =>
    match l, length with
    | hd :: ld :: rest, length =>
      have length' : rest.length = 2 * n := by
        simp only [length_cons] at length
        omega
      obtain ⟨count, value, digits⟩ := ih rest length' (100 * P + 10 * hd + ld)
      refine ⟨by rw [pairs, length_cons, count], ?_, fun below => ?_⟩
      · change pairsValue (pairs rest) (100 * P + 10 * hd + ld) = _
        rw [value, reverse_cons, reverse_cons, Nat.ofDigits_append, Nat.ofDigits_append,
          Nat.ofDigits_singleton, Nat.ofDigits_singleton, length_append, length_reverse, length',
          length_singleton]
        ring
      · obtain ⟨dh, below⟩ := below_cons.mp below
        obtain ⟨dl, below⟩ := below_cons.mp below
        rw [pairs, forall_mem_cons]
        exact ⟨⟨dh, dl⟩, digits below⟩

theorem decIsqrt_spec {mem : Nat → Bool} {msd : List Nat} (below : Below 10 msd)
    (done : decIsqrt mem msd = some (root, rem)) :
    RootOf (ofDigits 10 msd.reverse) root rem ∧ root.length = (msd.length + 1) / 2 := by
  unfold decIsqrt at done
  by_cases refused : ¬ mem 0
  · rw [if_pos refused] at done
    contradiction
  have start : RootOf 0 [] [] := ⟨forall_mem_nil _, forall_mem_nil _,
      fun some => absurd rfl some, rfl, le_rfl⟩
  split_ifs at done with odd
  · obtain ⟨count, value, digits⟩ := pairs_spec ((msd.length + 1) / 2) (0 :: msd) (by rw [length_cons]; omega) 0
    obtain ⟨inv, length⟩ := sqrtLoop_spec _ (digits (below_cons.mpr ⟨by decide, below⟩)) start done
    rw [value, Nat.mul_zero, Nat.zero_add, reverse_cons, Nat.ofDigits_append] at inv
    rw [count, length_nil, Nat.zero_add] at length
    exact ⟨inv, length⟩
  · obtain ⟨count, value, digits⟩ := pairs_spec ((msd.length + 1) / 2) msd (by omega) 0
    obtain ⟨inv, length⟩ := sqrtLoop_spec _ (digits below) start done
    rw [value, Nat.mul_zero, Nat.zero_add] at inv
    rw [count, length_nil, Nat.zero_add] at length
    exact ⟨inv, length⟩

theorem RootOf.eq_sqrt (inv : RootOf P root rem) : ofDigits 10 root = Nat.sqrt P := by
  have square := inv.square
  have least := inv.least
  refine Nat.eq_sqrt.mpr ⟨by omega, ?_⟩
  have : (ofDigits 10 root + 1) * (ofDigits 10 root + 1) =
    ofDigits 10 root * ofDigits 10 root + 2 * ofDigits 10 root + 1 := by ring
  omega

end Isqrt

section Odd

variable {x y : DecT}

/-- The same but for the lowest digit, which is not zero. -/
structure LowOf (x y : DecT) : Prop where
  canonical : y.Canonical
  length : y.d.length = x.d.length
  exp : y.exp = x.exp
  sign : y.sign = x.sign
  div : ofDigits 10 y.d / 10 = ofDigits 10 x.d / 10
  mod : ofDigits 10 y.d % 10 ≠ 0

theorem lowOf_self (canonical : x.Canonical) (some : x.d ≠ []) : LowOf x x := by
  refine ⟨canonical, rfl, rfl, rfl, rfl, ?_⟩
  obtain ⟨d, rest, split⟩ := exists_cons_of_ne_nil some
  have digit : d < 10 := canonical.below d (by rw [split]; exact mem_cons_self)
  have low := canonical.low
  rw [split, List.head?_cons, ne_eq, Option.some.injEq] at low
  rw [split, Nat.ofDigits_cons]
  omega

theorem lowOf_odd (canonical : x.Canonical) (long : 1 < x.d.length) : LowOf x { x with d := oddLow x.d } := by
  obtain ⟨d, rest, split⟩ := exists_cons_of_ne_nil (fun none => by simp [none] at long : x.d ≠ [])
  have digit : d < 10 := canonical.below d (by rw [split]; exact mem_cons_self)
  have odd : d ||| 1 < 10 ∧ d ||| 1 ≠ 0 := by
    interval_cases d <;> decide
  have tail : rest ≠ [] := fun none => by simp [split, none] at long
  have below := canonical.below
  rw [split] at below
  have short := canonical.short
  have same : x.d.length = (oddLow x.d).length := by rw [split]; rfl
  refine ⟨⟨⟨?_, ?_, canonical.limit, canonical.least, canonical.most⟩, ?_, ?_, ?_⟩, same.symm, rfl, rfl, ?_, ?_⟩
  · rw [split]
    exact below_cons.mpr ⟨odd.1, (below_cons.mp below).2⟩
  · exact same ▸ canonical.room
  · intro some
    have last : (oddLow x.d).getLast some = x.d.getLast (by rw [split]; simp) := by
      simp only [split, oddLow]
      rw [getLast_cons tail, getLast_cons tail]
    rw [last]
    exact short _
  · rw [split]
    simp only [oddLow, List.head?_cons, ne_eq, Option.some.injEq]
    exact odd.2
  · intro none
    rw [split] at none
    simp [oddLow] at none
  · rw [split, oddLow, Nat.ofDigits_cons, Nat.ofDigits_cons]
    omega
  · rw [split, oddLow, Nat.ofDigits_cons]
    omega

end Odd

section Root

variable {x y s : DecT} {prec : Nat} {mem : Bool} {τ : ℝ}

/-- With two digits or more to cut off the lowest one only tells that there is a rest. -/
theorem decRoundSig_low (cx : x.Canonical) (low : LowOf x y) (fits : x.Fits) (positive : 0 < prec)
    (long : prec + 1 < x.d.length) (le : (ofDigits 10 x.d : ℕ) ≤ τ) (lt : τ < (ofDigits 10 x.d : ℕ) + 1)
    {mode : Mode} (done : decRoundSig mem y prec mode false = .ok s) :
    s.Canonical ∧ (s.d ≠ [] → s.sign = x.sign) ∧ (s.mag : ℝ) = rounded mode x.sign prec (τ * 10 ^ x.exp) := by
  obtain ⟨j, length⟩ : ∃ j, x.d.length = prec + (j + 1) + 1 := ⟨x.d.length - prec - 2, by omega⟩
  have some : x.d ≠ [] := fun none => by simp [none] at long
  obtain ⟨ρ, nonneg, small, fraction, zero⟩ := fraction_digit le lt
  have above : ∀ i, ofDigits 10 y.d / 10 ^ (i + 1) = ofDigits 10 x.d / 10 ^ (i + 1) := fun i => by
    rw [pow_succ', ← Nat.div_div_eq_div_mul, ← Nat.div_div_eq_div_mul, low.div]
  have rest : ∀ {z : DecT}, ofDigits 10 z.d % 10 ≠ 0 → ofDigits 10 z.d % 10 ^ (j + 1) ≠ 0 := by
    intro z nonzero divides
    exact nonzero (Nat.mod_eq_zero_of_dvd
      ((Dvd.intro_left (10 ^ j) (pow_succ 10 j).symm).trans (Nat.dvd_of_mod_eq_zero divides)))
  have inexact : ρ ≠ 0 := fun none => rest (lowOf_self cx some).mod (zero.mp none).2
  rw [← above, ← above] at fraction
  have fits' : y.Fits := by
    unfold DecT.Fits at fits ⊢
    rw [low.exp, low.length]
    exact fits
  obtain ⟨canonical, sign, mag⟩ := decRoundSig_cut low.canonical fits' positive (low.length.trans length) nonneg
    small fraction (iff_of_true (Or.inr (rest low.mod)) inexact) done
  rw [low.sign] at sign mag
  rw [low.exp] at mag
  exact ⟨canonical, sign, mag⟩

theorem sqrtShift_le (ntot prec : Nat) : 2 * prec + 2 ≤ ntot + 2 * sqrtShift ntot prec := by
  unfold sqrtShift
  split_ifs
  · omega
  · omega

theorem sqrt_mag {a : DecT} {P z : Nat} {E : Int} (number : P = ofDigits 10 a.d * 10 ^ z)
    (scale : a.exp = z + 2 * E) : √(a.mag : ℝ) = √(P : ℝ) * 10 ^ E := by
  have square : (a.mag : ℝ) = P * (10 ^ E * 10 ^ E) := by
    rw [DecT.mag, number, scale, two_mul, Rat.cast_mul, Rat.cast_natCast, Rat.cast_zpow, Nat.cast_mul, Nat.cast_pow,
      zpow_add₀ (by norm_num), zpow_add₀ (by norm_num), zpow_natCast]
    ring
  rw [square, Real.sqrt_mul (Nat.cast_nonneg P), Real.sqrt_mul_self (by positivity)]

/-- Where the root lies in units of its last digit that is not zero. -/
theorem root_between {P N k : Nat} (whole : Nat.sqrt P = 10 ^ k * N) :
    (N : ℝ) ≤ √(P : ℝ) / 10 ^ k ∧ √(P : ℝ) / 10 ^ k < N + 1 ∧ (√(P : ℝ) / 10 ^ k - N) * 10 ^ k < 1 ∧
      (√(P : ℝ) / 10 ^ k = N ↔ Nat.sqrt P * Nat.sqrt P = P) := by
  have unit : (0 : ℝ) < 10 ^ k := by positivity
  have one : (1 : ℝ) ≤ 10 ^ k := one_le_pow₀ (by norm_num)
  have low := Real.nat_sqrt_le_real_sqrt (a := P)
  have high := Real.real_sqrt_lt_nat_sqrt_succ (a := P)
  have cast : ((Nat.sqrt P : ℕ) : ℝ) = 10 ^ k * N := by
    rw [whole]
    push_cast
    rfl
  refine ⟨?_, ?_, ?_, ?_⟩
  · rw [le_div_iff₀ unit]
    linarith
  · rw [div_lt_iff₀ unit]
    linarith
  · rw [sub_mul, div_mul_cancel₀ _ unit.ne']
    linarith
  · rw [div_eq_iff unit.ne', mul_comm (N : ℝ), ← cast, Real.sqrt_eq_iff_mul_self_eq (Nat.cast_nonneg P)
      (Nat.cast_nonneg _)]
    exact_mod_cast eq_comm

theorem sqrt_finish {P : Nat} {root rem : List Nat} (inv : RootOf P root rem)
    (large : 10 ^ (root.length - 1) ≤ ofDigits 10 root) (long : prec < root.length) (positive : 0 < prec)
    {cap : Nat} {E : Int} (room : root.length ≤ cap) (limit : cap ≤ maxDigits) (least : -2000000000 ≤ E)
    (most : E ≤ 2000000000) {x : DecT} (trim : x = decTrim ⟨E, root, cap, false⟩)
    (done : (if prec + 1 < x.d.length then
        decRoundSig mem (if rem ≠ [] then { x with d := oddLow x.d } else x) prec .halfEven false
      else decRoundSig mem x prec .halfEven (rem ≠ [])) = .ok s) :
    s.Canonical ∧ (s.d ≠ [] → s.sign = false) ∧ (s.mag : ℝ) = rounded .halfEven false prec (√(P : ℝ) * 10 ^ E) := by
  have isRoot := inv.eq_sqrt
  have short := short_of_pow_le (by decide) inv.digits large
  have some : root ≠ [] := fun none => by simp [none] at long
  have cells : cap ≤ 100000 := limit
  have canonical : x.Canonical := trim ▸ decTrim_canonical
    ⟨inv.digits, room, limit, by dsimp only; omega, by dsimp only; omega⟩
  rw [decTrim_short short some (by omega) (by omega)] at trim
  have less := lowZeros_lt short some
  have whole := lowZeros_value 10 root
  rw [isRoot] at whole
  set k := lowZeros root with hk
  have digits : x.d = root.drop k := by rw [trim]
  have exponent : x.exp = E + k := by rw [trim]
  have plus : x.sign = false := by rw [trim]
  have dropped : x.d.length = root.length - k := by rw [digits, length_drop]
  rw [← digits] at whole
  obtain ⟨le, lt, last, exact⟩ := root_between whole
  have someX : x.d ≠ [] := by
    rw [← length_pos_iff]
    omega
  have rest : rem ≠ [] ↔ √(P : ℝ) / 10 ^ k ≠ (ofDigits 10 x.d : ℕ) := by
    have square := inv.square
    rw [ne_eq, ne_eq, exact, ← isRoot, ← value_eq_zero_iff inv.short (by decide : 0 < 10)]
    omega
  have fits : x.Fits := by
    unfold DecT.Fits
    omega
  have value : √(P : ℝ) * 10 ^ E = √(P : ℝ) / 10 ^ k * 10 ^ x.exp := by
    rw [exponent, zpow_add₀ (by norm_num), zpow_natCast]
    field_simp
  rw [value, ← plus]
  by_cases more : prec + 1 < x.d.length
  · rw [if_pos more] at done
    have low : LowOf x (if rem ≠ [] then { x with d := oddLow x.d } else x) := by
      split_ifs
      · exact lowOf_odd canonical (by omega)
      · exact lowOf_self canonical someX
    exact decRoundSig_low canonical low fits positive more le lt done
  · rw [if_neg more] at done
    obtain ⟨canonical', sign, iff⟩ := decRoundSig_iff canonical fits someX positive (by omega) le lt
      (by rw [decide_eq_true_eq]; exact rest)
      (fun few => by
        rw [dropped] at few ⊢
        exact thin_of_zeros last long few)
      done
    exact ⟨canonical', sign, iff.mpr fun all => absurd all.2.2 (by simp [Outward])⟩

/-- `dec_sqrt` returns the root rounded half to even, and the root itself when it has at most
`prec` digits. -/
theorem sqrt_rounded (a r : Decimal) {prec : Nat} (positive : 1 ≤ prec)
    (mem : Nat → Bool) {s : DecT} (done : decSqrt mem r.toDecT a.toDecT prec = .ok s) :
    s.Canonical ∧ (s.value : ℝ) = roundTo .halfEven prec (√(a.value : ℝ)) ∧
      ∀ (m : ℕ) (k : ℤ), m < 10 ^ prec → √(a.value : ℝ) = m * 10 ^ k → (s.value : ℝ) = √(a.value : ℝ) := by
  have ca := a.canonical
  have stored := r.canonical.toStored
  suffices main : s.Canonical ∧ (s.value : ℝ) = roundTo .halfEven prec (√(a.value : ℝ)) by
    refine ⟨main.1, main.2, fun m k few value => ?_⟩
    rw [main.2, roundTo_eq_self few value]
  simp only [decSqrt] at done
  by_cases zero : a.d = []
  · rw [if_pos zero] at done
    obtain rfl := Except.ok.inj done
    have canonical := canonical_nil stored.limit
    refine ⟨canonical, ?_⟩
    rw [value_of_nil canonical rfl, value_of_nil ca zero, Rat.cast_zero, Real.sqrt_zero, roundTo, if_pos rfl]
  rw [if_neg zero] at done
  obtain ⟨plus, done⟩ := guard_ok done
  obtain ⟨long, done⟩ := guard_ok done
  obtain ⟨-, done⟩ := guard_ok done
  have magA : a.value = a.mag := if_neg plus
  set t := (a.exp % 2).toNat with ht
  set sh := sqrtShift (a.d.length + t) prec with hsh
  have digits := sqrtShift_le (a.d.length + t) prec
  rw [← hsh] at digits
  have limit' : a.d.length + t + 2 * sh ≤ 100000 := not_lt.mp long
  split at done
  · contradiction
  rename_i root rem isqrt
  split at done
  · contradiction
  rename_i cap grown
  obtain ⟨enough, limit⟩ := decGrow_spec grown stored.limit
  have below : Below 10 (a.d.reverse ++ List.replicate (t + 2 * sh) 0) :=
    below_append.mpr ⟨fun d member => ca.below d (mem_reverse.mp member),
      fun d member => by rw [eq_of_mem_replicate member]; decide⟩
  obtain ⟨inv, length⟩ := decIsqrt_spec below isqrt
  rw [reverse_append, reverse_replicate, reverse_reverse, value_replicate_append, Nat.mul_comm] at inv
  rw [length_append, length_reverse, length_replicate] at length
  obtain ⟨first, -⟩ := length_bounds ca zero
  have large : 10 ^ (root.length - 1) ≤ ofDigits 10 root := by
    rw [inv.eq_sqrt, Nat.le_sqrt, ← pow_add]
    calc 10 ^ (root.length - 1 + (root.length - 1)) ≤ 10 ^ (a.d.length - 1 + (t + 2 * sh)) :=
          Nat.pow_le_pow_right (by decide) (by omega)
      _ = 10 ^ (a.d.length - 1) * 10 ^ (t + 2 * sh) := pow_add _ _ _
      _ ≤ ofDigits 10 a.d * 10 ^ (t + 2 * sh) := Nat.mul_le_mul_right _ first
  have some : root ≠ [] := fun none => by
    rw [none, length_nil] at length
    omega
  rw [if_neg some] at enough
  have least := ca.least
  have most := ca.most
  have place : i32 ((a.exp - t).tdiv 2 - sh) = a.exp / 2 - sh := by
    have half : (a.exp - t).tdiv 2 = a.exp / 2 := by
      have even : a.exp - t = a.exp / 2 * 2 := by omega
      rw [even, Int.mul_tdiv_cancel _ (by decide)]
    rw [half]
    exact i32_eq (by omega) (by omega)
  rw [place] at done
  obtain ⟨canonical, sign, mag⟩ := sqrt_finish inv large (by omega) positive enough limit (by omega) (by omega)
    rfl done
  have pos : 0 < √(a.value : ℝ) := by
    rw [Real.sqrt_pos, magA]
    exact_mod_cast mag_pos ca zero
  have signed := roundTo_signed .halfEven prec false pos
  simp only [Bool.false_eq_true, if_false] at signed
  rw [signed, value_of_sign canonical sign, magA,
    sqrt_mag rfl (by push_cast; omega : a.exp = (t + 2 * sh : ℕ) + 2 * (a.exp / 2 - sh)), ← mag]
  exact ⟨canonical, rfl⟩

/-- Two to three digits: the root of two is `1.414…`. -/
theorem sqrt_rounded_two :
    decSqrt (fun _ => true) decInit (unitDec 1).toDecT 3 = .ok ⟨-2, [1, 4, 1], decInline, false⟩ ∧
      ((DecT.value ⟨-2, [1, 4, 1], decInline, false⟩ : ℚ) : ℝ) = roundTo .halfEven 3 (√((unitDec 1).value : ℝ)) := by
  have done : decSqrt (fun _ => true) decInit (unitDec 1).toDecT 3 =
      .ok ⟨-2, [1, 4, 1], decInline, false⟩ := by decide +kernel
  exact ⟨done, (sqrt_rounded (unitDec 1) ⟨decInit, by decide⟩ (by decide) (fun _ => true) done).2.1⟩

end Root

end DynaJS.Dec
