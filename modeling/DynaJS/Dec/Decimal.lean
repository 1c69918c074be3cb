import DynaJS.Lib.Digits

/-! The decimals of `dyna-decimal.c`: sums, differences, products, comparison. -/
namespace DynaJS.Dec

open DynaJS.Digits List
open Nat (ofDigits)

def decInline : Nat := 40

def maxDigits : Nat := 100000

def maxMulCells : Nat := 67108864

/-- What an `int32_t` keeps of a sum or a difference; the build wraps. -/
def i32 (v : Int) : Int := v.bmod 4294967296

def u32 (v : Nat) : Nat := v % 4294967296

/-- `dec_t`: `d[0 .. nd)` with the units first, scaled by `10 ^ exp`. -/
structure DecT where
  exp : Int
  d : List Nat
  cap : Nat
  sign : Bool
deriving DecidableEq

inductive Fail where
  | exceeded
  | zeroDivisor
  | tooSlow
  | invalid
deriving DecidableEq

def decInit : DecT := ⟨0, [], decInline, false⟩

variable (mem : Bool)

def decGrow (cap need : Nat) : Option Nat :=
  if need ≤ cap then some cap
  else if maxDigits < need then none
  else if mem then some (min (max (cap + cap / 2 + 16) need) maxDigits)
  else none

def decTrim (x : DecT) : DecT :=
  let d := strip x.d
  if d = [] then { x with d := [], exp := 0, sign := false }
  else { x with d := d.drop (lowZeros d), exp := i32 (x.exp + lowZeros d) }

def DecT.top (x : DecT) : Int := i32 (x.exp + x.d.length)

def decAt (x : DecT) (p : Int) : Nat :=
  if p < x.exp ∨ x.top ≤ p then 0 else x.d.getD (p - x.exp).toNat 0

def cmpLoop (a b : DecT) (lo : Int) : Nat → Int → Option Ordering
  | 0, _ => none
  | fuel + 1, p =>
    if p < lo then some .eq
    else if decAt a p ≠ decAt b p then some (compare (decAt a p) (decAt b p))
    else cmpLoop a b lo fuel (i32 (p - 1))

def decCmpAbs (fuel : Nat) (a b : DecT) : Option Ordering :=
  if a.d = [] then some (if b.d = [] then .eq else .lt)
  else if b.d = [] then some .gt
  else if a.top ≠ b.top then some (if a.top < b.top then .lt else .gt)
  else cmpLoop a b (min a.exp b.exp) fuel (i32 (a.top - 1))

def decCmp (fuel : Nat) (a b : DecT) : Option Ordering :=
  if a.d = [] ∧ b.d = [] then some .eq
  else if a.sign ≠ b.sign then some (if a.sign then .lt else .gt)
  else (decCmpAbs fuel a b).map fun c => if a.sign then c.swap else c

def decCopy (r a : DecT) : Except Fail DecT :=
  match decGrow mem r.cap (if a.d = [] then 1 else a.d.length) with
  | none => .error .exceeded
  | some cap => .ok { a with cap := cap }

def view (x : DecT) (lo : Int) (n : Nat) : List Nat := (List.range n).map fun i : Nat => decAt x (i32 (lo + i))

def decAddAbs (r a b : DecT) : Except Fail DecT :=
  let lo := min a.exp b.exp
  let span := max a.top b.top - lo
  if a.d = [] then decCopy mem r b
  else if b.d = [] then decCopy mem r a
  else if span < 0 ∨ maxDigits < span then .error .exceeded
  else
    let n := span.toNat + 1
    match decGrow mem r.cap n with
    | none => .error .exceeded
    | some cap =>
      .ok (decTrim ⟨lo, (carry 10 0 (List.zipWith (· + ·) (view a lo n) (view b lo n))).1, cap, r.sign⟩)

def decSubAbs (r a b : DecT) : Except Fail DecT :=
  let lo := min a.exp b.exp
  let span := max a.top b.top - lo
  if b.d = [] then decCopy mem r a
  else if span < 0 ∨ maxDigits < span then .error .exceeded
  else
    let n := span.toNat
    match decGrow mem r.cap (if n = 0 then 1 else n) with
    | none => .error .exceeded
    | some cap => .ok (decTrim ⟨lo, (borrow 10 0 (List.zip (view a lo n) (view b lo n))).1, cap, r.sign⟩)

def DecT.signed (x : DecT) (sign : Bool) : DecT := { x with sign := if x.d = [] then false else sign }

def decAdd (fuel : Nat) (mem : Bool) (r a b : DecT) : Option (Except Fail DecT) :=
  if a.sign = b.sign then some ((decAddAbs mem r a b).map (·.signed a.sign))
  else
    (decCmpAbs fuel a b).map fun
      | .eq => .ok { r with d := [], exp := 0, sign := false }
      | .gt => (decSubAbs mem r a b).map (·.signed a.sign)
      | .lt => (decSubAbs mem r b a).map (·.signed b.sign)

def DecT.neg (b : DecT) : DecT := { b with sign := if b.d = [] then false else !b.sign }

def mulRow (av : Nat) : List Nat → List Nat → List Nat
  | y :: ys, w :: ws => u32 (w + av * y) :: mulRow av ys ws
  | _, ws => ws

def mulRows : List Nat → List Nat → List Nat → List Nat
  | [], _, ws => ws
  | av :: rest, ys, ws =>
    match if av = 0 then ws else mulRow av ys ws with
    | [] => []
    | w :: ws => w :: mulRows rest ys ws

def mulCarry : Nat → List Nat → List Nat
  | _, [] => []
  | c, w :: ws => (u32 (w + c) % 10) :: mulCarry (u32 (w + c) / 10) ws

/-- `dec_mul`; `mem 0` grants the columns, `mem 1` the digits. -/
def decMul (mem : Nat → Bool) (r a b : DecT) : Except Fail DecT :=
  let n := a.d.length + b.d.length
  if a.d = [] ∨ b.d = [] then .ok { r with d := [], exp := 0, sign := false }
  else if maxMulCells < a.d.length * b.d.length then .error .tooSlow
  else if maxDigits < n then .error .exceeded
  else if ¬ mem 0 then .error .exceeded
  else
    match decGrow (mem 1) r.cap n with
    | none => .error .exceeded
    | some cap =>
      let e := a.exp + b.exp
      if 2000000000 < e ∨ e < -2000000000 then .error .exceeded
      else .ok (decTrim ⟨e, mulCarry 0 (mulRows a.d b.d (List.replicate n 0)), cap, a.sign ^^ b.sign⟩)

/-! ### What a decimal is worth -/

def DecT.mag (x : DecT) : ℚ := (ofDigits 10 x.d : ℕ) * 10 ^ x.exp

def DecT.value (x : DecT) : ℚ := if x.sign then -x.mag else x.mag

/-- The digits stored are digits within the capacity, the exponent an `int32_t`. -/
structure DecT.Stored (x : DecT) : Prop where
  below : Below 10 x.d
  room : x.d.length ≤ x.cap
  limit : x.cap ≤ maxDigits
  least : -2147483648 ≤ x.exp
  most : x.exp < 2147483648

/-- No zero at either end, and one zero. -/
structure DecT.Canonical (x : DecT) : Prop extends DecT.Stored x where
  short : Short x.d
  low : x.d.head? ≠ some 0
  zero : x.d = [] → x.exp = 0 ∧ x.sign = false

theorem DecT.canonical_iff (x : DecT) : x.Canonical ↔
    ((∀ d ∈ x.d, d < 10) ∧ x.d.length ≤ x.cap ∧ x.cap ≤ maxDigits ∧ -2147483648 ≤ x.exp ∧ x.exp < 2147483648) ∧
      (∀ some : x.d ≠ [], x.d.getLast some ≠ 0) ∧ x.d.head? ≠ some 0 ∧
      (x.d = [] → x.exp = 0 ∧ x.sign = false) :=
  ⟨fun c => ⟨⟨c.below, c.room, c.limit, c.least, c.most⟩, c.short, c.low, c.zero⟩,
    fun ⟨⟨below, room, limit, least, most⟩, short, low, zero⟩ =>
      ⟨⟨below, room, limit, least, most⟩, short, low, zero⟩⟩

instance (x : DecT) : Decidable x.Canonical := decidable_of_iff' _ x.canonical_iff

structure Decimal extends DecT where
  canonical : toDecT.Canonical

section Wrap

theorem i32_eq {v : Int} (least : -2147483648 ≤ v) (most : v < 2147483648) : i32 v = v := by
  simp only [i32, Int.bmod]
  omega

theorem i32_above {v : Int} (least : 2147483648 ≤ v) (most : v < 4294967296) : i32 v = v - 4294967296 := by
  simp only [i32, Int.bmod]
  omega

theorem i32_least (v : Int) : -2147483648 ≤ i32 v := by
  simp only [i32, Int.bmod]
  omega

theorem i32_most (v : Int) : i32 v < 2147483648 := by
  simp only [i32, Int.bmod]
  omega

theorem u32_eq {v : Nat} (most : v < 4294967296) : u32 v = v := Nat.mod_eq_of_lt most

attribute [irreducible] i32 u32

end Wrap

section Grow

theorem guard_ok {α : Type*} {c : Prop} [Decidable c] {e : Fail} {x : Except Fail α} {s : α}
    (done : (if c then .error e else x) = .ok s) : ¬ c ∧ x = .ok s := by
  split_ifs at done with bad
  exact ⟨bad, done⟩

theorem decGrow_spec {mem : Bool} {cap need cap' : Nat} (grown : decGrow mem cap need = some cap')
    (limit : cap ≤ maxDigits) : need ≤ cap' ∧ cap' ≤ maxDigits := by
  unfold decGrow at grown
  split_ifs at grown with enough large
  · obtain rfl := Option.some.inj grown
    exact ⟨enough, limit⟩
  · obtain rfl := Option.some.inj grown
    exact ⟨le_min (le_max_right _ _) (not_lt.mp large), min_le_right _ _⟩

theorem decGrow_room {mem : Bool} {cap cap' : Nat} {d : List Nat}
    (grown : decGrow mem cap (if d = [] then 1 else d.length) = some cap') (limit : cap ≤ maxDigits) :
    d.length ≤ cap' ∧ cap' ≤ maxDigits := by
  obtain ⟨enough, limit⟩ := decGrow_spec grown limit
  refine ⟨le_trans ?_ enough, limit⟩
  split_ifs with none
  · rw [none]
    exact Nat.zero_le _
  · exact le_rfl

theorem decGrow_isSome (cap : Nat) {need : Nat} (small : need ≤ maxDigits) : (decGrow true cap need).isSome := by
  unfold decGrow
  split_ifs with enough large given
  · rfl
  · omega
  · rfl
  · exact absurd rfl given

end Grow

section Value

variable {x y : DecT}

theorem mag_nonneg (x : DecT) : 0 ≤ x.mag := by
  unfold DecT.mag
  positivity

theorem mag_eq_zero_iff (canonical : x.Canonical) : x.mag = 0 ↔ x.d = [] := by
  rw [DecT.mag, mul_eq_zero, or_iff_left (by positivity), Nat.cast_eq_zero,
    value_eq_zero_iff canonical.short (by decide)]

theorem mag_lt (stored : x.Stored) : x.mag < 10 ^ (x.exp + x.d.length) := by
  have units : ((ofDigits 10 x.d : ℕ) : ℚ) < 10 ^ x.d.length := by
    exact_mod_cast stored.below.lt (by decide)
  calc x.mag < 10 ^ x.d.length * 10 ^ x.exp := mul_lt_mul_of_pos_right units (by positivity)
    _ = 10 ^ (x.exp + x.d.length) := by rw [zpow_add₀ (by norm_num), zpow_natCast, mul_comm]

theorem le_mag (canonical : x.Canonical) (some : x.d ≠ []) : (10 : ℚ) ^ (x.exp + x.d.length - 1) ≤ x.mag := by
  have units : (10 : ℚ) ^ (x.d.length - 1) ≤ (ofDigits 10 x.d : ℕ) := by
    exact_mod_cast pow_le_value canonical.short some
  have pos : 0 < x.d.length := length_pos_iff.mpr some
  calc 10 ^ (x.exp + x.d.length - 1) = 10 ^ (x.d.length - 1) * 10 ^ x.exp := by
        rw [← zpow_natCast, ← zpow_add₀ (by norm_num)]
        congr 1
        omega
    _ ≤ x.mag := mul_le_mul_of_nonneg_right units (by positivity)

theorem eq_of_mag_eq (cx : x.Canonical) (cy : y.Canonical) (same : x.mag = y.mag) : x.d = y.d ∧ x.exp = y.exp := by
  by_cases none : x.d = []
  · have zero : y.d = [] := by rw [← mag_eq_zero_iff cy, ← same, mag_eq_zero_iff cx, none]
    exact ⟨by rw [none, zero], by rw [(cx.zero none).1, (cy.zero zero).1]⟩
  -- the exponents agree, or the digits of one end in a zero
  have wlog' : ∀ {u v : DecT}, u.Canonical → v.Canonical → u.d ≠ [] → u.mag = v.mag → u.exp ≤ v.exp →
      u.exp = v.exp := by
    intro u v cu cv someU eq le
    by_contra differ
    obtain ⟨k, gap⟩ : ∃ k, v.exp = u.exp + (k + 1 : ℕ) := ⟨(v.exp - u.exp - 1).toNat, by omega⟩
    have units : ofDigits 10 u.d = ofDigits 10 v.d * 10 ^ (k + 1) := by
      have := eq
      rw [DecT.mag, DecT.mag, gap, zpow_add₀ (by norm_num), mul_comm (10 ^ u.exp), ← mul_assoc] at this
      exact_mod_cast mul_right_cancel₀ (by positivity) this
    obtain ⟨d, rest, split⟩ := exists_cons_of_ne_nil someU
    have digit : d < 10 := cu.below d (by rw [split]; exact mem_cons_self)
    rw [split, Nat.ofDigits_cons] at units
    have low := cu.low
    rw [split] at low
    have : d = 0 := by
      have div : 10 ∣ d + 10 * ofDigits 10 rest := ⟨ofDigits 10 v.d * 10 ^ k, by rw [units]; ring⟩
      omega
    exact low (by rw [this]; rfl)
  have someY : y.d ≠ [] := fun zero => none (by rw [← mag_eq_zero_iff cx, same, mag_eq_zero_iff cy, zero])
  have exps : x.exp = y.exp := by
    rcases le_total x.exp y.exp with le | le
    · exact wlog' cx cy none same le
    · exact (wlog' cy cx someY same.symm le).symm
  refine ⟨eq_of_value_eq (by decide) cx.below cx.short cy.below cy.short ?_, exps⟩
  rw [DecT.mag, exps] at same
  exact_mod_cast mul_right_cancel₀ (by positivity) same

theorem value_signed (x : DecT) (sign : Bool) : (x.signed sign).value = if sign then -x.mag else x.mag := by
  by_cases none : x.d = []
  · have zero : x.mag = 0 := by rw [DecT.mag, none]; simp
    simp [DecT.value, DecT.signed, none, DecT.mag]
  · simp only [DecT.value, DecT.signed, if_neg none, DecT.mag]

theorem canonical_signed (canonical : x.Canonical) (sign : Bool) : (x.signed sign).Canonical where
  below := canonical.below
  room := canonical.room
  limit := canonical.limit
  least := canonical.least
  most := canonical.most
  short := canonical.short
  low := canonical.low
  zero := fun none => ⟨(canonical.zero none).1, if_pos none⟩

theorem canonical_neg (canonical : x.Canonical) : x.neg.Canonical := canonical_signed canonical (!x.sign)

theorem value_neg (x : DecT) : x.neg.value = -x.value := by
  have eq : x.neg = x.signed (!x.sign) := rfl
  rw [eq, value_signed, DecT.value]
  cases x.sign
  · rfl
  · simp

section

variable (cx : x.Canonical)
include cx

theorem mag_pos (some : x.d ≠ []) : 0 < x.mag :=
  lt_of_le_of_ne (mag_nonneg x) fun zero => some ((mag_eq_zero_iff cx).mp zero.symm)

theorem some_of_sign (sign : x.sign = true) : x.d ≠ [] := fun none => by
  rw [(cx.zero none).2] at sign
  contradiction

theorem value_of_nil (none : x.d = []) : x.value = 0 := by
  rw [DecT.value, (cx.zero none).2, (mag_eq_zero_iff cx).mpr none]
  rfl

theorem value_of_sign {sign : Bool} (same : x.d ≠ [] → x.sign = sign) : x.value = if sign then -x.mag else x.mag := by
  by_cases none : x.d = []
  · rw [value_of_nil cx none, (mag_eq_zero_iff cx).mpr none]
    simp
  · rw [DecT.value, same none]

theorem eq_of_value_eq (cy : y.Canonical) (same : x.value = y.value) :
    x.d = y.d ∧ x.exp = y.exp ∧ x.sign = y.sign := by
  have mx := mag_nonneg x
  have my := mag_nonneg y
  have mags : x.mag = y.mag := by
    unfold DecT.value at same
    split_ifs at same <;> linarith
  obtain ⟨digits, exps⟩ := eq_of_mag_eq cx cy mags
  refine ⟨digits, exps, ?_⟩
  by_cases none : x.d = []
  · rw [(cx.zero none).2, (cy.zero (digits ▸ none)).2]
  have pos : x.mag ≠ 0 := fun zero => none ((mag_eq_zero_iff cx).mp zero)
  unfold DecT.value at same
  cases sx : x.sign <;> cases sy : y.sign
  · rfl
  · rw [sx, sy] at same
    simp only [Bool.false_eq_true, if_false, if_true] at same
    exact absurd (by linarith) pos
  · rw [sx, sy] at same
    simp only [Bool.false_eq_true, if_false, if_true] at same
    exact absurd (by linarith) pos
  · rfl

end

end Value

section Trim

variable {x : DecT}

theorem canonical_nil {cap : Nat} (limit : cap ≤ maxDigits) : DecT.Canonical ⟨0, [], cap, false⟩ where
  below := forall_mem_nil _
  room := Nat.zero_le _
  limit := limit
  least := (by decide : (-2147483648 : Int) ≤ 0)
  most := (by decide : (0 : Int) < 2147483648)
  short := fun some => absurd rfl some
  low := by simp
  zero := fun _ => ⟨rfl, rfl⟩

/-- Cutting zeros keeps the value unless the exponent leaves the `int32_t`. -/
theorem decTrim_mag_iff (stored : x.Stored) :
    (decTrim x).mag = x.mag ↔ x.exp + lowZeros (strip x.d) < 2147483648 := by
  have least := stored.least
  have units := lowZeros_value 10 (strip x.d)
  rw [strip_value] at units
  simp only [decTrim]
  split_ifs with none
  · have zero : ofDigits 10 x.d = 0 := by rw [← strip_value, none]; rfl
    simp [DecT.mag, zero, none, lowZeros, stored.most]
  · have less := lowZeros_lt (strip_short x.d) none
    have some : ((ofDigits 10 ((strip x.d).drop (lowZeros (strip x.d))) : ℕ) : ℚ) ≠ 0 := by
      rw [Nat.cast_ne_zero, ne_eq, value_eq_zero_iff (drop_short (strip_short _) _) (by decide), drop_eq_nil_iff]
      omega
    have whole : x.mag =
        (ofDigits 10 ((strip x.d).drop (lowZeros (strip x.d))) : ℕ) * 10 ^ (x.exp + lowZeros (strip x.d)) := by
      rw [DecT.mag, units, zpow_add₀ (by norm_num), zpow_natCast]
      push_cast
      ring
    rw [whole, DecT.mag, mul_right_inj' some, zpow_right_inj₀ (by norm_num) (by norm_num)]
    exact ⟨fun same => same ▸ i32_most _, i32_eq (by omega)⟩

theorem decTrim_mag (stored : x.Stored) (fits : x.exp + x.d.length ≤ 2147483648) : (decTrim x).mag = x.mag := by
  rw [decTrim_mag_iff stored]
  have most := stored.most
  by_cases none : strip x.d = []
  · simpa [none, lowZeros] using most
  · have less := lowZeros_lt (strip_short x.d) none
    have shorter := strip_length_le x.d
    omega

theorem decTrim_canonical (stored : x.Stored) : (decTrim x).Canonical := by
  simp only [decTrim]
  split_ifs with none
  · exact canonical_nil stored.limit
  · have less := lowZeros_lt (strip_short x.d) none
    have shorter := strip_length_le x.d
    exact {
      below := fun d member => strip_below stored.below d (mem_of_mem_drop member)
      room := by
        rw [length_drop]
        exact (Nat.sub_le _ _).trans (shorter.trans stored.room)
      limit := stored.limit
      least := i32_least _
      most := i32_most _
      short := drop_short (strip_short x.d) _
      low := head_drop_lowZeros _
      zero := fun empty => by
        rw [drop_eq_nil_iff] at empty
        omega }

theorem decTrim_sign (some : (decTrim x).d ≠ []) : (decTrim x).sign = x.sign := by
  simp only [decTrim] at some ⊢
  split_ifs at some ⊢ with none
  · exact absurd rfl some
  · rfl

end Trim

end DynaJS.Dec
