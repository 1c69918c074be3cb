import Mathlib.Tactic

/-! `Money.allocate` of `dyna-decimal.c`. -/
namespace DynaJS.Dec

open List Nat Except

inductive Num where
  | nan
  | inf (neg : Bool)
  | fin (q : ℚ)
deriving DecidableEq

def Num.ge (b : ℚ) : Num → Bool
  | .nan => false
  | .inf neg => !neg
  | .fin q => b ≤ q

def Num.isInt : Num → Bool
  | .fin q => q.den = 1
  | _ => false

def Num.toInt : Num → Int
  | .fin q => q.num.tdiv q.den
  | _ => 0

inductive MoneyError where
  | outOfMemory
  | shares
  | weightsOverflow
  | weight
  | zeroTotal
  | amountOverflow
deriving DecidableEq

def MoneyError.message : MoneyError → String
  | .outOfMemory => "out of memory"
  | .shares => "Money.allocate: 1 to 100000 shares"
  | .weightsOverflow => "Money.allocate: the weights overflow an int64"
  | .weight => "Money.allocate: every share is a non-negative integer weight"
  | .zeroTotal => "Money.allocate: the weights sum to zero"
  | .amountOverflow => "Money: the amount overflows an int64"

def int64Max : Nat := 2 ^ 63 - 1

def weightsLoop : List Num → Nat → Except MoneyError (List Nat × Nat)
  | [], sum => .ok ([], sum)
  | d :: rest, sum =>
    if d.ge (2 ^ 63) then .error .weightsOverflow
    else if ¬ d.ge 0 ∨ ¬ d.isInt then .error .weight
    else
      let w := d.toInt.toNat
      if int64Max < sum + w then .error .weightsOverflow
      else do
        let r ← weightsLoop rest (sum + w)
        return (w :: r.1, r.2)

def moneyWeights (shares : List Num) (mem : Bool) : Except MoneyError (List Nat × Nat) :=
  if ¬ mem then .error .outOfMemory
  else do
    let r ← weightsLoop shares 0
    if r.2 = 0 then .error .zeroTotal else .ok r

def floorsLoop (amount total : Nat) : List Nat → Except MoneyError (List Nat)
  | [] => .ok []
  | w :: rest =>
    let part := amount % total
    if w ≠ 0 ∧ (int64Max / w < part ∨ int64Max / w < amount / total) then .error .weightsOverflow
    else do
      let r ← floorsLoop amount total rest
      return (amount / total * w + part * w / total) :: r

def handOut : Int → List Nat → List Nat
  | _, [] => []
  | rem, w :: rest => if 0 < rem then (w + 1) :: handOut (rem - 1) rest else w :: rest

variable (amount : Int)

/-- `dyn_money_allocate`; the flags are the outcomes of the allocations for the weights
and for the result. -/
def moneyAllocate (shares : List Num) (mem mem' : Bool) : Except MoneyError (List Int) :=
  if shares.length < 1 ∨ 100000 < shares.length then .error .shares
  else do
    let (w, total) ← moneyWeights shares mem
    if amount = -2 ^ 63 then .error .amountOverflow
    else
      let neg := amount < 0
      let absAmount := amount.natAbs
      let floors ← floorsLoop absAmount total w
      let given := floors.sum
      let parts := handOut ((absAmount : Int) - given) floors
      if ¬ mem' then .error .outOfMemory
      else return parts.map fun (p : Nat) => if neg then -(p : Int) else p

def Num.ofNat (w : Nat) : Num := .fin w

theorem ofNat_toInt (w : Nat) : (Num.ofNat w).toInt = w := by
  simp [Num.ofNat, Num.toInt]

theorem weightsLoop_spec (ws : List Nat) (sum : Nat) (r : List Nat × Nat)
    (done : weightsLoop (ws.map Num.ofNat) sum = .ok r) : r = (ws, sum + ws.sum) := by
  induction ws generalizing sum r with
  | nil =>
    obtain rfl := ok.inj done
    simp
  | cons w ws ih =>
    simp only [map_cons, weightsLoop, ofNat_toInt, Int.toNat_natCast] at done
    split_ifs at done
    cases rest : weightsLoop (ws.map Num.ofNat) (sum + w) with
    | error e => rw [rest] at done; contradiction
    | ok r' =>
      rw [rest] at done
      obtain rfl := (ok.inj done).symm
      rw [ih _ _ rest, sum_cons, add_assoc]

theorem moneyWeights_spec {ws : List Nat} {mem : Bool} {r : List Nat × Nat}
    (done : moneyWeights (ws.map Num.ofNat) mem = .ok r) : r = (ws, ws.sum) ∧ 0 < ws.sum := by
  rw [moneyWeights] at done
  split_ifs at done
  cases loop : weightsLoop (ws.map Num.ofNat) 0 with
  | error e => rw [loop] at done; contradiction
  | ok r' =>
    rw [loop] at done
    change (if r'.2 = 0 then _ else _) = _ at done
    split_ifs at done with zero
    obtain rfl := ok.inj done
    have eq := weightsLoop_spec ws 0 r' loop
    rw [zero_add] at eq
    rw [eq] at zero ⊢
    exact ⟨rfl, pos_of_ne_zero zero⟩

theorem floor_split (amount total w : Nat) (pos : 0 < total) :
    amount / total * w + amount % total * w / total = amount * w / total := by
  have split : amount * w = amount % total * w + total * (amount / total * w) := by
    rw [← mul_assoc, ← add_mul, mod_add_div]
  rw [split, add_mul_div_left _ _ pos, add_comm]

theorem floorsLoop_spec {amount total : Nat} (pos : 0 < total) (ws r : List Nat)
    (done : floorsLoop amount total ws = .ok r) : r = ws.map fun w => amount * w / total := by
  induction ws generalizing r with
  | nil => exact (ok.inj done).symm
  | cons w ws ih =>
    simp only [floorsLoop] at done
    split_ifs at done
    cases rest : floorsLoop amount total ws with
    | error e => rw [rest] at done; contradiction
    | ok r' =>
      rw [rest] at done
      obtain rfl := (ok.inj done).symm
      rw [map_cons, ← ih r' rest, floor_split _ _ _ pos]

def leftover (amount : Nat) (ws : List Nat) : Nat := amount - (ws.map fun w => amount * w / ws.sum).sum

theorem sum_floors (amount total : Nat) (ws : List Nat) :
    total * (ws.map fun w => amount * w / total).sum + (ws.map fun w => amount * w % total).sum =
      amount * ws.sum := by
  induction ws with
  | nil => simp
  | cons w ws ih =>
    simp only [map_cons, sum_cons]
    have := div_add_mod (amount * w) total
    nlinarith

theorem sum_mod_le (amount total : Nat) (pos : 0 < total) (ws : List Nat) :
    (ws.map fun w => amount * w % total).sum ≤ total * ws.length := by
  induction ws with
  | nil => simp
  | cons w ws ih =>
    simp only [map_cons, sum_cons, length_cons]
    have := mod_lt (amount * w) pos
    nlinarith

theorem leftover_spec (amount : Nat) (ws : List Nat) (pos : 0 < ws.sum) :
    (ws.map fun w => amount * w / ws.sum).sum + leftover amount ws = amount ∧ leftover amount ws ≤ ws.length := by
  have parts := sum_floors amount ws.sum ws
  have bound := sum_mod_le amount ws.sum pos ws
  have below : (ws.map fun w => amount * w / ws.sum).sum ≤ amount := by
    refine le_of_mul_le_mul_left ?_ pos
    rw [mul_comm ws.sum amount]
    omega
  have whole : (ws.map fun w => amount * w / ws.sum).sum + leftover amount ws = amount := Nat.add_sub_cancel' below
  refine ⟨whole, le_of_mul_le_mul_left ?_ pos⟩
  have : ws.sum * ((ws.map fun w => amount * w / ws.sum).sum + leftover amount ws) = amount * ws.sum := by
    rw [whole, mul_comm]
  rw [mul_add] at this
  omega

theorem handOut_length (rem : Int) (l : List Nat) : (handOut rem l).length = l.length := by
  induction l generalizing rem with
  | nil => rfl
  | cons w l ih =>
    rw [handOut]
    split_ifs
    · rw [length_cons, ih, length_cons]
    · rfl

theorem handOut_sum (rem : Nat) (l : List Nat) (enough : rem ≤ l.length) : (handOut rem l).sum = l.sum + rem := by
  induction l generalizing rem with
  | nil =>
    obtain rfl : rem = 0 := by simpa using enough
    rfl
  | cons w l ih =>
    cases rem with
    | zero => simp [handOut]
    | succ rem =>
      have rest := ih rem (by simpa using enough)
      rw [handOut, if_pos (by omega), sum_cons, sum_cons, show ((rem + 1 : Nat) : Int) - 1 = rem by omega]
      omega

/-- The shares against their weights: the first ones get a unit more than the floor. -/
theorem mem_zip_handOut (f : Nat → Nat) (rem : Nat) (ws : List Nat) (x : Nat × Nat) :
    x ∈ (handOut rem (ws.map f)).zip ws ↔
      (x.2 ∈ ws.take rem ∧ x.1 = f x.2 + 1) ∨ (x.2 ∈ ws.drop rem ∧ x.1 = f x.2) := by
  induction ws generalizing rem with
  | nil => simp [handOut]
  | cons w ws ih =>
    cases rem with
    | zero =>
      have none : handOut ((0 : Nat) : Int) ((w :: ws).map f) = (w :: ws).map f := by
        rw [map_cons, handOut, if_neg (by simp)]
      have pairs : ((w :: ws).map f).zip (w :: ws) = (w :: ws).map fun v => (f v, v) := by
        simpa using zip_map' (g := id)
      rw [none, pairs, mem_map]
      constructor
      · rintro ⟨v, member, rfl⟩
        exact .inr ⟨member, rfl⟩
      · rintro (⟨out, -⟩ | ⟨member, eq⟩)
        · exact absurd out not_mem_nil
        · exact ⟨x.2, member, Prod.ext eq.symm rfl⟩
    | succ rem =>
      rw [map_cons, handOut, if_pos (by omega), zip_cons_cons, mem_cons,
        show ((rem + 1 : Nat) : Int) - 1 = rem by omega, ih, take_succ_cons, mem_cons]
      constructor
      · rintro (rfl | rest)
        · exact .inl ⟨.inl rfl, rfl⟩
        · tauto
      · rintro (⟨rfl | rest, eq⟩ | rest)
        · exact .inl (Prod.ext eq rfl)
        · exact .inr (.inl ⟨rest, eq⟩)
        · exact .inr (.inr rest)

structure Proportional (amount : Int) (ws : List Nat) (parts : List Int) : Prop where
  length : parts.length = ws.length
  sum : parts.sum = amount
  sign : ∀ p ∈ parts, p = 0 ∨ p.sign = amount.sign
  near : ∀ x ∈ parts.zip ws, |(x.1 : ℚ) - amount * x.2 / ws.sum| < 1
  zero : ∀ x ∈ parts.zip ws, x.2 = 0 → x.1 = 0

def signed (p : Nat) : Int := if amount < 0 then -(p : Int) else p

theorem moneyAllocate_spec {amount : Int} {ws : List Nat} {mem mem' : Bool} {parts : List Int}
    (done : moneyAllocate amount (ws.map Num.ofNat) mem mem' = .ok parts) :
    0 < ws.sum ∧ parts = (handOut (leftover amount.natAbs ws)
      (ws.map fun w => amount.natAbs * w / ws.sum)).map (signed amount) := by
  rw [moneyAllocate] at done
  by_cases count : (ws.map Num.ofNat).length < 1 ∨ 100000 < (ws.map Num.ofNat).length
  · rw [if_pos count] at done
    contradiction
  rw [if_neg count] at done
  cases weights : moneyWeights (ws.map Num.ofNat) mem with
  | error e => rw [weights] at done; contradiction
  | ok r =>
    obtain ⟨rfl, pos⟩ := moneyWeights_spec weights
    rw [weights] at done
    change (if amount = -2 ^ 63 then _ else _) = _ at done
    by_cases least : amount = -2 ^ 63
    · rw [if_pos least] at done
      contradiction
    rw [if_neg least] at done
    cases floors : floorsLoop amount.natAbs ws.sum ws with
    | error e => rw [floors] at done; contradiction
    | ok fs =>
      rw [floors] at done
      change (if ¬ mem' = true then _ else _) = _ at done
      by_cases full : mem' = true
      swap
      · rw [if_pos full] at done
        contradiction
      rw [if_neg (not_not.mpr full)] at done
      obtain rfl := (ok.inj done).symm
      obtain rfl := floorsLoop_spec pos ws fs floors
      have whole := (leftover_spec amount.natAbs ws pos).1
      refine ⟨pos, ?_⟩
      rw [show (amount.natAbs : Int) - ((ws.map fun w => amount.natAbs * w / ws.sum).sum : Nat) =
        (leftover amount.natAbs ws : Int) by omega]
      rfl

theorem signed_sum (l : List Nat) : (l.map (signed amount)).sum = signed amount l.sum := by
  induction l with
  | nil => simp [signed]
  | cons p l ih =>
    rw [map_cons, sum_cons, ih, sum_cons]
    simp only [signed]
    split_ifs <;> omega

theorem signed_natAbs : signed amount amount.natAbs = amount := by
  simp only [signed]
  split_ifs <;> omega

theorem signed_sign (p : Nat) (le : p ≤ amount.natAbs) :
    signed amount p = 0 ∨ (signed amount p).sign = amount.sign := by
  rcases Nat.eq_zero_or_pos p with rfl | pos
  · exact .inl (by simp [signed])
  · refine .inr ?_
    simp only [signed]
    split_ifs with neg
    · rw [Int.sign_eq_neg_one_of_neg neg, Int.sign_eq_neg_one_of_neg (by omega)]
    · rw [Int.sign_eq_one_of_pos (by omega), Int.sign_eq_one_of_pos (by omega)]

theorem signed_near (p w total : Nat) :
    |((signed amount p : Int) : ℚ) - amount * w / total| = |(p : ℚ) - amount.natAbs * w / total| := by
  have abs : ((amount.natAbs : Nat) : ℚ) = if amount < 0 then -(amount : ℚ) else amount := by
    split_ifs with neg
    · rw [cast_natAbs, abs_of_neg neg]
      rfl
    · rw [cast_natAbs, abs_of_nonneg (not_lt.mp neg)]
  rw [abs, signed]
  split_ifs
  · rw [← abs_neg]
    congr 1
    push_cast
    ring
  · push_cast
    rfl

theorem floor_add_frac (n total : Nat) (pos : 0 < total) :
    (n : ℚ) / total = (n / total : Nat) + (n % total : Nat) / total ∧ ((n % total : Nat) : ℚ) / total < 1 := by
  have total_pos : (0 : ℚ) < total := by exact_mod_cast pos
  constructor
  · rw [eq_comm, ← mul_right_inj' total_pos.ne']
    field_simp
    exact_mod_cast div_add_mod n total
  · rw [div_lt_one total_pos]
    exact_mod_cast mod_lt n pos

theorem floor_near (amount w total : Nat) (pos : 0 < total) :
    |((amount * w / total : Nat) : ℚ) - amount * w / total| < 1 := by
  obtain ⟨eq, frac⟩ := floor_add_frac (amount * w) total pos
  rw [← cast_mul, eq, abs_sub_comm, add_sub_cancel_left, abs_of_nonneg (by positivity)]
  exact frac

theorem ceil_near_iff (amount w total : Nat) (pos : 0 < total) :
    |((amount * w / total + 1 : Nat) : ℚ) - amount * w / total| < 1 ↔ ¬ total ∣ amount * w := by
  obtain ⟨eq, frac⟩ := floor_add_frac (amount * w) total pos
  have total_pos : (0 : ℚ) < total := by exact_mod_cast pos
  rw [← cast_mul, eq, cast_add, cast_one, add_sub_add_left_eq_sub, abs_of_pos (by linarith),
    dvd_iff_mod_eq_zero, sub_lt_self_iff, div_pos_iff_of_pos_right total_pos, cast_pos,
    pos_iff_ne_zero]

/-- The split is exact and keeps the sign. It is proportional exactly when each of the
first shares, which get the units left over, has a fraction to round up. -/
theorem allocate_proportional_iff (amount : Int) (ws : List Nat) (mem mem' : Bool) (parts : List Int)
    (done : moneyAllocate amount (ws.map Num.ofNat) mem mem' = .ok parts) :
    (parts.length = ws.length ∧ parts.sum = amount ∧ ∀ p ∈ parts, p = 0 ∨ p.sign = amount.sign) ∧
    (Proportional amount ws parts ↔ ∀ w ∈ ws.take (leftover amount.natAbs ws), ¬ ws.sum ∣ amount.natAbs * w) := by
  obtain ⟨pos, made⟩ := moneyAllocate_spec done
  obtain ⟨whole, few⟩ := leftover_spec amount.natAbs ws pos
  have length : parts.length = ws.length := by
    rw [made, length_map, handOut_length, length_map]
  have sum : parts.sum = amount := by
    rw [made, signed_sum, handOut_sum _ _ (by simpa using few), whole, signed_natAbs]
  have shares : ∀ x, x ∈ parts.zip ws ↔ ∃ p, x.1 = signed amount p ∧
        ((x.2 ∈ ws.take (leftover amount.natAbs ws) ∧ p = amount.natAbs * x.2 / ws.sum + 1) ∨
          (x.2 ∈ ws.drop (leftover amount.natAbs ws) ∧ p = amount.natAbs * x.2 / ws.sum)) := by
    intro x
    rw [made, zip_map_left, mem_map]
    constructor
    · rintro ⟨y, member, rfl⟩
      exact ⟨y.1, rfl, (mem_zip_handOut ..).mp member⟩
    · rintro ⟨p, eq, member⟩
      exact ⟨(p, x.2), (mem_zip_handOut _ _ _ (p, x.2)).mpr member, Prod.ext eq.symm rfl⟩
  have sign : ∀ p ∈ parts, p = 0 ∨ p.sign = amount.sign := by
    intro p member
    rw [made] at member
    obtain ⟨q, there, rfl⟩ := mem_map.mp member
    refine signed_sign amount q ?_
    have least := le_sum_of_mem there
    rwa [handOut_sum _ _ (by simpa using few), whole] at least
  refine ⟨⟨length, sum, sign⟩, fun split w member whole => ?_, fun fraction => ?_⟩
  · have near := split.near (signed amount (amount.natAbs * w / ws.sum + 1), w)
      ((shares _).mpr ⟨_, rfl, .inl ⟨member, rfl⟩⟩)
    rw [signed_near, ceil_near_iff _ _ _ pos] at near
    exact near whole
  · refine ⟨length, sum, sign, fun x member => ?_, fun x member none => ?_⟩
    · obtain ⟨p, eq, ⟨first, rfl⟩ | ⟨-, rfl⟩⟩ := (shares x).mp member
      · rw [eq, signed_near, ceil_near_iff _ _ _ pos]
        exact fraction x.2 first
      · rw [eq, signed_near]
        exact floor_near _ _ _ pos
    · obtain ⟨p, eq, ⟨first, rfl⟩ | ⟨-, rfl⟩⟩ := (shares x).mp member
      · exact absurd (by simp [none]) (fraction x.2 first)
      · simp [eq, none, signed]

/-- Three shares of one unit with weights 0, 1 and 1: the first one gets the unit. -/
theorem unit_for_no_weight : moneyAllocate 1 ([0, 1, 1].map Num.ofNat) true true = .ok [1, 0, 0] ∧
      ¬ Proportional 1 [0, 1, 1] [1, 0, 0] := by
  refine ⟨by decide +kernel, fun split => ?_⟩
  have zero := split.zero (1, 0) (by simp) rfl
  exact absurd zero (by decide)

/-- Ten units in three equal shares. -/
theorem allocate_proportional_thirds : moneyAllocate 10 ([1, 1, 1].map Num.ofNat) true true = .ok [4, 3, 3] ∧
      Proportional 10 [1, 1, 1] [4, 3, 3] := by
  have done : moneyAllocate 10 ([1, 1, 1].map Num.ofNat) true true = .ok [4, 3, 3] := by
    decide +kernel
  exact ⟨done, (allocate_proportional_iff 10 [1, 1, 1] true true [4, 3, 3] done).2.mpr (by decide +kernel)⟩

end DynaJS.Dec
