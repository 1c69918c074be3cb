import Mathlib.Data.Int.LeastGreatest
import Mathlib.Data.List.Basic
import Mathlib.Tactic.IntervalCases
import DynaJS.Engine.Strings

/-! `PlainDate`: dates as epoch days, the shift by a duration, `until`, and the ISO texts. All
numbers stay far inside an `int64_t`, and `/` and `%` of the source round towards zero. -/
namespace DynaJS.Temporal

open Engine List Int

def tpMinYear : Int := -271821

def tpMaxYear : Int := 275760

def tpDaysFromCivil (y m d : Int) : Int :=
  let y := if m ≤ 2 then y - 1 else y
  let era := (if 0 ≤ y then y else y - 399).tdiv 400
  let yoe := y - era * 400
  let doy := (153 * (m + if 2 < m then -3 else 9) + 2).tdiv 5 + d - 1
  let doe := yoe * 365 + yoe.tdiv 4 - yoe.tdiv 100 + doy
  era * 146097 + doe - 719468

def tpCivilFromDays (z : Int) : Int × Int × Int :=
  let z := z + 719468
  let era := (if 0 ≤ z then z else z - 146096).tdiv 146097
  let doe := z - era * 146097
  let yoe := (doe - doe.tdiv 1460 + doe.tdiv 36524 - doe.tdiv 146096).tdiv 365
  let doy := doe - (365 * yoe + yoe.tdiv 4 - yoe.tdiv 100)
  let mp := (5 * doy + 2).tdiv 153
  let m := mp + if mp < 10 then 3 else -9
  (yoe + era * 400 + if m ≤ 2 then 1 else 0, m, doy - (153 * mp + 2).tdiv 5 + 1)

def tpEpochDayMin : Int := tpDaysFromCivil tpMinYear 1 1

def tpEpochDayMax : Int := tpDaysFromCivil tpMaxYear 12 31

def tpIsLeap (y : Int) : Bool := (y.tmod 4 = 0 && y.tmod 100 ≠ 0) || y.tmod 400 = 0

def tpDaysInMonth (y m : Int) : Int :=
  if m = 2 ∧ tpIsLeap y then 29 else [0, 31, 28, 31, 30, 31, 30, 31, 31, 30, 31, 30, 31].getD m.toNat 0

@[ext]
structure PlainDate where
  y : Int
  m : Int
  d : Int
  year : tpMinYear ≤ y ∧ y ≤ tpMaxYear
  month : 1 ≤ m ∧ m ≤ 12
  day : 1 ≤ d ∧ d ≤ tpDaysInMonth y m

def padded (width n : Nat) : List Char := (Nat.toDigits 10 n).leftpad width '0'

def tpNewDate (y m d : Int) : Except Thrown PlainDate :=
  if year : y < tpMinYear ∨ tpMaxYear < y then
    .error (.rangeError ("PlainDate: year " ++ toString y ++ " is outside -271821..275760"))
  else if month : m < 1 ∨ 12 < m then .error (.rangeError ("PlainDate: month " ++ toString m ++ " is not 1..12"))
  else if day : d < 1 ∨ tpDaysInMonth y m < d then
    .error (.rangeError ("PlainDate: " ++ toString y ++ "-" ++ String.ofList (padded 2 m.toNat) ++ " has no day " ++
      toString d))
  else .ok ⟨y, m, d, by omega, by omega, by omega⟩

def PlainDate.epochDay (a : PlainDate) : Int := tpDaysFromCivil a.y a.m a.d

structure Duration where
  months : Int
  days : Int
  msPart : Int

def landing (p : PlainDate) (months : Int) : Int × Int :=
  let tm := p.m - 1 + months
  (p.y + (if 0 ≤ tm then tm else tm - 11).tdiv 12, (tm.tmod 12 + 12).tmod 12 + 1)

def tpShift (p : PlainDate) (months days : Int) : Except Thrown PlainDate :=
  let (y, m) := landing p months
  if y < tpMinYear ∨ tpMaxYear < y then
    .error (.rangeError "PlainDate: the result leaves the supported year range")
  else
    let d := min p.d (tpDaysInMonth y m)
    if days = 0 then tpNewDate y m d
    else
      let ed := tpDaysFromCivil y m d + days
      if ed < tpEpochDayMin ∨ tpEpochDayMax < ed then
        .error (.rangeError "PlainDate: the result leaves the supported range")
      else
        let (y, m, d) := tpCivilFromDays ed
        tpNewDate y m d

def pdateAdd (p : PlainDate) (dur : Duration) : Except Thrown PlainDate := tpShift p dur.months dur.days

def pdateUntil (a b : PlainDate) : Duration :=
  let months := (b.y - a.y) * 12 + (b.m - a.m)
  let months := if 0 < months ∧ b.d < a.d then months - 1 else months
  let months := if months < 0 ∧ a.d < b.d then months + 1 else months
  let (y, m) := landing a months
  ⟨months, b.epochDay - tpDaysFromCivil y m (min a.d (tpDaysInMonth y m)), 0⟩

/-- `DUR_COMP`: the magnitude when the whole duration is negative. -/
def durComp (neg : Bool) (v : Int) (div : Nat) : List Char :=
  if neg then Nat.toDigits 10 (v.natAbs / div) else (toString (v.tdiv div)).toList

def durToString (p : Duration) : Except Thrown (List Char) :=
  let ⟨mo, d, ms⟩ := p
  if mo = 0 ∧ d = 0 ∧ ms = 0 then .ok "P0D".toList
  else if (0 < mo ∨ 0 < d ∨ 0 < ms) ∧ (mo < 0 ∨ d < 0 ∨ ms < 0) then
    .error (.rangeError ("Duration.toString: mixed-sign components (months " ++ toString mo ++ ", days " ++
      toString d ++ ", ms " ++ toString ms ++ ") have no ISO-8601 representation"))
  else
    let neg : Bool := mo < 0 ∨ d < 0 ∨ ms < 0
    let part (v : Int) (div : Nat) (suffix : Char) : List Char :=
      if v.tdiv div = 0 then [] else durComp neg v div ++ [suffix]
    let sec := (ms.tdiv 1000).tmod 60
    let seconds :=
      if ms.tmod 1000 = 0 then part sec 1 'S'
      else durComp neg sec 1 ++ '.' :: padded 3 (ms.tmod 1000).natAbs ++ ['S']
    let time :=
      if ms = 0 then []
      else 'T' :: part ms 3600000 'H' ++ part ((ms.tdiv 60000).tmod 60) 1 'M' ++ seconds
    .ok ((if neg then ['-'] else []) ++ 'P' :: part mo 12 'Y' ++ part (mo.tmod 12) 1 'M' ++ part d 1 'D' ++ time)

def pdateToString (p : PlainDate) : List Char :=
  (if 0 ≤ p.y ∧ p.y ≤ 9999 then padded 4 p.y.toNat else (if p.y < 0 then '-' else '+') :: padded 6 p.y.natAbs) ++
    '-' :: padded 2 p.m.toNat ++ '-' :: padded 2 p.d.toNat

def dateFromEpochDay (ed : Int) : Except Thrown PlainDate :=
  if ed < tpEpochDayMin ∨ tpEpochDayMax < ed then .error (.rangeError "dateFromEpochDay: out of range")
  else
    let (y, m, d) := tpCivilFromDays ed
    tpNewDate y m d

def digitsValue (s : List Char) : Int := Nat.ofDigitChars 10 s 0

def parseParts (text : List Char) (signedYear neg : Bool) (s : List Char) : Except Thrown PlainDate :=
  let bad := .error (.syntaxError ("parseDate: '" ++ String.ofList text ++ "' is not an ISO 8601 date (YYYY-MM-DD)"))
  let year := (s.take 6).takeWhile Char.isDigit
  if (if signedYear then year.length ≠ 6 else year.length ≠ 4 ∧ year.length ≠ 6) then bad
  else
    match s.drop year.length with
    | ['-', a, b, '-', c, d] =>
      if [a, b, c, d].all Char.isDigit then
        tpNewDate (if neg then -digitsValue year else digitsValue year) (digitsValue [a, b]) (digitsValue [c, d])
      else bad
    | _ => bad

/-- `dyn_pdate_from` with `magic` 0, on the bytes before the first NUL. -/
def parseDate (text : List Char) : Except Thrown PlainDate :=
  match text with
  | '+' :: s => parseParts text true false s
  | '-' :: s => parseParts text true true s
  | s => parseParts text false false s

section Calendar

theorem floor_tdiv {n k : Int} (pos : 0 < n) (last : k = n - 1) (a : Int) :
    (if 0 ≤ a then a else a - k).tdiv n = a / n := by
  split_ifs with sign
  · exact Int.tdiv_eq_ediv_of_nonneg sign
  · have turned : a - k = -(-a - 1 + n) := by omega
    rw [turned, Int.neg_tdiv, Int.tdiv_eq_ediv_of_nonneg (by omega), Int.add_ediv_of_dvd_right (Int.dvd_refl n),
      Int.ediv_self pos.ne']
    exact (ediv_of_neg_of_pos (by omega) pos).symm

/-- The days before the first of March of a year. -/
def yearStart (y : Int) : Int := 365 * y + y / 4 - y / 100 + y / 400

variable {y d : Int}

/-- Months are counted from January of year 0; the year that starts in March is two months behind. -/
theorem tpDaysFromCivil_eq (k d : Int) : tpDaysFromCivil (k / 12) (k % 12 + 1) d =
    yearStart ((k - 2) / 12) + (153 * ((k - 2) % 12) + 2) / 5 + d - 1 - 719468 := by
  have start : (if k % 12 + 1 ≤ 2 then k / 12 - 1 else k / 12) = (k - 2) / 12 := by split_ifs <;> omega
  have place : (k % 12 + 1 + if 2 < k % 12 + 1 then -3 else 9) = (k - 2) % 12 := by split_ifs <;> omega
  unfold tpDaysFromCivil yearStart
  dsimp only
  rw [start, place]
  have nonneg : 0 ≤ 153 * ((k - 2) % 12) + 2 := by omega
  rw [floor_tdiv (by decide) (by decide), Int.tdiv_eq_ediv_of_nonneg nonneg, Int.tdiv_eq_ediv_of_nonneg (by omega),
    Int.tdiv_eq_ediv_of_nonneg (by omega)]
  omega

/-- A year by era, century, four years and year, and how long it is. -/
theorem yearStart_parts {era c q r : Int} (hc : 0 ≤ c ∧ c < 4) (hq : 0 ≤ q ∧ q < 25) (hr : 0 ≤ r ∧ r < 4) :
    let y := 400 * era + 100 * c + 4 * q + r
    yearStart y = 146097 * era + 36524 * c + 1461 * q + 365 * r ∧
      yearStart (y + 1) - yearStart y = if r = 3 ∧ (q < 24 ∨ c = 3) then 366 else 365 := by
  have parts : (400 * era + 100 * c + 4 * q + r) / 4 = 100 * era + 25 * c + q ∧
      (400 * era + 100 * c + 4 * q + r) / 100 = 4 * era + c ∧ (400 * era + 100 * c + 4 * q + r) / 400 = era := by
    omega
  unfold yearStart
  split_ifs <;> omega

/-- The year of an era that `tp_civil_from_days` finds, for a day in it. -/
theorem yoe_eq {c q r t doe : Int} (hc : 0 ≤ c ∧ c < 4) (hq : 0 ≤ q ∧ q < 25) (hr : 0 ≤ r ∧ r < 4)
    (ht : 0 ≤ t ∧ t < 366)
    (leap : t = 365 → r = 3 ∧ (q < 24 ∨ c = 3)) (here : doe = 36524 * c + 1461 * q + 365 * r + t) :
    (doe - doe / 1460 + doe / 36524 - doe / 146096) / 365 = 100 * c + 4 * q + r := by
  by_cases last : t = 365
  · obtain ⟨rfl, rest⟩ := leap last
    have one : doe / 1460 = 25 * c + q + 1 := by omega
    rcases rest with early | rfl
    · have two : doe / 36524 = c := by omega
      omega
    · omega
  · have two : doe / 36524 = c := by omega
    by_cases late : 1460 ≤ 24 * c + q + 365 * r + t
    · have one : doe / 1460 = 25 * c + q + 1 := by omega
      omega
    · have one : doe / 1460 = 25 * c + q := by omega
      omega

theorem tpCivilFromDays_eq {doy : Int} (low : 0 ≤ doy) (high : doy < yearStart (y + 1) - yearStart y) :
    tpCivilFromDays (yearStart y + doy - 719468) =
      let mp := (5 * doy + 2) / 153
      let m := mp + if mp < 10 then 3 else -9
      (y + if m ≤ 2 then 1 else 0, m, doy - (153 * mp + 2) / 5 + 1) := by
  obtain ⟨era, c, q, r, hc, hq, hr, rfl⟩ : ∃ era c q r, (0 ≤ c ∧ c < 4) ∧ (0 ≤ q ∧ q < 25) ∧ (0 ≤ r ∧ r < 4) ∧
      y = 400 * era + 100 * c + 4 * q + r :=
    ⟨y / 400, y % 400 / 100, y % 100 / 4, y % 4, by omega, by omega, by omega, by omega⟩
  obtain ⟨start, length⟩ := @yearStart_parts era c q r hc hq hr
  have leap : doy < 366 ∧ (doy = 365 → r = 3 ∧ (q < 24 ∨ c = 3)) := by
    rw [length] at high
    split_ifs at high <;> omega
  obtain ⟨doe, here⟩ : ∃ doe, doe = 36524 * c + 1461 * q + 365 * r + doy := ⟨_, rfl⟩
  have found : (yearStart (400 * era + 100 * c + 4 * q + r) + doy) / 146097 = era := by omega
  have day : yearStart (400 * era + 100 * c + 4 * q + r) + doy - era * 146097 = doe := by omega
  have nonneg : 0 ≤ doe := by omega
  have large : 0 ≤ doe - doe / 1460 + doe / 36524 - doe / 146096 := by omega
  have quarter : (100 * c + 4 * q + r).tdiv 4 = 25 * c + q := by
    rw [Int.tdiv_eq_ediv_of_nonneg (by omega)]
    omega
  have century : (100 * c + 4 * q + r).tdiv 100 = c := by
    rw [Int.tdiv_eq_ediv_of_nonneg (by omega)]
    omega
  have twice : 0 ≤ 5 * doy + 2 := by omega
  have rest : doe - (365 * (100 * c + 4 * q + r) + (25 * c + q) - c) = doy := by omega
  have number : 100 * c + 4 * q + r + era * 400 = 400 * era + 100 * c + 4 * q + r := by omega
  have year := yoe_eq hc hq hr ⟨low, leap.1⟩ leap.2 here
  unfold tpCivilFromDays
  dsimp only
  rw [sub_add_cancel, floor_tdiv (by decide) (by decide), found, day, Int.tdiv_eq_ediv_of_nonneg nonneg,
    Int.tdiv_eq_ediv_of_nonneg nonneg, Int.tdiv_eq_ediv_of_nonneg nonneg, Int.tdiv_eq_ediv_of_nonneg large, year,
    quarter, century, rest, number, Int.tdiv_eq_ediv_of_nonneg twice, Int.tdiv_eq_ediv_of_nonneg (by omega)]

theorem tpIsLeap_iff : tpIsLeap y = true ↔ y % 4 = 0 ∧ y % 100 ≠ 0 ∨ y % 400 = 0 := by
  have same : ∀ n, 0 < n → (y.tmod n = 0 ↔ y % n = 0) := fun n _ => by
    rw [← dvd_iff_tmod_eq_zero, ← dvd_iff_emod_eq_zero]
  simp [tpIsLeap, same]

def monthLength (k : Int) : Int := tpDaysInMonth (k / 12) (k % 12 + 1)

/-- The months of the year that starts in March follow one another, and the last ends with it. -/
theorem monthLength_eq (k : Int) : (153 * ((k - 2) % 12) + 2) / 5 + monthLength k =
    if (k - 2) % 12 = 11 then yearStart ((k - 2) / 12 + 1) - yearStart ((k - 2) / 12)
    else (153 * ((k - 2) % 12 + 1) + 2) / 5 := by
  obtain ⟨y, j, low, high, rfl⟩ : ∃ y j, 0 ≤ j ∧ j < 12 ∧ k = 12 * y + j :=
    ⟨k / 12, k % 12, by omega, by omega, by omega⟩
  have here : (12 * y + j) / 12 = y ∧ (12 * y + j) % 12 = j := by omega
  have leap := @tpIsLeap_iff y
  unfold monthLength tpDaysInMonth yearStart
  rw [here.1]
  interval_cases j <;> cases known : tpIsLeap y <;> simp [known] at leap ⊢ <;> omega

theorem yearStart_length (y : Int) : 365 ≤ yearStart (y + 1) - yearStart y ∧ yearStart (y + 1) - yearStart y ≤ 366 := by
  unfold yearStart
  omega

theorem monthLength_pos (k : Int) : 0 < monthLength k := by
  have length := monthLength_eq k
  have year := yearStart_length ((k - 2) / 12)
  split_ifs at length <;> omega

theorem monthLength_small (k : Int) : monthLength k ≤ 31 := by
  have length := monthLength_eq k
  have year := yearStart_length ((k - 2) / 12)
  split_ifs at length <;> omega

theorem civil_days {k : Int} (day : 1 ≤ d ∧ d ≤ monthLength k) :
    tpCivilFromDays (tpDaysFromCivil (k / 12) (k % 12 + 1) d) = (k / 12, k % 12 + 1, d) := by
  have length := monthLength_eq k
  have year := yearStart_length ((k - 2) / 12)
  have whole : (153 * ((k - 2) % 12) + 2) / 5 + d - 1 < yearStart ((k - 2) / 12 + 1) - yearStart ((k - 2) / 12) := by
    split_ifs at length <;> omega
  have shape : ∀ a b, a + b + d - 1 - 719468 = a + (b + d - 1) - 719468 := by omega
  have back : (5 * ((153 * ((k - 2) % 12) + 2) / 5 + d - 1) + 2) / 153 = (k - 2) % 12 := by omega
  have number : ((k - 2) % 12 + if (k - 2) % 12 < 10 then 3 else -9) = k % 12 + 1 := by split_ifs <;> omega
  rw [tpDaysFromCivil_eq, shape, tpCivilFromDays_eq (by omega) whole]
  dsimp only
  rw [back, number]
  refine Prod.ext ?_ (Prod.ext rfl ?_)
  · dsimp only
    split_ifs <;> omega
  · dsimp only
    omega

end Calendar

section Months

def monthStart (k : Int) : Int := tpDaysFromCivil (k / 12) (k % 12 + 1) 1

theorem days_eq (k d : Int) : tpDaysFromCivil (k / 12) (k % 12 + 1) d = monthStart k + d - 1 := by
  rw [monthStart, tpDaysFromCivil_eq, tpDaysFromCivil_eq]
  omega

theorem monthStart_succ (k : Int) : monthStart (k + 1) = monthStart k + monthLength k := by
  have length := monthLength_eq k
  rw [monthStart, monthStart, tpDaysFromCivil_eq, tpDaysFromCivil_eq]
  by_cases last : (k - 2) % 12 = 11
  · have next : (k + 1 - 2) / 12 = (k - 2) / 12 + 1 ∧ (k + 1 - 2) % 12 = 0 := by omega
    rw [next.1]
    omega
  · have next : (k + 1 - 2) / 12 = (k - 2) / 12 ∧ (k + 1 - 2) % 12 = (k - 2) % 12 + 1 := by omega
    rw [next.1]
    omega

theorem monthStart_add (k : Int) (n : Nat) : monthStart k + n ≤ monthStart (k + n) := by
  induction n with
  | zero => simp
  | succ n ih =>
    have more := monthLength_pos (k + n)
    rw [Int.natCast_succ, ← Int.add_assoc k, monthStart_succ]
    omega

theorem monthStart_le {j k : Int} (lt : j < k) : monthStart j + monthLength j ≤ monthStart k := by
  obtain ⟨n, rfl⟩ : ∃ n : Nat, k = j + 1 + n := ⟨(k - j - 1).toNat, by omega⟩
  have up := monthStart_add (j + 1) n
  rw [monthStart_succ] at up
  omega

/-- The month of a day is the last one that starts by then. -/
theorem exists_civil (z : Int) : ∃ k d : Int, (1 ≤ d ∧ d ≤ monthLength k) ∧
    tpDaysFromCivil (k / 12) (k % 12 + 1) d = z := by
  obtain ⟨k, start, last⟩ : ∃ k, monthStart k ≤ z ∧ ∀ j, monthStart j ≤ z → j ≤ k := by
    refine Int.exists_greatest_of_bdd ⟨(z - monthStart 0).toNat, fun j below => ?_⟩ ⟨-(monthStart 0 - z).toNat, ?_⟩
    · have up := monthStart_add 0 j.toNat
      by_cases positive : 0 ≤ j
      · rw [Int.zero_add, Int.toNat_of_nonneg positive] at up
        omega
      · omega
    · have up := monthStart_add (-(monthStart 0 - z).toNat) (monthStart 0 - z).toNat
      rw [Int.add_left_neg] at up
      omega
  have next : z < monthStart (k + 1) := by
    by_contra later
    have := last (k + 1) (by omega)
    omega
  rw [monthStart_succ] at next
  refine ⟨k, z - monthStart k + 1, by omega, ?_⟩
  rw [days_eq]
  omega

theorem monthStart_le_iff {k d : Int} (day : 1 ≤ d ∧ d ≤ monthLength k) (j : Int) :
    monthStart j ≤ monthStart k + d - 1 ↔ j ≤ k := by
  rcases lt_trichotomy j k with lt | rfl | gt
  · have := monthStart_le lt
    have := monthLength_pos j
    omega
  · omega
  · have := monthStart_le gt
    omega

theorem range_iff {k d : Int} (day : 1 ≤ d ∧ d ≤ monthLength k) :
    tpEpochDayMin ≤ monthStart k + d - 1 ∧ monthStart k + d - 1 ≤ tpEpochDayMax ↔
      tpMinYear ≤ k / 12 ∧ k / 12 ≤ tpMaxYear := by
  have first : tpEpochDayMin = monthStart (12 * tpMinYear) := rfl
  have final : tpEpochDayMax + 1 = monthStart (12 * (tpMaxYear + 1)) := by decide +kernel
  have low := monthStart_le_iff day (12 * tpMinYear)
  have high := monthStart_le_iff day (12 * (tpMaxYear + 1))
  omega

variable (a b : PlainDate)

def PlainDate.index : Int := 12 * a.y + (a.m - 1)

theorem index_parts : a.index / 12 = a.y ∧ a.index % 12 + 1 = a.m := by
  have := a.month
  unfold PlainDate.index
  omega

theorem day_le : a.d ≤ monthLength a.index := by
  rw [monthLength, (index_parts a).1, (index_parts a).2]
  exact a.day.2

theorem epochDay_eq : a.epochDay = monthStart a.index + a.d - 1 := by
  rw [← days_eq, (index_parts a).1, (index_parts a).2, PlainDate.epochDay]

def PlainDate.Before : Prop := a.y < b.y ∨ a.y = b.y ∧ (a.m < b.m ∨ a.m = b.m ∧ a.d < b.d)

theorem epochDay_lt_iff : a.epochDay < b.epochDay ↔ a.Before b := by
  have months : a.Before b ↔ a.index < b.index ∨ a.index = b.index ∧ a.d < b.d := by
    have := a.month
    have := b.month
    unfold PlainDate.Before PlainDate.index
    omega
  have first := a.day.1
  have second := b.day.1
  have left := day_le a
  have right := day_le b
  rw [months, epochDay_eq, epochDay_eq]
  rcases lt_trichotomy a.index b.index with lt | eq | gt
  · have := monthStart_le lt
    omega
  · rw [eq]
    omega
  · have := monthStart_le gt
    omega

theorem tpNewDate_eq : tpNewDate a.y a.m a.d = .ok a := by
  have := a.year
  have := a.month
  have := a.day
  rw [tpNewDate, dif_neg (by omega), dif_neg (by omega), dif_neg (by omega)]

theorem tpCivilFromDays_epochDay : tpCivilFromDays a.epochDay = (a.y, a.m, a.d) := by
  have back := civil_days ⟨a.day.1, day_le a⟩
  rwa [(index_parts a).1, (index_parts a).2] at back

theorem epochDay_range : tpEpochDayMin ≤ a.epochDay ∧ a.epochDay ≤ tpEpochDayMax := by
  rw [epochDay_eq, range_iff ⟨a.day.1, day_le a⟩, (index_parts a).1]
  exact a.year

/-- Every epoch day of the range is that of a date. -/
theorem exists_date {ed : Int} (inside : tpEpochDayMin ≤ ed ∧ ed ≤ tpEpochDayMax) :
    ∃ a : PlainDate, a.epochDay = ed := by
  obtain ⟨k, d, day, rfl⟩ := exists_civil ed
  rw [days_eq, range_iff day] at inside
  exact ⟨⟨k / 12, k % 12 + 1, d, inside, by omega, day⟩, rfl⟩

theorem dateFromEpochDay_epochDay : dateFromEpochDay a.epochDay = .ok a := by
  have range := epochDay_range a
  rw [dateFromEpochDay, if_neg (by omega), tpCivilFromDays_epochDay]
  exact tpNewDate_eq a

theorem landing_eq (n : Int) : landing a n = ((a.index + n) / 12, (a.index + n) % 12 + 1) := by
  have wrapped : ((a.m - 1 + n).tmod 12 + 12).tmod 12 = (a.m - 1 + n) % 12 := by
    have low := lt_tmod_of_pos (a.m - 1 + n) (show (0 : Int) < 12 by decide)
    rw [tmod_eq_emod_of_nonneg (by omega), tmod_eq_emod]
    split_ifs <;> omega
  unfold landing PlainDate.index
  dsimp only
  rw [floor_tdiv (by decide) (by decide), wrapped]
  refine Prod.ext ?_ ?_
  · dsimp only
    omega
  · dsimp only
    omega

/-- Where the months of `until` lead: into the month of `b`, or into the one next to it on the
side of `a`. -/
structure Lands (u : Duration) : Prop where
  days : u.days = b.epochDay - (monthStart (a.index + u.months) + min a.d (monthLength (a.index + u.months)) - 1)
  month : a.index + u.months = b.index ∧ (0 < u.months → a.d ≤ b.d) ∧ (u.months < 0 → b.d ≤ a.d) ∨
    a.index + u.months + 1 = b.index ∧ 0 ≤ u.months ∨ a.index + u.months = b.index + 1 ∧ u.months ≤ 0

theorem pdateUntil_lands : Lands a b (pdateUntil a b) := by
  have months : (b.y - a.y) * 12 + (b.m - a.m) = b.index - a.index := by
    unfold PlainDate.index
    omega
  unfold pdateUntil
  dsimp only
  rw [landing_eq]
  refine ⟨?_, ?_⟩
  · rw [← days_eq]
    rfl
  · dsimp only
    split_ifs <;> omega

theorem Lands.signs {a b : PlainDate} {u : Duration} (lands : Lands a b u) :
    (0 < u.months → 0 ≤ u.days) ∧ (u.months < 0 → u.days ≤ 0) ∧
      (u.days = 0 → a.index + u.months = b.index ∧ min a.d (monthLength b.index) = b.d) := by
  have first := a.day.1
  have second := b.day.1
  have last := day_le b
  obtain ⟨days, month⟩ := lands
  rw [epochDay_eq] at days
  rcases month with ⟨here, above, below⟩ | ⟨next, up⟩ | ⟨next, down⟩
  · rw [here] at days
    omega
  · have step := monthStart_succ (a.index + u.months)
    rw [next] at step
    omega
  · have step := monthStart_succ b.index
    have more := monthLength_pos (b.index + 1)
    rw [next] at days
    omega

theorem pdateAdd_until : pdateAdd a (pdateUntil a b) = .ok b := by
  have lands := pdateUntil_lands a b
  obtain ⟨-, -, same⟩ := lands.signs
  have range := epochDay_range b
  have parts := index_parts b
  have near := lands.month
  rw [pdateAdd, tpShift, landing_eq]
  dsimp only
  set goal := a.index + (pdateUntil a b).months with hgoal
  have years : tpMinYear ≤ goal / 12 ∧ goal / 12 ≤ tpMaxYear := by
    have := a.year
    have := b.year
    have := index_parts a
    omega
  rw [if_neg (by omega)]
  by_cases none : (pdateUntil a b).days = 0
  · obtain ⟨index, day⟩ := same none
    rw [if_pos none, index, ← monthLength, day, parts.1, parts.2]
    exact tpNewDate_eq b
  · have there : tpDaysFromCivil (goal / 12) (goal % 12 + 1) (min a.d (monthLength goal)) + (pdateUntil a b).days =
        b.epochDay := by
      rw [days_eq, lands.days, hgoal]
      omega
    rw [if_neg none, ← monthLength, there, if_neg (by omega), tpCivilFromDays_epochDay]
    exact tpNewDate_eq b

theorem durToString_until : ∃ text, durToString (pdateUntil a b) = .ok text := by
  obtain ⟨up, down, -⟩ := (pdateUntil_lands a b).signs
  have none : (pdateUntil a b).msPart = 0 := rfl
  generalize pdateUntil a b = u at *
  obtain ⟨mo, d, ms⟩ := u
  dsimp only at up down none
  unfold durToString
  dsimp only
  split_ifs with zero mixed
  · exact ⟨_, rfl⟩
  · omega
  all_goals exact ⟨_, rfl⟩

end Months

section Text

variable {width n : Nat}

theorem padded_length (some : 0 < width) (small : n < 10 ^ width) : (padded width n).length = width := by
  have short := (Nat.length_toDigits_le_iff (by decide) some).mpr small
  rw [padded, List.leftpad, length_append, length_replicate]
  omega

theorem padded_isDigit {c : Char} (member : c ∈ padded width n) : c.isDigit = true := by
  rw [padded, List.leftpad, mem_append] at member
  rcases member with zero | digit
  · rw [eq_of_mem_replicate zero]
    rfl
  · exact Nat.isDigit_of_mem_toDigits (by decide) (by decide) digit

theorem padded_value : digitsValue (padded width n) = n := by
  have zeros : ∀ k, Nat.ofDigitChars 10 (List.replicate k '0') 0 = 0 := fun k => by
    induction k with
    | zero => rfl
    | succ k ih => rw [replicate_succ]; exact ih
  rw [digitsValue, padded, List.leftpad, Nat.ofDigitChars_append, zeros,
    Nat.ofDigitChars_toDigits (by decide) (by decide)]

theorem padded_pair (small : n < 100) : ∃ a b, padded 2 n = [a, b] ∧ a.isDigit = true ∧ b.isDigit = true := by
  obtain ⟨a, b, pair⟩ := length_eq_two.mp (padded_length (by decide) small)
  have digit : ∀ c ∈ [a, b], c.isDigit = true := fun c member => padded_isDigit (pair ▸ member)
  exact ⟨a, b, pair, digit a (by simp), digit b (by simp)⟩

/-- The digits of the year are those before the first dash. -/
theorem year_read {year rest : List Char} (digits : ∀ c ∈ year, c.isDigit = true) (short : year.length ≤ 6) :
    ((year ++ '-' :: rest).take 6).takeWhile Char.isDigit = year := by
  rw [take_append, take_of_length_le short, takeWhile_append_of_pos digits]
  cases 6 - year.length <;> simp

theorem parseParts_written (a : PlainDate) (text : List Char) {signed neg : Bool} {year : List Char}
    (digits : ∀ c ∈ year, c.isDigit = true) (length : year.length = if signed then 6 else 4)
    (value : (if neg then -digitsValue year else digitsValue year) = a.y) :
    parseParts text signed neg (year ++ '-' :: padded 2 a.m.toNat ++ '-' :: padded 2 a.d.toNat) = .ok a := by
  have month := a.month
  have day := a.day.1
  have small := monthLength_small a.index
  have last := day_le a
  obtain ⟨m₁, m₂, months, one, two⟩ := padded_pair (n := a.m.toNat) (by omega)
  obtain ⟨d₁, d₂, days, three, four⟩ := padded_pair (n := a.d.toNat) (by omega)
  have read := @year_read year [m₁, m₂, '-', d₁, d₂] digits (by rw [length]; split_ifs <;> decide)
  have first : digitsValue [m₁, m₂] = a.m := by
    rw [← months, padded_value]
    omega
  have second : digitsValue [d₁, d₂] = a.d := by
    rw [← days, padded_value]
    omega
  rw [months, days, append_assoc]
  change parseParts text signed neg (year ++ ['-', m₁, m₂, '-', d₁, d₂]) = _
  unfold parseParts
  rw [read, if_neg (by rw [length]; cases signed <;> decide), drop_left, value]
  change (if [m₁, m₂, d₁, d₂].all Char.isDigit = true then tpNewDate a.y (digitsValue [m₁, m₂]) (digitsValue [d₁, d₂])
    else _) = _
  rw [if_pos (by simp [one, two, three, four]), first, second]
  exact tpNewDate_eq a

theorem parseDate_unsigned {c : Char} (digit : c.isDigit = true) (s : List Char) :
    parseDate (c :: s) = parseParts (c :: s) false false (c :: s) := by
  unfold parseDate
  split
  next same =>
    rw [(cons.inj same).1] at digit
    contradiction
  next same =>
    rw [(cons.inj same).1] at digit
    contradiction
  next => rfl

theorem parseDate_pdateToString (a : PlainDate) : parseDate (pdateToString a) = .ok a := by
  have year := a.year
  unfold tpMinYear tpMaxYear at year
  unfold pdateToString
  split_ifs with plain negative
  · have length := padded_length (n := a.y.toNat) (by decide : 0 < 4) (by omega)
    have parts := fun text => @parseParts_written a text false false _
      (fun _ => padded_isDigit) length (by rw [if_neg Bool.false_ne_true, padded_value]; omega)
    have digit := fun c => @padded_isDigit 4 a.y.toNat c
    generalize padded 4 a.y.toNat = digits at *
    obtain ⟨c, rest, rfl⟩ := exists_cons_of_length_pos (length ▸ by decide : 0 < digits.length)
    exact (parseDate_unsigned (digit c mem_cons_self) _).trans (parts _)
  · exact parseParts_written a _ (fun _ => padded_isDigit) (padded_length (by decide) (by omega))
      (by rw [if_pos rfl, padded_value]; omega)
  · exact parseParts_written a _ (fun _ => padded_isDigit) (padded_length (by decide) (by omega))
      (by rw [if_neg Bool.false_ne_true, padded_value]; omega)

end Text

/-- Epoch days and dates are in bijection and in the same order; `until` leads from the one date to
the other with parts of one sign; and a text is read back as the date it was written for. -/
theorem plain_date_coherent :
    (∀ ed, tpEpochDayMin ≤ ed ∧ ed ≤ tpEpochDayMax ↔ ∃ a, dateFromEpochDay ed = .ok a) ∧
    (∀ ed a, dateFromEpochDay ed = .ok a ↔ a.epochDay = ed) ∧
    (∀ a b : PlainDate, a.epochDay < b.epochDay ↔ a.Before b) ∧
    (∀ a b, pdateAdd a (pdateUntil a b) = .ok b) ∧
    (∀ a b, ¬ (0 < (pdateUntil a b).months ∧ (pdateUntil a b).days < 0) ∧
      ¬ ((pdateUntil a b).months < 0 ∧ 0 < (pdateUntil a b).days)) ∧
    (∀ a b, ∃ text, durToString (pdateUntil a b) = .ok text) ∧
    ∀ a, parseDate (pdateToString a) = .ok a := by
  have inverse : ∀ ed a, dateFromEpochDay ed = .ok a ↔ a.epochDay = ed := by
    refine fun ed a => ⟨fun made => ?_, fun same => same ▸ dateFromEpochDay_epochDay a⟩
    by_cases inside : tpEpochDayMin ≤ ed ∧ ed ≤ tpEpochDayMax
    · obtain ⟨b, rfl⟩ := exists_date inside
      rw [dateFromEpochDay_epochDay, Except.ok.injEq] at made
      rw [made]
    · rw [dateFromEpochDay, if_pos (by omega)] at made
      contradiction
  refine ⟨fun ed => ⟨fun inside => ?_, ?_⟩, inverse, epochDay_lt_iff, pdateAdd_until, fun a b => ?_, durToString_until,
    parseDate_pdateToString⟩
  · obtain ⟨a, rfl⟩ := exists_date inside
    exact ⟨a, dateFromEpochDay_epochDay a⟩
  · rintro ⟨a, made⟩
    rw [← (inverse ed a).mp made]
    exact epochDay_range a
  · have signs := (pdateUntil_lands a b).signs
    omega

end DynaJS.Temporal
