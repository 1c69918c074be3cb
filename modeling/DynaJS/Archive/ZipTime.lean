import DynaJS.Temporal.PlainDate

/-! The DOS date and time of a zip member, from Unix time and back. The source writes out the
calendar arithmetic of `tp_civil_from_days` and `tp_days_from_civil` once more in each. -/
namespace DynaJS.Archive

open Temporal Int

def zipDosFromUnix (t : Int) : Nat :=
  if t ≤ 0 then 0
  else
    let t := if t < 315532800 then 315532800 else t
    let t := if 4354819198 < t then 4354819198 else t
    let secs := t.tmod 86400
    let (y, m, d) := tpCivilFromDays (t.tdiv 86400)
    let hh := secs.tdiv 3600
    let mm := (secs.tmod 3600).tdiv 60
    let ss := secs.tmod 60
    let yy := if y - 1980 < 0 then 0 else y - 1980
    let yy := if 127 < yy then 127 else yy
    let date := (yy.toNat &&& 127) <<< 9 ||| (m.toNat &&& 15) <<< 5 ||| (d.toNat &&& 31)
    let time := (hh.toNat &&& 31) <<< 11 ||| (mm.toNat &&& 63) <<< 5 ||| ((ss.tdiv 2).toNat &&& 31)
    date <<< 16 % 2 ^ 32 ||| time

def zipUnixFromDos (dos : Nat) : Int :=
  if dos = 0 then 0
  else
    let ss := (dos &&& 31) * 2
    let mi := (dos >>> 5) &&& 63
    let hh := (dos >>> 11) &&& 31
    let dd := (dos >>> 16) &&& 31
    let mm := (dos >>> 21) &&& 15
    let yy := ((dos >>> 25) &&& 127) + 1980
    if mm < 1 ∨ 12 < mm ∨ dd < 1 ∨ 31 < dd ∨ 23 < hh ∨ 59 < mi ∨ 60 < ss then 0
    else tpDaysFromCivil yy mm dd * 86400 + hh * 3600 + mi * 60 + ss

theorem or_shift {b k : Nat} (a : Nat) (low : b < 2 ^ k) : a <<< k ||| b = a * 2 ^ k + b := by
  rw [← Nat.shiftLeft_add_eq_or_of_lt low, Nat.shiftLeft_eq]

theorem mask_eq (m k : Nat) (full : m = 2 ^ k - 1) (a : Nat) : a &&& m = a % 2 ^ k := by
  rw [full, Nat.and_two_pow_sub_one_eq_mod]

theorem fields_packed {y m d h i s : Nat} (hy : y < 128) (hm : m < 16) (hd : d < 32) (hh : h < 32) (hi : i < 64)
    (hs : s < 32) :
    ((y &&& 127) <<< 9 ||| (m &&& 15) <<< 5 ||| (d &&& 31)) <<< 16 % 2 ^ 32 |||
      ((h &&& 31) <<< 11 ||| (i &&& 63) <<< 5 ||| (s &&& 31)) =
    (y * 512 + m * 32 + d) * 65536 + (h * 2048 + i * 32 + s) := by
  have date : (y &&& 127) <<< 9 ||| (m &&& 15) <<< 5 ||| (d &&& 31) = y * 512 + m * 32 + d := by
    rw [mask_eq 127 7 rfl, mask_eq 15 4 rfl, mask_eq 31 5 rfl, Nat.or_assoc, or_shift (m % 2 ^ 4) (by omega),
      or_shift _ (by omega)]
    omega
  have time : (h &&& 31) <<< 11 ||| (i &&& 63) <<< 5 ||| (s &&& 31) = h * 2048 + i * 32 + s := by
    rw [mask_eq 31 5 rfl, mask_eq 63 6 rfl, mask_eq 31 5 rfl, Nat.or_assoc, or_shift (i % 2 ^ 6) (by omega),
      or_shift _ (by omega)]
    omega
  rw [date, time, Nat.mod_eq_of_lt (by rw [Nat.shiftLeft_eq]; omega), or_shift _ (by omega)]
  omega

theorem fields_unpacked {y m d h i s dos : Nat} (hy : y < 128) (hm : m < 16) (hd : d < 32) (hh : h < 32) (hi : i < 64)
    (hs : s < 32) (packed : dos = (y * 512 + m * 32 + d) * 65536 + (h * 2048 + i * 32 + s)) :
    (dos >>> 25 &&& 127 = y ∧ dos >>> 21 &&& 15 = m ∧ dos >>> 16 &&& 31 = d) ∧
      dos >>> 11 &&& 31 = h ∧ dos >>> 5 &&& 63 = i ∧ dos &&& 31 = s := by
  simp only [mask_eq 31 5 rfl, mask_eq 63 6 rfl, mask_eq 15 4 rfl, mask_eq 127 7 rfl, Nat.shiftRight_eq_div_pow]
  omega

/-- The fields of a date, side by side. -/
def dosDate (a : PlainDate) : Nat := (a.y - 1980).toNat * 512 + a.m.toNat * 32 + a.d.toNat

def dosTime (s : Int) : Nat := (s / 3600).toNat * 2048 + (s % 3600 / 60).toNat * 32 + (s % 60 / 2).toNat

/-- The nearest time that has a DOS form. -/
def clamp (t : Int) : Int := max 315532800 (min t 4354819198)

structure Clamped (t : Int) (a : PlainDate) (s : Int) : Prop where
  here : clamp t = a.epochDay * 86400 + s
  time : 0 ≤ s ∧ s < 86400
  years : 1980 ≤ a.y ∧ a.y ≤ 2107

theorem exists_clamped (t : Int) : ∃ a s, Clamped t a s := by
  have bounds : 315532800 ≤ clamp t ∧ clamp t ≤ 4354819198 := by
    unfold clamp
    omega
  obtain ⟨a, day⟩ : ∃ a : PlainDate, a.epochDay = clamp t / 86400 := by
    refine exists_date ?_
    rw [show tpEpochDayMin = -100000109 by decide, show tpEpochDayMax = 100000109 by decide]
    omega
  have early := epochDay_lt_iff a ⟨1980, 1, 1, by decide, by decide, by decide⟩
  have late := epochDay_lt_iff ⟨2107, 12, 31, by decide, by decide, by decide⟩ a
  rw [day, show PlainDate.epochDay _ = 3652 by decide] at early
  rw [day, show PlainDate.epochDay ⟨2107, 12, 31, _, _, _⟩ = 50402 by decide] at late
  refine ⟨a, clamp t % 86400, by omega, by omega, ?_, ?_⟩
  · by_contra less
    have := early.mpr (.inl (by dsimp only; omega))
    omega
  · by_contra more
    have := late.mpr (.inl (by dsimp only; omega))
    omega

theorem day_bounds (a : PlainDate) : 1 ≤ a.d ∧ a.d < 32 := by
  have := day_le a
  have := monthLength_small a.index
  have := a.day.1
  omega

section

variable {t u s r : Int} {a b : PlainDate}

theorem Clamped.dos_eq (c : Clamped t a s) (pos : 0 < t) : zipDosFromUnix t = dosDate a * 65536 + dosTime s := by
  obtain ⟨here, time, years⟩ := c
  have month := a.month
  have day := day_bounds a
  have nonneg : 0 ≤ a.epochDay * 86400 + s := by
    rw [← here, clamp]
    omega
  have cut : (if 4354819198 < (if t < 315532800 then 315532800 else t) then 4354819198
      else if t < 315532800 then 315532800 else t) = a.epochDay * 86400 + s := by
    rw [← here, clamp]
    split_ifs <;> omega
  have days : (a.epochDay * 86400 + s).tdiv 86400 = a.epochDay := by
    rw [tdiv_eq_ediv_of_nonneg nonneg]
    omega
  have secs : (a.epochDay * 86400 + s).tmod 86400 = s := by
    rw [tmod_eq_emod_of_nonneg nonneg]
    omega
  rw [zipDosFromUnix, if_neg (by omega)]
  dsimp only
  rw [cut, days, secs, tpCivilFromDays_epochDay]
  dsimp only
  rw [if_neg (by omega), if_neg (by omega), tdiv_eq_ediv_of_nonneg time.1, tmod_eq_emod_of_nonneg time.1,
    tmod_eq_emod_of_nonneg time.1, tdiv_eq_ediv_of_nonneg (by omega), tdiv_eq_ediv_of_nonneg (by omega),
    fields_packed (by omega) (by omega) (by omega) (by omega) (by omega) (by omega), dosDate, dosTime]

theorem Clamped.unix_eq (c : Clamped t a s) (pos : 0 < t) :
    zipUnixFromDos (zipDosFromUnix t) = clamp t - clamp t % 2 := by
  have packed := c.dos_eq pos
  have day := day_bounds a
  obtain ⟨here, time, years⟩ := c
  have month := a.month
  obtain ⟨⟨y, m, d⟩, h, i, r⟩ :=
    fields_unpacked (by omega) (by omega) (by omega) (by omega) (by omega) (by omega) packed
  rw [zipUnixFromDos, y, m, d, h, i, r, if_neg (by rw [packed, dosDate]; omega), if_neg (by omega),
    show (((a.y - 1980).toNat + 1980 : Nat) : Int) = a.y by omega, toNat_of_nonneg (show 0 ≤ a.m by omega),
    toNat_of_nonneg (show 0 ≤ a.d by omega), ← PlainDate.epochDay, here]
  omega

theorem dosDate_lt (years : 1980 ≤ a.y) (before : a.Before b) : dosDate a < dosDate b := by
  have dayA := day_bounds a
  have monthA := a.month
  unfold PlainDate.Before at before
  unfold dosDate
  omega

theorem Clamped.mono (c : Clamped t a s) (e : Clamped u b r) (le : t ≤ u) :
    dosDate a * 65536 + dosTime s ≤ dosDate b * 65536 + dosTime r := by
  have order : a.epochDay * 86400 + s ≤ b.epochDay * 86400 + r := by
    rw [← c.here, ← e.here]
    unfold clamp
    omega
  have timeA := c.time
  have timeB := e.time
  unfold dosTime
  by_cases earlier : a.epochDay < b.epochDay
  · have := dosDate_lt c.years.1 ((epochDay_lt_iff a b).mp earlier)
    omega
  · have same : a.epochDay = b.epochDay := by omega
    have fields := tpCivilFromDays_epochDay a
    rw [same, tpCivilFromDays_epochDay, Prod.mk.injEq, Prod.mk.injEq] at fields
    rw [dosDate, dosDate, fields.1, fields.2.1, fields.2.2]
    omega

end

/-- Time comes back to the even second from the nearest time that has a DOS form, and later times have
greater forms. -/
theorem zip_time_survives (t : Int) :
    (0 < t → zipUnixFromDos (zipDosFromUnix t) = clamp t - clamp t % 2) ∧
      ∀ u, t ≤ u → zipDosFromUnix t ≤ zipDosFromUnix u := by
  obtain ⟨a, s, c⟩ := exists_clamped t
  refine ⟨c.unix_eq, fun u le => ?_⟩
  by_cases pos : 0 < t
  · obtain ⟨b, r, e⟩ := exists_clamped u
    have order := c.mono e le
    rwa [← c.dos_eq pos, ← e.dos_eq (by omega)] at order
  · rw [zipDosFromUnix, if_pos (by omega)]
    exact Nat.zero_le _

/-- A stamp is written again as it was read exactly if it is zero or holds a day and a time that
there are. -/
theorem zip_dos_survives_iff (dos : Nat) : zipDosFromUnix (zipUnixFromDos dos) = dos ↔
    dos = 0 ∨ ∃ a s, (1980 ≤ a.y ∧ a.y ≤ 2107) ∧ (0 ≤ s ∧ s < 86400) ∧ dos = dosDate a * 65536 + dosTime s := by
  constructor
  · intro same
    by_cases pos : 0 < zipUnixFromDos dos
    · obtain ⟨a, s, c⟩ := exists_clamped (zipUnixFromDos dos)
      exact .inr ⟨a, s, c.years, c.time, same.symm.trans (c.dos_eq pos)⟩
    · rw [zipDosFromUnix, if_pos (by omega)] at same
      exact .inl same.symm
  · rintro (rfl | ⟨a, s, years, time, rfl⟩)
    · rfl
    · have early := epochDay_lt_iff a ⟨1980, 1, 1, by decide, by decide, by decide⟩
      have late := epochDay_lt_iff ⟨2107, 12, 31, by decide, by decide, by decide⟩ a
      rw [show PlainDate.epochDay ⟨1980, 1, 1, _, _, _⟩ = 3652 by decide, PlainDate.Before] at early
      rw [show PlainDate.epochDay ⟨2107, 12, 31, _, _, _⟩ = 50402 by decide, PlainDate.Before] at late
      have month := a.month
      have day := day_bounds a
      dsimp only at early late
      have c : Clamped (a.epochDay * 86400 + (s - s % 2)) a (s - s % 2) := by
        refine ⟨?_, by omega, years⟩
        unfold clamp
        omega
      have half : dosTime (s - s % 2) = dosTime s := by
        unfold dosTime
        omega
      rw [← half, ← c.dos_eq (by omega), c.unix_eq (by omega), c.here, sub_eq_self.mpr (by omega)]

end DynaJS.Archive
