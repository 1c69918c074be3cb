import DynaJS.Resp.Scan

/-! The scanner does not depend on how its bytes arrive: an answer other than
"incomplete" stands when more bytes follow, and a resumed scan ends where a scan
from the start would. -/
namespace DynaJS.Resp

open List

variable {b c : Buffer}

section

variable (grows : b <+: c)
include grows

theorem byte_grows {i : Nat} (inside : i < b.length) : byte c i = byte b i := by
  obtain ⟨rest, rfl⟩ := grows
  simp [byte, getElem?_append_left inside]

theorem negDigits_grows (left i : Nat) (v : Int)
    (inside : i + left ≤ b.length) : negDigits c left i v = negDigits b left i v := by
  induction left generalizing i v with
  | zero => rfl
  | succ left ih =>
    simp only [negDigits, byte_grows grows (by omega : i < b.length), ih (i + 1) _ (by omega)]

theorem posDigits_grows (left i : Nat) (v : Int)
    (inside : i + left ≤ b.length) : posDigits c left i v = posDigits b left i v := by
  induction left generalizing i v with
  | zero => rfl
  | succ left ih =>
    simp only [posDigits, byte_grows grows (by omega : i < b.length), ih (i + 1) _ (by omega)]

theorem respInt_grows {s e : Nat} (inside : e ≤ b.length) : respInt c s e = respInt b s e := by
  unfold respInt
  by_cases empty : e ≤ s
  · rw [if_pos empty, if_pos empty]
  · rw [if_neg empty, if_neg empty, byte_grows grows (by omega)]
    rw [posDigits_grows grows (e - s) s 0 (by omega)]
    by_cases sign : e ≤ s + 1
    · simp only [if_pos sign]
    · rw [posDigits_grows grows (e - (s + 1)) (s + 1) 0 (by omega),
        negDigits_grows grows (e - (s + 1)) (s + 1) 0 (by omega)]

theorem lineLoop_grows (cap left more i : Nat)
    (short : i + left = min cap b.length) (long : i + more = min cap c.length)
    (settled : lineLoop b left i ≠ .error .incomplete) :
    lineLoop c more i = lineLoop b left i := by
  have le := grows.length_le
  induction left generalizing i more with
  | zero =>
    by_cases inside : i < b.length
    · have none : more = 0 := by omega
      subst none
      simp only [lineLoop, if_pos inside, if_pos (by omega : i < c.length)]
    · simp [lineLoop, inside] at settled
  | succ left ih =>
    obtain ⟨more, rfl⟩ : ∃ k, more = k + 1 := ⟨more - 1, by omega⟩
    simp only [lineLoop, byte_grows grows (by omega : i < b.length)] at settled ⊢
    by_cases newline : byte b i = 10
    · simp only [if_pos newline]
    simp only [if_neg newline] at settled ⊢
    by_cases cr : byte b i = 13
    · simp only [if_pos cr] at settled ⊢
      by_cases last : b.length ≤ i + 1
      · simp [last] at settled
      · simp only [if_neg last, if_neg (by omega : ¬ c.length ≤ i + 1),
          byte_grows grows (by omega : i + 1 < b.length)]
    · simp only [if_neg cr] at settled ⊢
      exact ih more (i + 1) (by omega) (by omega) settled

theorem respLine_grows {pos : Nat} (inside : pos ≤ b.length)
    (settled : respLine b pos ≠ .error .incomplete) : respLine c pos = respLine b pos := by
  have le := grows.length_le
  exact lineLoop_grows grows (pos + maxLine) _ _ pos (by omega) (by omega) settled

theorem lineValue_grows {p e : Nat} {t : RespType}
    (after : p < e) (inside : e < b.length) : lineValue c p t e = lineValue b p t e := by
  unfold lineValue
  rw [respInt_grows grows (by omega), byte_grows grows (by omega)]

theorem blobValue_grows {maxbulk e : Nat} {t : RespType} {n : Int}
    (settled : blobValue b maxbulk t e n ≠ .error .incomplete) :
    blobValue c maxbulk t e n = blobValue b maxbulk t e n := by
  have le := grows.length_le
  unfold blobValue at settled ⊢
  by_cases neg : n < 0
  · simp only [if_pos neg]
  simp only [if_neg neg] at settled ⊢
  by_cases big : maxbulk < n.toNat
  · simp only [if_pos big]
  · simp only [if_neg big] at settled ⊢
    by_cases short : b.length < e + 2 + n.toNat + 2
    · simp [short] at settled
    · simp only [if_neg short, if_neg (by omega : ¬ c.length < e + 2 + n.toNat + 2),
        byte_grows grows (by omega : e + 2 + n.toNat < b.length),
        byte_grows grows (by omega : e + 3 + n.toNat < b.length)]

/-- A header that is not incomplete reads the same when more bytes follow. -/
theorem respOne_grows {p maxbulk : Nat} (settled : respOne b p maxbulk ≠ .error .incomplete) :
    respOne c p maxbulk = respOne b p maxbulk := by
  have le := grows.length_le
  unfold respOne at settled ⊢
  by_cases outside : b.length ≤ p
  · simp [outside] at settled
  simp only [if_neg outside, if_neg (by omega : ¬ c.length ≤ p),
    byte_grows grows (by omega : p < b.length)] at settled ⊢
  cases typed : respType (byte b p) with
  | none => rfl
  | some t =>
    simp only [typed] at settled ⊢
    have lines : respLine b (p + 1) ≠ .error .incomplete := fun bad => by simp [bad] at settled
    rw [respLine_grows grows (by omega) lines]
    cases line : respLine b (p + 1) with
    | error rc => rfl
    | ok e =>
      have bounds := respLine_bounds (by omega) line
      simp only [line, respInt_grows grows (by omega : e ≤ b.length)] at settled ⊢
      cases group : t.kind with
      | line => exact lineValue_grows grows (by omega) (by omega)
      | blob =>
        simp only [group] at settled ⊢
        cases number : respInt b (p + 1) e with
        | error rc => rfl
        | ok n =>
          simp only [number] at settled
          exact blobValue_grows grows settled
      | aggregate => rfl

end

section Step

variable {b c : Buffer} {maxbulk : Nat} {st next : Scan} {o : Outcome}

/-- Every round but the last moves the position on, inside the buffer. -/
theorem scanStep_advances (goes : scanStep b maxbulk st = .inl next) : st.pos < next.pos ∧ next.pos ≤ b.length := by
  unfold scanStep at goes
  split at goes
  · contradiction
  · split at goes
    · contradiction
    · rename_i h read
      have bounds := respOne_bounds read
      have least : minValueLen = 3 := rfl
      split_ifs at goes <;> cases Sum.inl.inj goes <;> exact ⟨by simp only; omega, bounds.2⟩

/-- A round that is not stopped for want of bytes is the same with more of them. -/
theorem scanStep_grows (grows : b <+: c)
    (settled : ∀ o next, scanStep b maxbulk st = .inr (o, next) → o.code ≠ some .incomplete) :
    scanStep c maxbulk st = scanStep b maxbulk st := by
  unfold scanStep at settled ⊢
  cases popped : popDone st.want with
  | nil => rfl
  | cons w rest =>
    have read : respOne b st.pos maxbulk ≠ .error .incomplete := fun bad => by
      simp [popped, bad] at settled
    simp only [respOne_grows grows read]

/-- A round that is stopped for want of bytes leaves a state that goes on as the
one before it. -/
theorem scanStep_pause (pauses : scanStep b maxbulk st = .inr (o, next)) (incomplete : o.code = some .incomplete) :
    scanStep c maxbulk next = scanStep c maxbulk st := by
  unfold scanStep at pauses
  cases popped : popDone st.want with
  | nil =>
    simp only [popped] at pauses
    cases Sum.inr.inj pauses
    simp at incomplete
  | cons w rest =>
    simp only [popped] at pauses
    have again : popDone (w :: rest) = w :: rest := by
      simp [popDone, popDone_head popped]
    cases read : respOne b st.pos maxbulk with
    | error rc =>
      simp only [read] at pauses
      cases Sum.inr.inj pauses
      simp only [Option.some.injEq] at incomplete
      simp only [incomplete, if_true, scanStep, again, popped]
    | ok h =>
      simp only [read] at pauses
      split_ifs at pauses
      cases Sum.inr.inj pauses
      simp at incomplete

end Step

theorem scanResume_returns (st : Scan) (b : Buffer) (maxbulk : Nat) : ∃ r, scanResume st b maxbulk = some r := by
  obtain ⟨r, done, _⟩ := Loop.run_rule (scanStep b (if maxbulk = 0 then defaultMaxbulk else maxbulk))
    (fun _ => True) (fun _ _ => True) (fun st => b.length - st.pos)
    (fun st next _ goes => by
      have moved := scanStep_advances goes
      exact ⟨trivial, by omega, fun _ => id⟩)
    (fun _ _ _ _ => trivial) trivial (b.length + 1) (by omega)
  exact ⟨r, done⟩

/-- A scan of a longer buffer repeats the answer of a scan of a prefix, or goes
on from the state an incomplete one left. -/
theorem scanResume_grows (grows : b <+: c) {maxbulk : Nat} {st next : Scan}
    {o : Outcome} (done : scanResume st b maxbulk = some (o, next)) :
    (o.code ≠ some .incomplete → scanResume st c maxbulk = some (o, next)) ∧
    (o.code = some .incomplete → scanResume next c maxbulk = scanResume st c maxbulk) := by
  obtain ⟨whole, long⟩ := scanResume_returns st c maxbulk
  rw [long]
  obtain ⟨last, rounds, stops, follows⟩ := Loop.run_follows (scanStep c _) (fun s next goes => by
      rw [scanStep_grows grows fun o n stops => by rw [goes] at stops; contradiction]
      exact goes) done
  constructor
  · intro settled
    have same := scanStep_grows grows fun o' n stopped => by
      rw [stops] at stopped
      cases Sum.inr.inj stopped
      exact settled
    have reached := (follows 1).trans (Loop.run_leave (same.trans stops) 0)
    rw [Loop.run_unique long reached]
  · intro incomplete
    obtain ⟨rest, resumed⟩ := scanResume_returns next c maxbulk
    rw [resumed]
    unfold scanResume at resumed
    have paused := scanStep_pause (c := c) stops incomplete
    simp only [Loop.run, paused] at resumed
    have reached := (follows (c.length + 1)).trans resumed
    rw [Loop.run_unique long reached]

/-- The calls of a client whose buffer grows through the given lengths: it stops
at the first answer other than "incomplete", or with the last buffer. -/
def feed (s : Buffer) (maxbulk : Nat) : Scan → List Nat → Option (Nat × Outcome)
  | _, [] => none
  | st, n :: lens =>
    match scanResume st (s.take n) maxbulk with
    | none => none
    | some (o, next) =>
      if o.code = some .incomplete ∧ lens ≠ [] then feed s maxbulk next lens else some (n, o)

/-- A scan resumed over growing prefixes answers as one scan from a state that
every later prefix agrees with. -/
theorem feed_eq (s : Buffer) (maxbulk : Nat) (st start : Scan) (lens : List Nat) (some_ : lens ≠ [])
    (increasing : lens.Pairwise (· ≤ ·))
    (agree : ∀ n ∈ lens, scanResume st (s.take n) maxbulk = scanResume start (s.take n) maxbulk) :
    ∃ n o next, n ∈ lens ∧ feed s maxbulk st lens = some (n, o) ∧
      scanResume start (s.take n) maxbulk = some (o, next) ∧
      (o.code = some .incomplete → lens.getLast? = some n) := by
  induction lens generalizing st with
  | nil => contradiction
  | cons n lens ih =>
    obtain ⟨⟨o, next⟩, done⟩ := scanResume_returns st (s.take n) maxbulk
    have first := agree n mem_cons_self
    rw [done] at first
    obtain ⟨later, increasing⟩ := pairwise_cons.mp increasing
    simp only [feed, done]
    split_ifs with goes
    · have resumed : ∀ m ∈ lens, scanResume next (s.take m) maxbulk =
          scanResume start (s.take m) maxbulk := fun m member => by
        rw [(scanResume_grows ( take_prefix_take_left (later m member)) done).2 goes.1]
        exact agree m (mem_cons_of_mem _ member)
      obtain ⟨k, o', next', member, fed, scanned, atEnd⟩ := ih next goes.2 increasing resumed
      refine ⟨k, o', next', mem_cons_of_mem _ member, fed, scanned, fun bad => ?_⟩
      rw [getLast?_cons, atEnd bad]
      rfl
    · refine ⟨n, o, next, mem_cons_self, rfl, first.symm, fun bad => ?_⟩
      have single : lens = [] := by
        by_contra more
        exact goes ⟨bad, more⟩
      rw [single]
      rfl

/-- However the bytes of `s` arrive, the resumed scan answers as one scan of the
prefix it stopped at, which is all of `s` if it never got an answer; and an answer
for one prefix is the answer for every longer one. -/
theorem scan_split_independent (s : Buffer) (maxbulk : Nat) (lens : List Nat)
    (increasing : lens.Pairwise (· ≤ ·)) (ends : lens.getLast? = some s.length) :
    (∃ n o, n ∈ lens ∧ feed s maxbulk scanInit lens = some (n, o) ∧
      respScan (s.take n) maxbulk = some o ∧ (o.code = some .incomplete → n = s.length)) ∧
    (∀ n m, n ≤ m → ∃ o, respScan (s.take n) maxbulk = some o ∧
      (o.code ≠ some .incomplete → respScan (s.take m) maxbulk = some o)) := by
  constructor
  · have nonempty : lens ≠ [] := by
      rintro rfl
      simp at ends
    obtain ⟨n, o, next, member, fed, scanned, atEnd⟩ :=
      feed_eq s maxbulk scanInit scanInit lens nonempty increasing fun _ _ => rfl
    refine ⟨n, o, member, fed, by simp [respScan, scanned], fun bad => ?_⟩
    exact Option.some.inj ((atEnd bad).symm.trans ends)
  · intro n m le
    obtain ⟨⟨o, next⟩, done⟩ := scanResume_returns scanInit (s.take n) maxbulk
    refine ⟨o, by simp [respScan, done], fun settled => ?_⟩
    have long := (scanResume_grows ( take_prefix_take_left le) done).1 settled
    simp [respScan, long]

/-- The nested array `*2\r\n:7\r\n_\r\n` in three pieces. -/
theorem scan_split_independent_array :
    let s : Buffer := [42, 50, 13, 10, 58, 55, 13, 10, 95, 13, 10]
    (feed s 0 scanInit [1, 6, 11] = some (11, ⟨none, 11⟩) ∧ respScan s 0 = some ⟨none, 11⟩) ∧
    ∃ n o, n ∈ [1, 6, 11] ∧ feed s 0 scanInit [1, 6, 11] = some (n, o) ∧
      respScan (s.take n) 0 = some o ∧ (o.code = some .incomplete → n = s.length) :=
  ⟨by decide, (scan_split_independent [42, 50, 13, 10, 58, 55, 13, 10, 95, 13, 10] 0 [1, 6, 11] (by decide) rfl).1⟩

end DynaJS.Resp
