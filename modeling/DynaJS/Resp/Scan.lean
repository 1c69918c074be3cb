import DynaJS.Lib.Loop

/-! The RESP scanner of `dyn-resp.c`: lines, integers, one value header at a time,
and the resumable scan over a stack of pending element counts. -/
namespace DynaJS.Resp

open Except

inductive RespError where
  | incomplete | eType | eSyntax | eDepth | eTooBig | eCount | eInt
  deriving DecidableEq, Repr

inductive RespType where
  | simple | error | int | bulk | array | null | double | bool | bloberr | verb | bignum
  | map | set | attr | push
  deriving DecidableEq, Repr

inductive Kind where
  | line | blob | aggregate
  deriving DecidableEq, Repr

def RespType.kind : RespType → Kind
  | .simple | .error | .int | .null | .double | .bool | .bignum => .line
  | .bulk | .bloberr | .verb => .blob
  | .array | .set | .push | .map | .attr => .aggregate

def maxDepth : Nat := 32

def maxLine : Nat := 65536

def defaultMaxbulk : Nat := 64 * 1024 * 1024

def minValueLen : Nat := 3

def int64Max : Int := 9223372036854775807

def int64Min : Int := -9223372036854775808

def RespType.byte : RespType → UInt8
  | .simple => 43
  | .error => 45
  | .int => 58
  | .bulk => 36
  | .array => 42
  | .null => 95
  | .double => 44
  | .bool => 35
  | .bloberr => 33
  | .verb => 61
  | .bignum => 40
  | .map => 37
  | .set => 126
  | .attr => 124
  | .push => 62

def respTypes : List RespType :=
  [.simple, .error, .int, .bulk, .array, .null, .double, .bool, .bloberr, .verb, .bignum, .map, .set, .attr, .push]

def respType (t : UInt8) : Option RespType := respTypes.find? (·.byte = t)

theorem respType_byte {t : UInt8} {ty : RespType} (typed : respType t = some ty) : ty.byte = t := by
  simpa using List.find?_some typed

/-- A buffer; a read past its end does not occur, and reads as zero here. -/
abbrev Buffer := List UInt8

variable (b : Buffer)

def byte (i : Nat) : UInt8 := b.getD i 0

def lineLoop (b : Buffer) : Nat → Nat → Except RespError Nat
  | 0, i => .error (if i < b.length then .eTooBig else .incomplete)
  | left + 1, i =>
    if byte b i = 10 then .error .eSyntax
    else if byte b i = 13 then
      if b.length ≤ i + 1 then .error .incomplete
      else if byte b (i + 1) ≠ 10 then .error .eSyntax
      else .ok i
    else lineLoop b left (i + 1)

def respLine (pos : Nat) : Except RespError Nat :=
  let stop := min (pos + maxLine) b.length
  lineLoop b (stop - pos) pos

def negDigits (b : Buffer) : Nat → Nat → Int → Except RespError Int
  | 0, _, v => .ok v
  | left + 1, i, v =>
    if byte b i < 48 ∨ 57 < byte b i then .error .eSyntax
    else
      let d : Int := (byte b i).toNat - 48
      if v < int64Min.tdiv 10 then .error .eInt
      else if v * 10 < int64Min + d then .error .eInt
      else negDigits b left (i + 1) (v * 10 - d)

def posDigits (b : Buffer) : Nat → Nat → Int → Except RespError Int
  | 0, _, v => .ok v
  | left + 1, i, v =>
    if byte b i < 48 ∨ 57 < byte b i then .error .eSyntax
    else
      let d : Int := (byte b i).toNat - 48
      if (int64Max - d).tdiv 10 < v then .error .eInt
      else posDigits b left (i + 1) (v * 10 + d)

def respInt (s e : Nat) : Except RespError Int :=
  if e ≤ s then .error .eSyntax
  else if byte b s = 45 then
    if e ≤ s + 1 then .error .eSyntax else negDigits b (e - (s + 1)) (s + 1) 0
  else if byte b s = 43 then
    if e ≤ s + 1 then .error .eSyntax else posDigits b (e - (s + 1)) (s + 1) 0
  else posDigits b (e - s) s 0

structure Header where
  type : RespType
  nelem : Int
  pos : Nat
  deriving DecidableEq, Repr

def lineValue (p : Nat) (t : RespType) (e : Nat) : Except RespError Header :=
  match t with
  | .int =>
    match respInt b (p + 1) e with
    | .error rc => .error rc
    | .ok _ => .ok ⟨t, 0, e + 2⟩
  | .null => if e ≠ p + 1 then .error .eSyntax else .ok ⟨t, 0, e + 2⟩
  | .bool =>
    if e ≠ p + 2 ∨ (byte b (p + 1) ≠ 116 ∧ byte b (p + 1) ≠ 102) then .error .eSyntax
    else .ok ⟨t, 0, e + 2⟩
  | _ => .ok ⟨t, 0, e + 2⟩

def blobValue (maxbulk : Nat) (t : RespType) (e : Nat) (n : Int) :
    Except RespError Header :=
  if n < 0 then
    if n ≠ -1 ∨ t ≠ .bulk then .error .eSyntax else .ok ⟨t, 0, e + 2⟩
  else if maxbulk < n.toNat then .error .eTooBig
  else if b.length < e + 2 + n.toNat + 2 then .error .incomplete
  else if byte b (e + 2 + n.toNat) ≠ 13 ∨ byte b (e + 3 + n.toNat) ≠ 10 then .error .eSyntax
  else .ok ⟨t, 0, e + 2 + n.toNat + 2⟩

/-- The elements an aggregate of `n` entries is made of: maps and attributes
count pairs. -/
def elements (t : RespType) (n : Int) : Int := if t = .map ∨ t = .attr then n * 2 else n

def aggregateValue (maxbulk : Nat) (t : RespType) (e : Nat) (n : Int) : Except RespError Header :=
  if n < 0 then
    if n ≠ -1 ∨ t ≠ .array then .error .eSyntax else .ok ⟨t, 0, e + 2⟩
  else if (t = .map ∨ t = .attr) ∧ int64Max.tdiv 2 < n then .error .eTooBig
  else if maxbulk / minValueLen < (elements t n).toNat then .error .eCount
  else .ok ⟨t, elements t n, e + 2⟩

def respOne (p maxbulk : Nat) : Except RespError Header :=
  if b.length ≤ p then .error .incomplete
  else
    match respType (byte b p) with
    | none => .error .eType
    | some t =>
      match respLine b (p + 1) with
      | .error rc => .error rc
      | .ok e =>
        match t.kind with
        | .line => lineValue b p t e
        | .blob =>
          match respInt b (p + 1) e with
          | .error rc => .error rc
          | .ok n => blobValue b maxbulk t e n
        | .aggregate =>
          match respInt b (p + 1) e with
          | .error rc => .error rc
          | .ok n => aggregateValue maxbulk t e n

structure Scan where
  want : List Int
  pos : Nat
  deriving DecidableEq, Repr

def scanInit : Scan := ⟨[1], 0⟩

structure Outcome where
  code : Option RespError
  consumed : Nat
  deriving DecidableEq, Repr

def popDone (want : List Int) : List Int := want.dropWhile (· = 0)

theorem popDone_head {want rest : List Int} {w : Int} (popped : popDone want = w :: rest) : w ≠ 0 := by
  have head := List.head?_dropWhile_not (fun x => decide (x = 0)) want
  unfold popDone at popped
  rw [popped] at head
  simpa using head

/-- The values a header announces, with the one an attribute stands before. -/
def pending (h : Header) : Int := if h.type = .attr then h.nelem + 1 else h.nelem

def scanStep (maxbulk : Nat) (st : Scan) : Scan ⊕ (Outcome × Scan) :=
  match popDone st.want with
  | [] => .inr (⟨none, st.pos⟩, scanInit)
  | w :: rest =>
    match respOne b st.pos maxbulk with
    | .error rc =>
      .inr (⟨some rc, 0⟩, if rc = .incomplete then ⟨w :: rest, st.pos⟩ else scanInit)
    | .ok h =>
      if 0 < pending h then
        if maxDepth ≤ rest.length + 1 then .inr (⟨some .eDepth, 0⟩, scanInit)
        else .inl ⟨pending h :: (w - 1) :: rest, h.pos⟩
      else .inl ⟨(w - 1) :: rest, h.pos⟩

/-- `dyn_resp_scan_resume`. Every round but the last takes at least one byte. -/
def scanResume (st : Scan) (b : Buffer) (maxbulk : Nat) : Option (Outcome × Scan) :=
  let maxbulk := if maxbulk = 0 then defaultMaxbulk else maxbulk
  Loop.run (scanStep b maxbulk) (b.length + 1) st

def respScan (maxbulk : Nat) : Option Outcome := (scanResume scanInit b maxbulk).map Prod.fst

section Bounds

variable {b : Buffer}

variable {e p maxbulk : Nat} {t : RespType}

theorem lineLoop_bounds {left i : Nat} (inside : i + left ≤ b.length)
    (ended : lineLoop b left i = .ok e) : i ≤ e ∧ e + 2 ≤ b.length := by
  induction left generalizing i with
  | zero => simp [lineLoop] at ended
  | succ left ih =>
    simp only [lineLoop] at ended
    split_ifs at ended with newline cr short crlf
    · cases ok.inj ended
      omega
    · have rest := ih (by omega) ended
      omega

theorem respLine_bounds {pos : Nat} (inside : pos ≤ b.length)
    (ended : respLine b pos = .ok e) : pos ≤ e ∧ e + 2 ≤ b.length :=
  lineLoop_bounds (by omega) ended

variable {h : Header}

theorem lineValue_cases (read : lineValue b p t e = .ok h) :
    h = ⟨t, 0, e + 2⟩ ∧ (t = .int → ∃ v, respInt b (p + 1) e = .ok v) := by
  unfold lineValue at read
  split at read
  · cases number : respInt b (p + 1) e with
    | error rc => simp [number] at read
    | ok v =>
      simp only [number] at read
      exact ⟨(ok.inj read).symm, fun _ => ⟨v, rfl⟩⟩
  · split_ifs at read
    exact ⟨(ok.inj read).symm, fun bad => by contradiction⟩
  · split_ifs at read
    exact ⟨(ok.inj read).symm, fun bad => by contradiction⟩
  · exact ⟨(ok.inj read).symm, fun bad => by contradiction⟩

theorem blobValue_cases {n : Int} (read : blobValue b maxbulk t e n = .ok h) :
    (n < 0 ∧ h = ⟨t, 0, e + 2⟩) ∨ (0 ≤ n ∧ e + 2 + n.toNat + 2 ≤ b.length ∧ h = ⟨t, 0, e + 2 + n.toNat + 2⟩) := by
  unfold blobValue at read
  split_ifs at read with neg null big short ended
  · exact .inl ⟨neg, (ok.inj read).symm⟩
  · exact .inr ⟨by omega, by omega, (ok.inj read).symm⟩

theorem aggregateValue_cases {n : Int} (read : aggregateValue maxbulk t e n = .ok h) :
    (n < 0 ∧ t = .array ∧ h = ⟨t, 0, e + 2⟩) ∨ (0 ≤ n ∧ h = ⟨t, elements t n, e + 2⟩) := by
  unfold aggregateValue at read
  split_ifs at read with neg null wide many
  · simp only [not_or, not_not] at null
    exact .inl ⟨neg, null.2, (ok.inj read).symm⟩
  · exact .inr ⟨by omega, (ok.inj read).symm⟩

variable (read : respOne b p maxbulk = .ok h)
include read

theorem respOne_cases :
    p < b.length ∧ ∃ t e, respType (byte b p) = some t ∧ respLine b (p + 1) = .ok e ∧ h.type = t ∧
      ((t.kind = .line ∧ (t = .int → ∃ v, respInt b (p + 1) e = .ok v) ∧ h = ⟨t, 0, e + 2⟩) ∨
      (t.kind = .blob ∧ ∃ n, respInt b (p + 1) e = .ok n ∧ ((n < 0 ∧ h = ⟨t, 0, e + 2⟩) ∨
          (0 ≤ n ∧ e + 2 + n.toNat + 2 ≤ b.length ∧ h = ⟨t, 0, e + 2 + n.toNat + 2⟩))) ∨
      (t.kind = .aggregate ∧ ∃ n, respInt b (p + 1) e = .ok n ∧
        ((n < 0 ∧ t = .array ∧ h = ⟨t, 0, e + 2⟩) ∨ (0 ≤ n ∧ h = ⟨t, elements t n, e + 2⟩)))) := by
  unfold respOne at read
  split_ifs at read with inside
  refine ⟨by omega, ?_⟩
  cases typed : respType (byte b p) with
  | none => simp [typed] at read
  | some t =>
    cases line : respLine b (p + 1) with
    | error rc => simp [typed, line] at read
    | ok e =>
      refine ⟨t, e, rfl, rfl, ?_⟩
      simp only [typed, line] at read
      cases group : t.kind with
      | line =>
        simp only [group] at read
        obtain ⟨rfl, checked⟩ := lineValue_cases read
        exact ⟨rfl, .inl ⟨rfl, checked, rfl⟩⟩
      | blob =>
        cases number : respInt b (p + 1) e with
        | error rc => simp [group, number] at read
        | ok n =>
          simp only [group, number] at read
          have kinds := blobValue_cases read
          refine ⟨?_, .inr (.inl ⟨rfl, n, rfl, kinds⟩)⟩
          rcases kinds with ⟨_, rfl⟩ | ⟨_, _, rfl⟩ <;> rfl
      | aggregate =>
        cases number : respInt b (p + 1) e with
        | error rc => simp [group, number] at read
        | ok n =>
          simp only [group, number] at read
          have kinds := aggregateValue_cases read
          refine ⟨?_, .inr (.inr ⟨rfl, n, rfl, kinds⟩)⟩
          rcases kinds with ⟨_, _, rfl⟩ | ⟨_, rfl⟩ <;> rfl

theorem respOne_bounds : p + minValueLen ≤ h.pos ∧ h.pos ≤ b.length := by
  obtain ⟨inside, t, e, _, line, _, kinds⟩ := respOne_cases read
  have bounds := respLine_bounds (by omega) line
  have least : minValueLen = 3 := rfl
  rcases kinds with ⟨_, _, rfl⟩ | ⟨_, n, _, ⟨_, rfl⟩ | ⟨_, _, rfl⟩⟩ | ⟨_, n, _, ⟨_, _, rfl⟩ | ⟨_, rfl⟩⟩
  all_goals
    simp only
    omega

end Bounds

end DynaJS.Resp
