import DynaJS.Lib.Swar
import DynaJS.Engine.Strings

/-! The scanner of `dyna-csv.c`: `csv_scan` over the bytes from the current one on, with the
8-byte loop inside quoted fields, feeding an arbitrary sink. -/
namespace DynaJS.Csv

open Swar List

def swarOnes : UInt64 := 0x0101010101010101

def swarHighs : UInt64 := 0x8080808080808080

def swarHasZero (v : UInt64) : UInt64 := (v - swarOnes) &&& ~~~v &&& swarHighs

def swarHasByte (v : UInt64) (b : UInt8) : UInt64 := swarHasZero (v ^^^ (swarOnes * UInt64.ofNat b.toNat))

def word (l : List UInt8) : UInt64 := UInt64.ofNat (pack l)

def lf : UInt8 := 10

def cr : UInt8 := 13

/-- `csv_sink`: either callback stops the scan by a nonzero result. The second one can read
`rows`. -/
structure CsvSink (σ : Type) where
  field : σ → List UInt8 → Bool → Option σ
  row : σ → Nat → Option σ

inductive ScanError where
  | syntaxQuote (errrow : Nat)
  | syntaxGarbage (errrow : Nat)
  | oom
  deriving DecidableEq, Repr

/-- `while (buf[i] != quote)`, which no end of the buffer stops. -/
def copyUnchecked (quote : UInt8) : List UInt8 → List UInt8 → Option (List UInt8 × List UInt8)
  | _, [] => none
  | fld, b :: rest => if b = quote then some (fld, b :: rest) else copyUnchecked quote (fld ++ [b]) rest

def copyChecked (quote : UInt8) : List UInt8 → List UInt8 → List UInt8 × List UInt8
  | fld, [] => (fld, [])
  | fld, b :: rest => if b = quote then (fld, b :: rest) else copyChecked quote (fld ++ [b]) rest

/-- From inside a quoted field to the next quote, or to the end: whole words as long as
eight bytes are left. -/
def copyWords (quote : UInt8) : List UInt8 → List UInt8 → Option (List UInt8 × List UInt8)
  | fld, b₀ :: b₁ :: b₂ :: b₃ :: b₄ :: b₅ :: b₆ :: b₇ :: rest =>
    if swarHasByte (word [b₀, b₁, b₂, b₃, b₄, b₅, b₆, b₇]) quote = 0 then
      copyWords quote (fld ++ [b₀, b₁, b₂, b₃, b₄, b₅, b₆, b₇]) rest
    else copyUnchecked quote fld (b₀ :: b₁ :: b₂ :: b₃ :: b₄ :: b₅ :: b₆ :: b₇ :: rest)
  | fld, rest => some (copyChecked quote fld rest)

/-- The loop over a quoted field, after the opening quote: the field, what follows, and
`closed`. A round takes at least one byte; `none` is a read past the buffer. -/
def scanQuoted (quote : UInt8) : Nat → List UInt8 → List UInt8 → Option (List UInt8 × List UInt8 × Bool)
  | 0, _, _ => none
  | _ + 1, fld, [] => some (fld, [], false)
  | fuel + 1, fld, b :: rest =>
    match copyWords quote fld (b :: rest) with
    | none => none
    | some (fld, []) => some (fld, [], false)
    | some (fld, [_]) => some (fld, [], true)
    | some (fld, _ :: c :: after) =>
      if c = quote then scanQuoted quote fuel (fld ++ [quote]) after else some (fld, c :: after, true)

def isStop (delim b : UInt8) : Bool := b == delim || b == lf || b == cr

/-- One field: its bytes, whether they are bytes of the buffer (`stable`), and what follows. -/
def scanField (strict : Bool) (delim quote : UInt8) (rows : Nat) (rest : List UInt8) :
    Option (Except ScanError (List UInt8 × Bool × List UInt8)) :=
  if rest.head? = some quote then
    match scanQuoted quote (rest.length + 1) [] rest.tail with
    | none => none
    | some (fld, after, closed) =>
      if strict && !closed then some (.error (.syntaxQuote (rows + 1)))
      else if strict && after.head?.any (fun b => !isStop delim b) then some (.error (.syntaxGarbage (rows + 1)))
      else some (.ok (fld, false, after))
  else
    -- `find_first_of`
    some (.ok (rest.takeWhile fun b => !isStop delim b, true, rest.dropWhile fun b => !isStop delim b))

def afterLine (c : UInt8) (after : List UInt8) : List UInt8 :=
  if c = cr ∧ after.head? = some lf then after.tail else after

def scanFields {σ : Type} (k : CsvSink σ) (strict : Bool) (delim quote : UInt8) :
    Nat → σ → Nat → List UInt8 → Option (Except ScanError σ)
  | 0, _, _, _ => none
  | fuel + 1, s, rows, rest =>
    match scanField strict delim quote rows rest with
    | none => none
    | some (.error e) => some (.error e)
    | some (.ok (p, stable, rest)) =>
      match k.field s p stable with
      | none => some (.error .oom)
      | some s =>
        match rest with
        | [] =>
          match k.row s rows with
          | none => some (.error .oom)
          | some s => some (.ok s)
        | c :: after =>
          if c = delim then scanFields k strict delim quote fuel s rows after
          else
            match k.row s rows with
            | none => some (.error .oom)
            | some s =>
              if afterLine c after = [] then some (.ok s)
              else scanFields k strict delim quote fuel s (rows + 1) (afterLine c after)

def csvScan {σ : Type} (k : CsvSink σ) (s : σ) (buf : List UInt8) (strict : Bool) (delim quote : UInt8) :
    Option (Except ScanError σ) :=
  if buf = [] then some (.ok s) else scanFields k strict delim quote (buf.length + 1) s 0 buf

section Words

theorem swarHasZero_toNat (v : UInt64) : (swarHasZero v).toNat = zeroMask 8 v.toNat := by
  rw [swarHasZero, UInt64.toNat_and, UInt64.toNat_and, UInt64.toNat_not, zeroMask, Nat.add_comm]
  rfl

theorem swarHasByte_eq_zero_iff (quote : UInt8) {l : List UInt8} (eight : l.length = 8) :
    swarHasByte (word l) quote = 0 ↔ quote ∉ l := by
  have packed : (word l).toNat = pack l := by
    have bound : pack l < 2 ^ 64 := by
      have bytes := pack_lt l
      rwa [eight] at bytes
    rw [word, UInt64.toNat_ofNat', Nat.mod_eq_of_lt bound]
  have spread : (swarOnes * UInt64.ofNat quote.toNat).toNat = pack (List.replicate 8 quote) := by
    have bound : ones 8 * quote.toNat < 2 ^ 64 := by
      have bytes := pack_lt (List.replicate 8 quote)
      rwa [length_replicate, pack_replicate] at bytes
    have byte : quote.toNat < 256 := quote.toNat_lt
    rw [UInt64.toNat_mul, UInt64.toNat_ofNat', Nat.mod_eq_of_lt (show quote.toNat < 2 ^ 64 by omega),
      pack_replicate, show swarOnes.toNat = ones 8 by rfl, Nat.mod_eq_of_lt bound]
  rw [← UInt64.toNat_inj, swarHasByte, swarHasZero_toNat, UInt64.toNat_xor, packed, spread, ← eight,
    ← byteMask_eq_zero_iff]
  rfl

theorem copyChecked_eq (quote : UInt8) (fld rest : List UInt8) :
    copyChecked quote fld rest = (fld ++ rest.takeWhile (· != quote), rest.dropWhile (· != quote)) := by
  induction rest generalizing fld with
  | nil => rw [copyChecked, takeWhile_nil, append_nil, dropWhile_nil]
  | cons b rest ih =>
    by_cases here : b = quote
    · rw [copyChecked, if_pos here, takeWhile_cons_of_neg (by simp [here]),
        dropWhile_cons_of_neg (by simp [here]), append_nil]
    · rw [copyChecked, if_neg here, ih, takeWhile_cons_of_pos (by simp [here]),
        dropWhile_cons_of_pos (by simp [here]), append_assoc, singleton_append]

theorem copyUnchecked_eq {quote : UInt8} {rest : List UInt8} (ahead : quote ∈ rest) (fld : List UInt8) :
    copyUnchecked quote fld rest = some (copyChecked quote fld rest) := by
  induction rest generalizing fld with
  | nil => exact absurd ahead not_mem_nil
  | cons b rest ih =>
    by_cases here : b = quote
    · rw [copyUnchecked, if_pos here, copyChecked, if_pos here]
    · rw [copyUnchecked, if_neg here, copyChecked, if_neg here]
      exact ih ((mem_cons.mp ahead).resolve_left (Ne.symm here)) _

theorem copyWords_eq (quote : UInt8) (fld rest : List UInt8) :
    copyWords quote fld rest = some (copyChecked quote fld rest) := by
  fun_induction copyWords quote fld rest with
  | case1 fld b₀ b₁ b₂ b₃ b₄ b₅ b₆ b₇ rest absent ih =>
    rw [swarHasByte_eq_zero_iff quote rfl] at absent
    have skip : ∀ l fld, quote ∉ l → copyChecked quote fld (l ++ rest) = copyChecked quote (fld ++ l) rest := by
      intro l
      induction l with
      | nil => simp
      | cons b l further =>
        intro fld apart
        rw [mem_cons, not_or] at apart
        rw [cons_append, copyChecked, if_neg (Ne.symm apart.1), further _ apart.2, append_assoc, singleton_append]
    rw [ih, ← skip _ _ absent]
    rfl
  | case2 fld b₀ b₁ b₂ b₃ b₄ b₅ b₆ b₇ rest present =>
    rw [swarHasByte_eq_zero_iff quote rfl, not_not] at present
    exact copyUnchecked_eq (mem_append_left rest present) fld
  | case3 => rfl

end Words

def unquote (quote : UInt8) : List UInt8 → List UInt8 × List UInt8 × Bool
  | [] => ([], [], false)
  | [b] => if b = quote then ([], [], true) else ([b], [], false)
  | b :: c :: after =>
    if b = quote then
      if c = quote then (quote :: (unquote quote after).1, (unquote quote after).2) else ([], c :: after, true)
    else (b :: (unquote quote (c :: after)).1, (unquote quote (c :: after)).2)

theorem unquote_cons {quote b : UInt8} (other : b ≠ quote) (rest : List UInt8) :
    unquote quote (b :: rest) = (b :: (unquote quote rest).1, (unquote quote rest).2) := by
  cases rest with
  | nil => rw [unquote, unquote, if_neg other]
  | cons c after => rw [unquote, if_neg other]

theorem unquote_skip {quote : UInt8} (l rest : List UInt8) (absent : quote ∉ l) :
    unquote quote (l ++ rest) = (l ++ (unquote quote rest).1, (unquote quote rest).2) := by
  induction l with
  | nil => rfl
  | cons b l ih =>
    rw [mem_cons, not_or] at absent
    rw [cons_append, unquote_cons (Ne.symm absent.1), ih absent.2]
    rfl

theorem not_mem_takeWhile_ne (quote : UInt8) (l : List UInt8) : quote ∉ l.takeWhile (· != quote) := by
  intro member
  have kept := mem_takeWhile_imp member
  simp at kept

theorem scanQuoted_eq (quote : UInt8) (fuel : Nat) (fld rest : List UInt8) (enough : rest.length < fuel) :
    scanQuoted quote fuel fld rest = some (fld ++ (unquote quote rest).1, (unquote quote rest).2) := by
  induction fuel generalizing fld rest with
  | zero => omega
  | succ fuel ih =>
    cases rest with
    | nil => rw [scanQuoted, unquote, append_nil]
    | cons b rest =>
      have cut := unquote_skip _ ((b :: rest).dropWhile (· != quote)) (not_mem_takeWhile_ne quote (b :: rest))
      have shorter : ((b :: rest).dropWhile (· != quote)).length ≤ rest.length + 1 :=
        (dropWhile_suffix _).sublist.length_le
      rw [takeWhile_append_dropWhile] at cut
      rw [scanQuoted, copyWords_eq, copyChecked_eq, cut]
      have stops := List.head?_dropWhile_not (· != quote) (b :: rest)
      generalize (b :: rest).dropWhile (· != quote) = tail at *
      cases tail with
      | nil => rw [unquote, append_nil]
      | cons q tail =>
        have found : q = quote := by simpa using stops
        cases tail with
        | nil =>
          rw [unquote, if_pos found]
          rw [append_nil]
        | cons c after =>
          rw [length_cons, length_cons] at shorter
          rw [length_cons] at enough
          rw [unquote]
          dsimp only
          split_ifs with doubled
          · rw [ih _ _ (by omega), append_assoc, append_assoc, singleton_append]
          · rw [append_nil]

end DynaJS.Csv
