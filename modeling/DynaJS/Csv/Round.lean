import DynaJS.Csv.Text

/-! What `csv.parse` reads from what `csv.stringify` writes: every cell up to its first NUL, and
the first one without a byte order mark that stands bare at the front of the text. -/
namespace DynaJS.Csv

open Engine List Nat Except
open Option (bind_some map_some)

variable (delim quote : UInt8)

def lineTail (cells : List (List UInt8)) : List UInt8 :=
  cells.flatMap fun b => delim :: emitField delim quote b

def line : List (List UInt8) → List UInt8
  | [] => []
  | b :: cells => emitField delim quote b ++ lineTail delim quote cells

def csvBytes (rows : List (List (List UInt8))) : List UInt8 :=
  rows.flatMap fun r => line delim quote r ++ [lf]

def cellBytes (c : JsString) : List UInt8 := utf8Units (c.units.takeWhile (· != 0))

def csvText (rows : List (List JsString)) : List UInt8 :=
  csvBytes delim quote (rows.map (·.map cellBytes))

def Lent (c : JsString) : Prop := ∃ bytes, toCStringLen c = .ok bytes

section Write

variable (delim quote : UInt8)

theorem csvBytes_cons (r : List (List UInt8)) (rows : List (List (List UInt8))) :
    csvBytes delim quote (r :: rows) = line delim quote r ++ lf :: csvBytes delim quote rows := by
  rw [csvBytes, flatMap_cons, append_assoc, singleton_append, ← csvBytes]

theorem all_ne {α : Type} [BEq α] [LawfulBEq α] {z : α} {l : List α} (absent : z ∉ l) : ∀ c ∈ l, (c != z) = true :=
  fun _ member => bne_iff_ne.mpr (ne_of_mem_of_not_mem member absent)

theorem cString_utf8Units (u : List UInt16) : cString (utf8Units u) = utf8Units (u.takeWhile (· != 0)) := by
  have kept : ∀ t, 0 ∉ t → ∀ b ∈ utf8Units t, (b != 0) = true := fun t absent =>
    all_ne fun member => absent ((ascii_mem_utf8Units (by decide) t).mp member)
  by_cases zero : 0 ∈ u
  · obtain ⟨t, r, rfl, absent⟩ := eq_append_cons_of_mem zero
    rw [cString, utf8Units_append_ascii (by decide), takeWhile_append_of_pos (kept t absent),
      takeWhile_append_of_pos (all_ne absent), takeWhile_cons_of_neg (by decide),
      takeWhile_cons_of_neg (by decide), append_nil, append_nil]
  · rw [cString, takeWhile_eq_self_iff.mpr (kept u zero), takeWhile_eq_self_iff.mpr (all_ne zero)]

theorem guard_ok_iff {ε α : Type} {p : Prop} [Decidable p] {e : ε} {x : Except ε α} {r : α} :
    (if p then .error e else x) = .ok r ↔ ¬p ∧ x = .ok r := by
  split_ifs <;> simp [*]

theorem cellText_ok_iff {c : JsString} {s : Option (List UInt8)} :
    cellText (.text c) = .ok s ↔ Lent c ∧ s = some (cellBytes c) := by
  cases lends : toCStringLen c with
  | error e => simp [cellText, lends, Lent, Except.map]
  | ok bytes =>
    rw [cellText, lends, toCStringLen_ok lends, Except.map, cString_utf8Units]
    simp [Lent, lends, cellBytes, eq_comm]

theorem emitCells_ok_iff (first : Bool) (out : List UInt8) (cells : List JsString) (res : List UInt8) :
    emitCells true delim quote first out (cells.map .text) = .ok res ↔
      (∀ c ∈ cells, Lent c) ∧ (cells ≠ [] → res.length ≤ csvTextMax) ∧
      res = out ++ (if first then line delim quote (cells.map cellBytes)
        else lineTail delim quote (cells.map cellBytes)) := by
  induction cells generalizing first out with
  | nil =>
    have empty : (if first then line delim quote [] else lineTail delim quote []) = [] := by
      cases first <;> rfl
    rw [map_nil, map_nil, emitCells, empty, eq_comm]
    simp
  | cons c cells ih =>
    generalize next : out ++ (if first then [] else [delim]) ++ emitField delim quote (cellBytes c) = step
    have whole : out ++ (if first then line delim quote ((c :: cells).map cellBytes)
        else lineTail delim quote ((c :: cells).map cellBytes)) =
          step ++ lineTail delim quote (cells.map cellBytes) := by
      rw [← next]
      cases first <;> simp [line, lineTail]
    have goes : emitCells true delim quote first out ((c :: cells).map .text) = .ok res ↔
        Lent c ∧ step.length ≤ csvTextMax ∧ emitCells true delim quote false step (cells.map .text) = .ok res := by
      rw [map_cons, emitCells, bind_ok_iff]
      simp only [cellText_ok_iff, and_assoc, exists_and_left, exists_eq_left, ← next]
      exact and_congr_right fun _ => (guard_ok_iff).trans (by simp)
    rw [goes, ih, whole, forall_mem_cons]
    constructor
    · rintro ⟨lent, short, all, bound, rfl⟩
      refine ⟨⟨lent, all⟩, fun _ => ?_, rfl⟩
      cases cells with
      | nil => simpa [lineTail] using short
      | cons d cells => exact bound (cons_ne_nil _ _)
    · rintro ⟨⟨lent, all⟩, bound, rfl⟩
      have short := bound (cons_ne_nil _ _)
      refine ⟨lent, ?_, all, fun _ => short, rfl⟩
      rw [length_append] at short
      omega

theorem length_le_lineTail (cells : List (List UInt8)) : cells.length ≤ (lineTail delim quote cells).length := by
  induction cells with
  | nil => exact zero_le _
  | cons b cells ih =>
    rw [lineTail, flatMap_cons, length_append, length_cons, length_cons, ← lineTail]
    omega

theorem length_le_line (cells : List (List UInt8)) : cells.length ≤ (line delim quote cells ++ [lf]).length := by
  cases cells with
  | nil => exact zero_le _
  | cons b cells =>
    have tail := length_le_lineTail delim quote cells
    rw [line, length_append, length_append, length_cons, length_singleton]
    omega

theorem emitRow_ok_iff (i : Nat) (out : List UInt8) (cells : List JsString) (res : List UInt8) :
    emitRow delim quote none i out (.array (cells.map .text)) = .ok res ↔
      (∀ c ∈ cells, Lent c) ∧ res.length ≤ csvTextMax ∧
      res = out ++ (line delim quote (cells.map cellBytes) ++ [lf]) := by
  have wide := length_le_line delim quote (cells.map cellBytes)
  rw [length_map, length_append, length_singleton] at wide
  refine Iff.trans (guard_ok_iff (x := emitCells true delim quote true out (cells.map .text) >>= fun out =>
    if csvTextMax < (out ++ [lf]).length then .error tooLong else .ok (out ++ [lf]))) ?_
  rw [bind_ok_iff, length_map]
  simp only [guard_ok_iff, emitCells_ok_iff, if_pos, ok.injEq]
  constructor
  · rintro ⟨-, _, ⟨all, -, rfl⟩, short, rfl⟩
    exact ⟨all, not_lt.mp short, append_assoc ..⟩
  · rintro ⟨all, short, rfl⟩
    rw [← append_assoc] at short ⊢
    have sizes := short
    rw [length_append, length_append, length_singleton] at sizes
    exact ⟨by omega, _, ⟨all, fun _ => by rw [length_append]; omega, rfl⟩, not_lt.mpr short, rfl⟩

theorem emitRows_ok_iff (i : Nat) (out : List UInt8) (rows : List (List JsString)) (res : List UInt8) :
    emitRows delim quote none i out (rows.map fun r => .array (r.map .text)) = .ok res ↔
      (∀ r ∈ rows, ∀ c ∈ r, Lent c) ∧ (rows ≠ [] → res.length ≤ csvTextMax) ∧
      res = out ++ csvText delim quote rows := by
  induction rows generalizing i out with
  | nil =>
    rw [map_nil, emitRows, csvText, csvBytes, eq_comm]
    simp
  | cons r rows ih =>
    have whole : out ++ csvText delim quote (r :: rows) =
        out ++ (line delim quote (r.map cellBytes) ++ [lf]) ++ csvText delim quote rows := by
      simp [csvText, csvBytes_cons]
    rw [map_cons, emitRows, bind_ok_iff, whole, forall_mem_cons]
    simp only [emitRow_ok_iff, ih]
    constructor
    · rintro ⟨_, ⟨all, bound, rfl⟩, rest, within, rfl⟩
      refine ⟨⟨all, rest⟩, fun _ => ?_, rfl⟩
      cases rows with
      | nil => simpa [csvText, csvBytes] using bound
      | cons d rows => exact within (cons_ne_nil _ _)
    · rintro ⟨⟨all, rest⟩, bound, rfl⟩
      have short := bound (cons_ne_nil _ _)
      refine ⟨_, ⟨all, ?_, rfl⟩, rest, fun _ => short, rfl⟩
      rw [length_append] at short
      omega

theorem csvStringify_ok_iff {opts : DelimOpts} {delim quote : UInt8}
    (accepted : optsDelimQuote "csv.stringify" opts = .ok (delim, quote)) (rows : List (List JsString))
    (hasHeader : Bool) (text : JsString) :
    csvStringify (rows.map fun r => .array (r.map .text)) opts hasHeader = .ok text ↔
      (∀ r ∈ rows, ∀ c ∈ r, Lent c) ∧ (csvText delim quote rows).length ≤ csvTextMax ∧
      text = newStringLen (csvText delim quote rows) := by
  rw [csvStringify, accepted]
  cases rows with
  | nil =>
    change Except.ok (newStringLen []) = _ ↔ _
    rw [eq_comm]
    simp [csvText, csvBytes]
  | cons r rows =>
    change (emitRows delim quote none 0 [] ((r :: rows).map fun r => .array (r.map .text)) >>= fun out =>
      Except.ok (newStringLen out)) = _ ↔ _
    rw [bind_ok_iff]
    simp only [emitRows_ok_iff, nil_append, ok.injEq]
    constructor
    · rintro ⟨_, ⟨all, bound, rfl⟩, rfl⟩
      exact ⟨all, bound (cons_ne_nil _ _), rfl⟩
    · rintro ⟨all, bound, rfl⟩
      exact ⟨_, ⟨all, fun _ => bound, rfl⟩, rfl⟩

end Write

section Options

structure Marks (delim quote : UInt8) : Prop where
  ascii : delim.toNat < 128 ∧ quote.toNat < 128
  differ : delim ≠ quote
  delimLine : delim ≠ lf ∧ delim ≠ cr
  quoteLine : quote ≠ lf ∧ quote ≠ cr

theorem single_ascii {u : List UInt16} {c : UInt8} (alone : utf8Units u = [c]) : c.toNat < 128 := by
  have front : ∀ code rest, unicodeToUtf8 code ++ rest = [c] → code ≤ 0x10FFFF → c.toNat < 128 := by
    intro code rest same top
    by_cases low : code < 0x80
    · rw [unicodeToUtf8_ascii low, singleton_append, cons.injEq] at same
      rw [← same.1, UInt8.toNat_ofNat', mod_eq_of_lt (by omega)]
      exact low
    · have long := (unicodeToUtf8_high code (by omega) top).1
      have size := congrArg length same
      rw [length_append, length_singleton] at size
      omega
  fun_cases utf8Units u with
  | case1 => exact absurd alone (cons_ne_nil c []).symm
  | case2 a => exact front a.toNat [] (by rw [append_nil]; exact alone) (unit_le a)
  | case3 a b u pair =>
    rw [utf8Units, if_pos pair] at alone
    rw [Bool.and_eq_true] at pair
    exact front _ _ alone (fromSurrogate_bounds pair.1 pair.2).2
  | case4 a b u other =>
    rw [utf8Units, if_neg other] at alone
    exact front _ _ alone (unit_le a)

variable {pfx : String} {delim quote : UInt8}

theorem optChar_ok_iff {key role : String} {opt : Option JsString} {default reserved c : UInt8} :
    optChar pfx key opt default reserved role = .ok c ↔ opt = none ∧ c = default ∨
      ∃ s bytes, opt = some s ∧ toCStringLen s = .ok bytes ∧ cString bytes = [c] ∧ c ≠ reserved ∧ c ≠ lf ∧ c ≠ cr := by
  cases opt with
  | none => simp [optChar, eq_comm]
  | some s =>
    cases lends : toCStringLen s with
    | error e => simp [optChar, lends, bind, Except.bind]
    | ok bytes =>
      have read : optChar pfx key (some s) default reserved role =
        optsOneChar pfx key (cString bytes) reserved role := by
        rw [optChar, lends]
        rfl
      rw [read]
      unfold optsOneChar
      split
      · split_ifs <;> simp_all <;> grind
      · simp_all

variable {opts : DelimOpts}

theorem optsDelimQuote_ok_iff : optsDelimQuote pfx opts = .ok (delim, quote) ↔
      optChar pfx "delimiter" opts.delimiter comma dquote "quote" = .ok delim ∧
      optChar pfx "quote" opts.quote dquote comma "delimiter" = .ok quote ∧ delim ≠ quote := by
  rw [optsDelimQuote]
  cases optChar pfx "delimiter" opts.delimiter comma dquote "quote" with
  | error e => simp [bind, Except.bind]
  | ok d =>
    cases optChar pfx "quote" opts.quote dquote comma "delimiter" with
    | error e => simp [bind, Except.bind]
    | ok q => by_cases same : d = q <;> simp [bind, Except.bind, same, pure, Except.pure, throw, throwThe] <;> grind

theorem optsDelimQuote_marks (accepted : optsDelimQuote pfx opts = .ok (delim, quote)) : Marks delim quote := by
  obtain ⟨one, two, differ⟩ := optsDelimQuote_ok_iff.mp accepted
  have allowed : ∀ {key role opt default reserved c}, optChar pfx key opt default reserved role = .ok c →
      default = comma ∨ default = dquote → c.toNat < 128 ∧ c ≠ lf ∧ c ≠ cr := by
    intro key role opt default reserved c ok is
    obtain ⟨-, rfl⟩ | ⟨s, bytes, -, lends, held, -, line⟩ := optChar_ok_iff.mp ok
    · obtain rfl | rfl := is <;> decide
    · rw [toCStringLen_ok lends, cString_utf8Units] at held
      exact ⟨single_ascii held, line⟩
  have left := allowed one (.inl rfl)
  have right := allowed two (.inr rfl)
  exact ⟨⟨left.1, right.1⟩, differ, left.2, right.2⟩

theorem optsDelimQuote_pfx {one : String} (two : String)
    (accepted : optsDelimQuote one opts = .ok (delim, quote)) : optsDelimQuote two opts = .ok (delim, quote) := by
  rw [optsDelimQuote_ok_iff, optChar_ok_iff, optChar_ok_iff] at accepted ⊢
  exact accepted

end Options

section Scan

variable {delim quote : UInt8}

theorem unquote_doubled (quote : UInt8) (b after : List UInt8) (next : after.head? ≠ some quote) :
    unquote quote (doubled quote b ++ quote :: after) = (b, after, true) := by
  induction b with
  | nil =>
    cases after with
    | nil => rw [doubled, nil_append, unquote, if_pos rfl]
    | cons c after =>
      rw [doubled, nil_append, unquote, if_pos rfl, if_neg fun same => next (by rw [same]; rfl)]
  | cons p b ih =>
    rw [doubled]
    split_ifs with here
    · rw [cons_append, cons_append, here, unquote, if_pos rfl, if_pos rfl, ih]
    · rw [cons_append, unquote_cons here, ih]

theorem not_needs {b : List UInt8} (plain : fieldNeedsQuote delim quote b = false) :
    ∀ p ∈ b, p ≠ quote ∧ isStop delim p = false := by
  intro p member
  rw [fieldNeedsQuote, any_eq_false] at plain
  have clear := plain p member
  simp only [Bool.or_eq_true, beq_iff_eq, not_or] at clear
  refine ⟨clear.1.1.2, ?_⟩
  rw [isStop]
  simp [clear.1.1.1, clear.1.2, clear.2]

theorem scanField_emitted (marks : Marks delim quote) (strict : Bool) (rows : Nat) (b : List UInt8) {stop : UInt8}
    (stops : stop = delim ∨ stop = lf) (after : List UInt8) :
    scanField strict delim quote rows (emitField delim quote b ++ stop :: after) =
      some (.ok (b, !fieldNeedsQuote delim quote b, stop :: after)) := by
  have apart : stop ≠ quote := by
    obtain rfl | rfl := stops
    · exact marks.differ
    · exact marks.quoteLine.1.symm
  have ends : isStop delim stop = true := by
    obtain rfl | rfl := stops
    · simp [isStop]
    · simp [isStop]
  rw [emitField]
  cases needs : fieldNeedsQuote delim quote b with
  | true =>
    rw [if_pos rfl, cons_append, cons_append, scanField, head?_cons, if_pos rfl, tail_cons,
      scanQuoted_eq _ _ _ _ (by rw [length_cons]; omega), append_assoc, singleton_append,
      unquote_doubled quote b _ fun same : (stop :: after).head? = some quote => apart (Option.some.inj same)]
    dsimp only
    rw [Bool.not_true, Bool.and_false, if_neg Bool.false_ne_true, head?_cons, Option.any_some, ends, Bool.not_true,
      Bool.and_false, if_neg Bool.false_ne_true, nil_append]
  | false =>
    have clear := not_needs needs
    rw [scanField, if_neg, takeWhile_append_of_pos, dropWhile_append_of_pos, takeWhile_cons_of_neg]
    · simp [ends]
    · simp [ends]
    · intro p member
      simp [(clear p member).2]
    · intro p member
      simp [(clear p member).2]
    · cases b with
      | nil => exact fun same => apart (Option.some.inj same)
      | cons p b => exact fun same => (clear p mem_cons_self).1 (Option.some.inj same)

variable {σ : Type}

def feed (k : CsvSink σ) (delim quote : UInt8) (s : σ) : List (List UInt8) → Option σ
  | [] => some s
  | b :: cells => (k.field s b (!fieldNeedsQuote delim quote b)).bind fun s => feed k delim quote s cells

theorem line_cons (b c : List UInt8) (cells : List (List UInt8)) :
    line delim quote (b :: c :: cells) = emitField delim quote b ++ delim :: line delim quote (c :: cells) := by
  rw [line, lineTail, flatMap_cons, cons_append, line, lineTail]

theorem scanFields_line (k : CsvSink σ) (marks : Marks delim quote) (strict : Bool) (fuel : Nat) (s : σ)
    (rows : Nat) {cells : List (List UInt8)} (some_cell : cells ≠ []) (rest : List UInt8) :
    scanFields k strict delim quote (fuel + cells.length) s rows (line delim quote cells ++ lf :: rest) =
      match (feed k delim quote s cells).bind fun s => k.row s rows with
      | none => some (.error .oom)
      | some s => if rest = [] then some (.ok s) else scanFields k strict delim quote fuel s (rows + 1) rest := by
  induction cells generalizing s with
  | nil => exact absurd rfl some_cell
  | cons b cells ih =>
    cases cells with
    | nil =>
      have read := scanField_emitted marks strict rows b (.inr rfl) rest
      rw [line, lineTail, flatMap_nil, append_nil, length_singleton, scanFields, read, feed]
      dsimp only
      cases k.field s b (!fieldNeedsQuote delim quote b) with
      | none => rfl
      | some s =>
        dsimp only [bind_some, feed]
        rewrite [if_neg marks.delimLine.1.symm]
        cases k.row s rows <;> rfl
    | cons c cells =>
      have read := scanField_emitted marks strict rows b (.inl rfl) (line delim quote (c :: cells) ++ lf :: rest)
      rw [line_cons, append_assoc, cons_append, length_cons, ← add_assoc, scanFields, read, feed]
      dsimp only
      cases k.field s b (!fieldNeedsQuote delim quote b) with
      | none => rfl
      | some s =>
        dsimp only [bind_some]
        rw [if_pos rfl]
        exact ih s (cons_ne_nil _ _)

def feedRows (k : CsvSink σ) (delim quote : UInt8) : σ → Nat → List (List (List UInt8)) → Option σ
  | s, _, [] => some s
  | s, i, r :: rows =>
    ((feed k delim quote s r).bind fun s => k.row s i).bind fun s => feedRows k delim quote s (i + 1) rows

theorem scanFields_rows (k : CsvSink σ) (marks : Marks delim quote) (strict : Bool) {s final : σ}
    {rows : List (List (List UInt8))} (filled : ∀ r ∈ rows, r ≠ []) (some_row : rows ≠ []) (i fuel : Nat)
    (enough : (csvBytes delim quote rows).length ≤ fuel) (made : feedRows k delim quote s i rows = some final) :
    scanFields k strict delim quote fuel s i (csvBytes delim quote rows) = some (.ok final) := by
  induction rows generalizing s i fuel with
  | nil => exact absurd rfl some_row
  | cons r rows ih =>
    have long := length_le_line delim quote r
    rw [csvBytes_cons, length_append, length_cons] at enough
    rw [length_append, length_singleton] at long
    obtain ⟨left, rfl⟩ : ∃ n, fuel = n + r.length := ⟨fuel - r.length, by omega⟩
    rw [csvBytes_cons, scanFields_line k marks strict left s i (filled r mem_cons_self)]
    rw [feedRows] at made
    cases done : (feed k delim quote s r).bind fun s => k.row s i with
    | none =>
      rw [done] at made
      contradiction
    | some mid =>
      rw [done, bind_some] at made
      dsimp only
      cases rows with
      | nil =>
        rw [csvBytes, flatMap_nil, if_pos rfl, ← Option.some.inj made]
      | cons q rows =>
        rw [if_neg (by simp [csvBytes_cons])]
        exact ih (fun d member => filled d (mem_cons_of_mem _ member)) (cons_ne_nil _ _) (i + 1) left (by omega) made

theorem csvScan_csvBytes (k : CsvSink σ) (marks : Marks delim quote) (strict : Bool) {s final : σ}
    {rows : List (List (List UInt8))} (filled : ∀ r ∈ rows, r ≠ [])
    (made : feedRows k delim quote s 0 rows = some final) :
    csvScan k s (csvBytes delim quote rows) strict delim quote = some (.ok final) := by
  cases rows with
  | nil =>
    rw [csvScan, csvBytes, flatMap_nil, if_pos rfl, ← Option.some.inj made]
  | cons r rows =>
    rw [csvScan, if_neg (by simp [csvBytes_cons])]
    exact scanFields_rows k marks strict filled (cons_ne_nil _ _) 0 _ (le_succ _) made

end Scan

section Sink

structure Fresh (js : JsSink) : Prop where
  held : ∀ last c q v, js.last = some last → last c = some (q, v) → v = newStringLen q

variable {js : JsSink}

section

variable (fresh : Fresh js)
include fresh

theorem csvJsString_spec (c : Nat) (p : List UInt8) (stable : Bool) :
    ∃ last, csvJsString js c p stable = (newStringLen p, { js with last := last }) ∧
      Fresh { js with last := last } := by
  obtain ⟨rows, header, vals, width, hasHeader, last⟩ := js
  rw [csvJsString]
  cases last with
  | none => exact ⟨none, rfl, fresh⟩
  | some last =>
    have kept (rule : Nat → Option (List UInt8 × JsString))
        (updated : rule = Function.update last c (if stable then some (p, newStringLen p) else none)) :
        Fresh ⟨rows, header, vals, width, hasHeader, some rule⟩ := by
      refine ⟨fun last' d q v eq found => ?_⟩
      rw [← Option.some.inj eq, updated] at found
      by_cases here : d = c
      · rw [here, Function.update_self] at found
        cases stable with
        | false => contradiction
        | true =>
          obtain ⟨rfl, rfl⟩ := Prod.mk.inj (Option.some.inj found)
          rfl
      · rw [Function.update_of_ne here] at found
        exact fresh.held last d q v rfl found
    dsimp only
    by_cases within : c < csvRepeatCols
    · rw [if_pos within]
      cases found : last c with
      | none => exact ⟨_, rfl, kept _ rfl⟩
      | some entry =>
        obtain ⟨q, v⟩ := entry
        dsimp only
        by_cases equal : q = p
        · rw [if_pos equal, fresh.held last c q v rfl found, equal]
          exact ⟨some last, rfl, fresh⟩
        · rw [if_neg equal]
          exact ⟨_, rfl, kept _ rfl⟩
    · rw [if_neg within]
      exact ⟨some last, rfl, fresh⟩

theorem csvJsField_spec (room : ∀ w, js.width = some w → js.vals.length < w) (p : List UInt8) (stable : Bool) :
    ∃ last, csvJsField js p stable = some { js with last := last, vals := js.vals ++ [newStringLen p] } ∧
      Fresh { js with last := last, vals := js.vals ++ [newStringLen p] } := by
  obtain ⟨last, made, kept⟩ := csvJsString_spec fresh js.vals.length p stable
  refine ⟨last, ?_, ⟨kept.held⟩⟩
  have space : ¬ (js.width.any fun w => w ≤ js.vals.length) = true := by
    cases width : js.width with
    | none => exact Bool.false_ne_true
    | some w =>
      have below := room w width
      simpa using below
  rw [csvJsField, if_neg space, made]

theorem feed_jsSink {cells : List (List UInt8)} (room : ∀ w, js.width = some w → js.vals.length + cells.length ≤ w) :
    ∃ last, feed jsSink delim quote js cells =
        some { js with last := last, vals := js.vals ++ cells.map newStringLen } ∧
      Fresh { js with last := last, vals := js.vals ++ cells.map newStringLen } := by
  induction cells generalizing js with
  | nil =>
    refine ⟨js.last, ?_, ⟨fresh.held⟩⟩
    rw [feed, map_nil, append_nil]
  | cons b cells ih =>
    have first : ∀ w, js.width = some w → js.vals.length < w := fun w width => by
      have all := room w width
      rw [length_cons] at all
      omega
    obtain ⟨last, made, kept⟩ := csvJsField_spec fresh first b (!fieldNeedsQuote delim quote b)
    have rest : ∀ w, js.width = some w → (js.vals ++ [newStringLen b]).length + cells.length ≤ w := fun w width => by
      have all := room w width
      rw [length_cons] at all
      rw [length_append, length_singleton]
      omega
    obtain ⟨last', done, final⟩ := ih kept rest
    rw [append_assoc, singleton_append, ← map_cons] at done final
    refine ⟨last', ?_, final⟩
    rw [feed]
    change (csvJsField js b _).bind _ = _
    rw [made, bind_some, done]

theorem csvJsRow_spec (plain : js.hasHeader = false) (i w : Nat)
    (full : js.vals.length = w) (width : js.width = some w ∨ (js.width = none ∧ w ≤ int32Max)) :
    ∃ last, csvJsRow js i = some ⟨js.rows ++ [js.vals], js.header, [], some w, false, last⟩ ∧
      Fresh ⟨js.rows ++ [js.vals], js.header, [], some w, false, last⟩ := by
  have pad : ∀ left js, js.vals.length = w → csvJsPad w left js = some js := by
    intro left js full
    cases left with
    | zero => rfl
    | succ left => rw [csvJsPad, if_neg (by omega)]
  rw [csvJsRow]
  obtain known | ⟨unknown, small⟩ := width
  · refine ⟨js.last, ?_, ⟨fresh.held⟩⟩
    rw [known]
    dsimp only
    rw [pad w js full, map_some, if_neg fun both => absurd (plain.symm.trans both.1) Bool.false_ne_true, ← plain,
      ← known]
  · refine ⟨some fun _ => none, ?_, ⟨fun last c q v eq found => ?_⟩⟩
    · rw [unknown, full, if_neg (by omega)]
      dsimp only
      rw [pad w ⟨js.rows, js.header, js.vals, some w, js.hasHeader, some fun _ => none⟩ full, map_some]
      rw [if_neg fun both => absurd (plain.symm.trans both.1) Bool.false_ne_true, plain]
    · rw [← Option.some.inj eq] at found
      contradiction

end

theorem feedRows_jsSink (w : Nat) (small : w ≤ int32Max) (fresh : Fresh js)
    (plain : js.hasHeader = false) (empty : js.vals = []) (width : js.width = some w ∨ js.width = none)
    {rows : List (List (List UInt8))} (even : ∀ r ∈ rows, r.length = w) (i : Nat) :
    ∃ final, feedRows jsSink delim quote js i rows = some final ∧
      final.rows = js.rows ++ rows.map (·.map newStringLen) ∧ final.header = js.header := by
  induction rows generalizing js i with
  | nil => exact ⟨js, rfl, (append_nil _).symm, rfl⟩
  | cons r rows ih =>
    have long := even r mem_cons_self
    have room : ∀ v, js.width = some v → js.vals.length + r.length ≤ v := by
      intro v known
      rw [empty, length_nil]
      rw [known] at width
      obtain same | impossible := width
      · rw [Option.some.inj same]
        omega
      · contradiction
    obtain ⟨last, fed, kept⟩ := feed_jsSink delim quote fresh room
    rw [empty, nil_append] at fed kept
    obtain ⟨last', ended, next⟩ := csvJsRow_spec kept plain i w (by rw [length_map]; exact long)
      (width.imp id fun none => ⟨none, small⟩)
    obtain ⟨final, done, held, header⟩ := ih next rfl rfl (.inl rfl)
      (fun q member => even q (mem_cons_of_mem _ member)) (i + 1)
    refine ⟨final, ?_, ?_, header⟩
    · rw [feedRows, fed]
      change (csvJsRow _ i).bind _ = _
      rw [ended, bind_some, done]
    · rw [held, append_assoc, map_cons, singleton_append]

end Sink

section Text

def IsUtf8 (b : List UInt8) : Prop := ∃ u, b = utf8Units u

theorem IsUtf8.nil : IsUtf8 [] := ⟨[], rfl⟩

theorem IsUtf8.join {a : UInt8} (low : a.toNat < 128) {b d : List UInt8} (left : IsUtf8 b) (right : IsUtf8 d) :
    IsUtf8 (b ++ a :: d) := by
  obtain ⟨u, rfl⟩ := left
  obtain ⟨v, rfl⟩ := right
  have small := UInt16.toNat_ofNat_of_lt' (show a.toNat < 65536 by omega)
  refine ⟨u ++ UInt16.ofNat a.toNat :: v, ?_⟩
  rw [utf8Units_append_ascii (by rw [small]; exact low), small, UInt8.ofNat_toNat]

theorem doubled_apart {quote : UInt8} {b : List UInt8} (absent : quote ∉ b) : doubled quote b = b := by
  induction b with
  | nil => rfl
  | cons p b ih =>
    rw [mem_cons, not_or] at absent
    rw [doubled, if_neg (Ne.symm absent.1), ih absent.2]

theorem doubled_append (quote : UInt8) (b d : List UInt8) :
    doubled quote (b ++ d) = doubled quote b ++ doubled quote d := by
  induction b with
  | nil => rfl
  | cons p b ih =>
    rw [cons_append, doubled, doubled, ih]
    split <;> rfl

/-- Doubling an ASCII mark keeps the text well formed. The induction cuts at the first one. -/
theorem IsUtf8.doubled {quote : UInt8} (low : quote.toNat < 128) (u : List UInt16) :
    IsUtf8 (doubled quote (utf8Units u)) := by
  have small := UInt16.toNat_ofNat_of_lt' (show quote.toNat < 65536 by omega)
  induction size : u.length using Nat.strong_induction_on generalizing u with
  | _ n ih =>
    by_cases inside : UInt16.ofNat quote.toNat ∈ u
    · obtain ⟨t, r, rfl, absent⟩ := eq_append_cons_of_mem inside
      have apart : quote ∉ utf8Units t := fun member => absent ((ascii_mem_utf8Units low t).mp member)
      rw [length_append, length_cons] at size
      have rest := ih r.length (by omega) r rfl
      rw [utf8Units_append_ascii (by rw [small]; exact low), small, UInt8.ofNat_toNat, doubled_append,
        doubled_apart apart, Csv.doubled, if_pos rfl]
      exact .join low ⟨t, rfl⟩ (.join low .nil rest)
    · have apart : quote ∉ utf8Units u := fun member => inside ((ascii_mem_utf8Units low u).mp member)
      rw [doubled_apart apart]
      exact ⟨u, rfl⟩

variable {delim quote : UInt8} (marks : Marks delim quote)
include marks

theorem IsUtf8.emitField {b : List UInt8} (text : IsUtf8 b) : IsUtf8 (emitField delim quote b) := by
  rw [Csv.emitField]
  split
  · obtain ⟨u, rfl⟩ := text
    exact .join marks.ascii.2 (.join marks.ascii.2 .nil (.doubled marks.ascii.2 u)) .nil
  · exact text

theorem IsUtf8.lineTail {front : List UInt8} (before : IsUtf8 front)
    {cells : List (List UInt8)} (texts : ∀ b ∈ cells, IsUtf8 b) : IsUtf8 (front ++ lineTail delim quote cells) := by
  induction cells generalizing front with
  | nil =>
    rw [Csv.lineTail, flatMap_nil, append_nil]
    exact before
  | cons b cells ih =>
    rw [Csv.lineTail, flatMap_cons, ← Csv.lineTail, ← append_assoc]
    exact ih (.join marks.ascii.1 before (.emitField marks (texts b mem_cons_self)))
      fun d member => texts d (mem_cons_of_mem _ member)

theorem IsUtf8.csvBytes {rows : List (List (List UInt8))}
    (texts : ∀ r ∈ rows, ∀ b ∈ r, IsUtf8 b) : IsUtf8 (csvBytes delim quote rows) := by
  induction rows with
  | nil => exact .nil
  | cons r rows ih =>
    have rest := ih fun q member => texts q (mem_cons_of_mem _ member)
    have first : IsUtf8 (line delim quote r) := by
      have cells := texts r mem_cons_self
      cases r with
      | nil => exact .nil
      | cons b r =>
        exact .lineTail marks (.emitField marks (cells b mem_cons_self))
          fun d member => cells d (mem_cons_of_mem _ member)
    rw [csvBytes_cons]
    exact .join (by decide) first rest

theorem csvText_isUtf8 (rows : List (List JsString)) : IsUtf8 (csvText delim quote rows) := by
  refine .csvBytes marks fun r member b inside => ?_
  obtain ⟨row, -, rfl⟩ := mem_map.mp member
  obtain ⟨c, -, rfl⟩ := mem_map.mp inside
  exact ⟨_, rfl⟩

end Text

section Mark

def bom : List UInt8 := [0xEF, 0xBB, 0xBF]

def dropBom (data : List UInt8) : List UInt8 := if data.take 3 = bom then data.drop 3 else data

def firstCell (b : List UInt8) : List UInt8 :=
  if fieldNeedsQuote delim quote b then b else dropBom b

def seen : List (List (List UInt8)) → List (List (List UInt8))
  | (b :: r) :: rows => (firstCell delim quote b :: r) :: rows
  | rows => rows

theorem bom_length {b : List UInt8} (marked : b.take 3 = bom) : 3 ≤ b.length := by
  have lengths := congrArg List.length marked
  rw [length_take] at lengths
  change min 3 b.length = 3 at lengths
  omega

theorem take_bom (b rest : List UInt8) {stop : UInt8} (low : stop.toNat < 128) :
    (b ++ stop :: rest).take 3 = bom ↔ b.take 3 = bom := by
  have high : stop ∉ bom := by
    intro member
    simp only [bom, mem_cons, not_mem_nil, or_false] at member
    obtain rfl | rfl | rfl := member <;> exact absurd low (by decide)
  by_cases long : 3 ≤ b.length
  · rw [take_append_of_le_length long]
  · refine iff_of_false (fun same => high ?_) fun same => ?_
    · rw [← same, take_append, show 3 - b.length = (2 - b.length) + 1 by omega, take_succ_cons]
      exact mem_append_right _ mem_cons_self
    · exact long (bom_length same)

theorem fieldNeedsQuote_drop {delim quote : UInt8} {b : List UInt8} (plain : fieldNeedsQuote delim quote b = false)
    (n : Nat) : fieldNeedsQuote delim quote (b.drop n) = false := by
  rw [fieldNeedsQuote, any_eq_false] at plain ⊢
  exact fun p member => plain p (mem_of_mem_drop member)

/-- The mark is dropped from the text exactly if the first cell is bare and starts with it. -/
theorem dropBom_csvBytes {delim quote : UInt8} (marks : Marks delim quote) (rows : List (List (List UInt8))) :
    dropBom (csvBytes delim quote rows) = csvBytes delim quote (seen delim quote rows) := by
  match rows with
  | [] => rfl
  | [] :: rows =>
    change dropBom _ = csvBytes delim quote ([] :: rows)
    rw [csvBytes_cons, line, nil_append, dropBom, if_neg]
    rw [take_succ_cons]
    exact fun same => absurd (cons.inj same).1 (by decide)
  | (b :: r) :: rows =>
    have after : ∃ (stop : UInt8) (rest : List UInt8), stop.toNat < 128 ∧ ∀ b, csvBytes delim quote ((b :: r) :: rows) =
        emitField delim quote b ++ stop :: rest := by
      cases r with
      | nil =>
        refine ⟨lf, csvBytes delim quote rows, by decide, fun b => ?_⟩
        rw [csvBytes_cons, line, lineTail, flatMap_nil, append_nil]
      | cons c r =>
        refine ⟨delim, line delim quote (c :: r) ++ lf :: csvBytes delim quote rows, marks.ascii.1, fun b => ?_⟩
        rw [csvBytes_cons, line_cons, append_assoc, cons_append]
    obtain ⟨stop, rest, low, shape⟩ := after
    have front := take_bom (emitField delim quote b) rest low
    rw [seen, shape, shape, firstCell, dropBom]
    cases needs : fieldNeedsQuote delim quote b with
    | true =>
      have quoted : (emitField delim quote b).take 3 ≠ bom := by
        rw [emitField, if_pos needs, cons_append, take_succ_cons]
        intro same
        have front := (cons.inj same).1
        have ascii := marks.ascii.2
        rw [front] at ascii
        exact absurd ascii (by decide)
      rw [if_neg fun same => quoted (front.mp same), if_pos rfl]
    | false =>
      have bare : ∀ d, fieldNeedsQuote delim quote d = false → emitField delim quote d = d := fun d plain => by
        rw [emitField, plain, if_neg Bool.false_ne_true]
      rw [bare b needs] at front
      rw [if_neg Bool.false_ne_true, bare b needs, dropBom]
      by_cases marked : b.take 3 = bom
      · rw [if_pos (front.mpr marked), if_pos marked, bare _ (fieldNeedsQuote_drop needs 3),
          drop_append_of_le_length (bom_length marked)]
      · rw [if_neg fun same => marked (front.mp same), if_neg marked, bare b needs]

end Mark

variable {cells : List (List (List UInt8))}

theorem ne_nil_of_even {α : Type} {w : Nat} (positive : 0 < w) {rows : List (List α)}
    (even : ∀ r ∈ rows, r.length = w) :
    ∀ r ∈ rows, r ≠ [] := fun r member => length_pos_iff.mp (positive.trans_eq (even r member).symm)

theorem seen_lengths {w : Nat} (even : ∀ r ∈ cells, r.length = w) :
    (seen delim quote cells).length = cells.length ∧ ∀ r ∈ seen delim quote cells, r.length = w := by
  match cells with
  | [] => exact ⟨rfl, even⟩
  | [] :: rows => exact ⟨rfl, even⟩
  | (b :: r) :: rows =>
    rw [forall_mem_cons] at even
    exact ⟨rfl, forall_mem_cons.mpr even⟩

theorem row_le_csvBytes {r : List (List UInt8)}
    (member : r ∈ cells) : r.length ≤ (csvBytes delim quote cells).length := by
  have long := length_le_line delim quote r
  obtain ⟨before, after, rfl⟩ := append_of_mem member
  rw [csvBytes, flatMap_append, flatMap_cons, length_append, length_append]
  omega

variable {delim quote : UInt8}

theorem csvParse_written {opts : DelimOpts}
    (accepted : optsDelimQuote "csv.parse" opts = .ok (delim, quote)) {text : JsString} {w : Nat}
    (even : ∀ r ∈ cells, r.length = w) (positive : 0 < w)
    (lent : toCStringLen text = .ok (csvBytes delim quote cells))
    (bounded : (csvBytes delim quote cells).length ≤ csvTextMax)
    (strict : Bool) :
    csvParse text opts strict false =
      some (.ok ⟨[], (seen delim quote cells).map (·.map newStringLen), cells.length⟩) := by
  have marks := optsDelimQuote_marks accepted
  obtain ⟨count, wide⟩ := seen_lengths delim quote even
  have filled := ne_nil_of_even positive wide
  have small : seen delim quote cells = [] ∨ w ≤ int32Max := by
    cases cells with
    | nil => exact .inl rfl
    | cons r cells =>
      right
      have row := row_le_csvBytes delim quote (mem_cons_self : r ∈ r :: cells)
      rw [even r mem_cons_self] at row
      exact le_trans (le_trans row bounded) (by decide)
  have made : ∃ final, feedRows jsSink delim quote ⟨[], none, [], none, false, none⟩ 0 (seen delim quote cells) =
    some final ∧
      final.rows = (seen delim quote cells).map (·.map newStringLen) ∧ final.header = none := by
    obtain none | fits := small
    · rw [none]
      exact ⟨_, rfl, rfl, rfl⟩
    · exact feedRows_jsSink delim quote w fits ⟨fun last c q v impossible => by contradiction⟩ rfl rfl (.inr rfl) wide 0
  obtain ⟨final, fed, rows, header⟩ := made
  have scanned := csvScan_csvBytes jsSink marks strict filled fed
  rw [csvParse, accepted]
  rw [lent]
  change Option.map _ (csvScan jsSink ⟨[], none, [], none, false, none⟩ (dropBom (csvBytes delim quote cells)) strict
    delim quote) = _
  rw [dropBom_csvBytes marks, scanned, map_some]
  dsimp only
  rw [rows, header, length_map, count]
  rfl

/-- No call throws: the cells and the text are lent out, and the text is short enough. -/
structure Fits (delim quote : UInt8) (rows : List (List JsString)) : Prop where
  cells : ∀ r ∈ rows, ∀ c ∈ r, Lent c
  short : (csvText delim quote rows).length ≤ csvTextMax
  text : Lent (newStringLen (csvText delim quote rows))

def Quoted (delim quote : UInt8) (c : JsString) : Prop :=
  ∃ mark ∈ [delim, quote, lf, cr], UInt16.ofNat mark.toNat ∈ c.units

/-- Nothing is lost: no cell holds a NUL, and a first cell that starts with U+FEFF is
written in quotes. -/
structure Kept (delim quote : UInt8) (rows : List (List JsString)) : Prop where
  nul : ∀ r ∈ rows, ∀ c ∈ r, 0 ∉ c.units
  mark : ∀ c, (rows.head?.bind List.head?) = some c → c.units.head? = some 0xFEFF → Quoted delim quote c

theorem cellBytes_eq {c : JsString} (clean : 0 ∉ c.units) : cellBytes c = utf8Units c.units := by
  rw [cellBytes, takeWhile_eq_self_iff.mpr (all_ne clean)]

theorem fieldNeedsQuote_iff (marks : Marks delim quote) (u : List UInt16) :
    fieldNeedsQuote delim quote (utf8Units u) = true ↔
      ∃ mark ∈ [delim, quote, lf, cr], UInt16.ofNat mark.toNat ∈ u := by
  have low : ∀ mark ∈ [delim, quote, lf, cr], mark.toNat < 128 := by
    simp only [forall_mem_cons, not_mem_nil, false_imp_iff, implies_true, and_true]
    exact ⟨marks.ascii.1, marks.ascii.2, by decide, by decide⟩
  rw [fieldNeedsQuote, any_eq_true]
  constructor
  · rintro ⟨p, member, is⟩
    have listed : p ∈ [delim, quote, lf, cr] := by
      simpa [or_assoc] using is
    exact ⟨p, listed, (ascii_mem_utf8Units (low p listed) u).mp member⟩
  · rintro ⟨p, listed, member⟩
    refine ⟨p, (ascii_mem_utf8Units (low p listed) u).mpr member, ?_⟩
    simpa [or_assoc] using listed

variable (u : List UInt16)

theorem utf8Units_bom : utf8Units (0xFEFF :: u) = bom ++ utf8Units u := by
  rw [utf8Units_cons (by decide)]
  rfl

theorem take_utf8Units : (utf8Units u).take 3 = bom ↔ u.head? = some 0xFEFF := by
  constructor
  · intro same
    have whole : utf8Units u = bom ++ (utf8Units u).drop 3 := by rw [← same, take_append_drop]
    have units := newStringLen_utf8Units u
    rw [whole, newStringLen] at units
    dsimp only at units
    rw [← units, length_append, add_comm]
    rfl
  · intro front
    cases u with
    | nil => contradiction
    | cons c u =>
      rw [Option.some.inj front, utf8Units_bom]
      rfl

theorem takeWhile_eq_iff : u.takeWhile (· != 0) = u ↔ 0 ∉ u := by
  rw [takeWhile_eq_self_iff]
  exact ⟨fun clean member => absurd (clean 0 member) (by decide), all_ne⟩

theorem cell_kept_iff (c : JsString) : (newStringLen (cellBytes c)).units = c.units ↔ 0 ∉ c.units := by
  rw [cellBytes, newStringLen_utf8Units, takeWhile_eq_iff]

/-- The first cell comes back exactly if it has no NUL and its mark, if any, is inside quotes. -/
theorem first_kept_iff (marks : Marks delim quote) (c : JsString) :
    (newStringLen (firstCell delim quote (cellBytes c))).units = c.units ↔
      0 ∉ c.units ∧ (c.units.head? = some 0xFEFF → Quoted delim quote c) := by
  rw [firstCell]
  cases needs : fieldNeedsQuote delim quote (cellBytes c) with
  | true =>
    obtain ⟨mark, listed, member⟩ := (fieldNeedsQuote_iff marks _).mp needs
    rw [if_pos rfl, cell_kept_iff]
    exact (and_iff_left fun _ => ⟨mark, listed, takeWhile_subset _ member⟩).symm
  | false =>
    have bare : 0 ∉ c.units → ¬ Quoted delim quote c := by
      intro clean quoted
      have must := (fieldNeedsQuote_iff marks _).mpr quoted
      rw [← cellBytes_eq clean, needs] at must
      contradiction
    rw [if_neg Bool.false_ne_true, dropBom]
    by_cases marked : (cellBytes c).take 3 = bom
    · have front := (take_utf8Units _).mp marked
      obtain ⟨rest, shape⟩ : ∃ rest, c.units.takeWhile (· != 0) = 0xFEFF :: rest := by
        cases cut : c.units.takeWhile (· != 0) with
        | nil =>
          rw [cut] at front
          contradiction
        | cons a rest =>
          rw [cut] at front
          exact ⟨rest, by rw [Option.some.inj front]⟩
      have stripped : (cellBytes c).drop 3 = utf8Units rest := by
        rw [cellBytes, shape, utf8Units_bom]
        rfl
      rw [if_pos marked, stripped, newStringLen_utf8Units]
      refine iff_of_false (fun same => ?_) fun both => ?_
      · have shorter := (takeWhile_sublist (· != 0) (l := c.units)).length_le
        rw [shape, ← same, length_cons] at shorter
        omega
      · refine bare both.1 (both.2 ?_)
        rw [(takeWhile_eq_iff c.units).mpr both.1] at shape
        rw [shape]
        rfl
    · rw [if_neg marked, cell_kept_iff]
      refine (and_iff_left_of_imp fun clean front => ?_).symm
      refine absurd ?_ marked
      rw [cellBytes_eq clean, take_utf8Units, front]

theorem rows_kept_iff (marks : Marks delim quote) {rows : List (List JsString)} (filled : ∀ r ∈ rows, r ≠ []) :
    ((seen delim quote (rows.map (·.map cellBytes))).map (·.map newStringLen)).map (·.map JsString.units) =
      rows.map (·.map JsString.units) ↔ Kept delim quote rows := by
  have cells : ∀ r : List JsString, ((r.map cellBytes).map newStringLen).map JsString.units = r.map JsString.units ↔
      ∀ c ∈ r, 0 ∉ c.units := by
    intro r
    rw [map_map, map_map, map_inj_left]
    exact forall₂_congr fun c _ => cell_kept_iff c
  have lines : ∀ rows : List (List JsString), (((rows.map (·.map cellBytes)).map (·.map newStringLen)).map
      (·.map JsString.units)) = rows.map (·.map JsString.units) ↔ ∀ r ∈ rows, ∀ c ∈ r, 0 ∉ c.units := by
    intro rows
    rw [map_map, map_map, map_inj_left]
    exact forall₂_congr fun r _ => cells r
  cases rows with
  | nil => exact iff_of_true rfl ⟨forall_mem_nil _, fun c impossible => by contradiction⟩
  | cons r rows =>
    cases r with
    | nil => exact absurd rfl (filled [] mem_cons_self)
    | cons c r =>
      rw [map_cons, map_cons, seen, map_cons, map_cons, map_cons, map_cons, map_cons,
        map_cons, cons.injEq, cons.injEq, cells, lines, first_kept_iff marks]
      constructor
      · rintro ⟨⟨⟨clean, mark⟩, row⟩, rest⟩
        refine ⟨forall_mem_cons.mpr ⟨forall_mem_cons.mpr ⟨clean, row⟩, rest⟩, fun d is => ?_⟩
        rw [← Option.some.inj is]
        exact mark
      · intro kept
        obtain ⟨row, rest⟩ := forall_mem_cons.mp kept.nul
        obtain ⟨clean, row⟩ := forall_mem_cons.mp row
        exact ⟨⟨⟨clean, kept.mark c rfl⟩, row⟩, rest⟩

/-- Rows of strings of equal, positive length come back from their CSV text exactly if no call
throws and nothing is lost. -/
theorem csv_round_trip_iff (opts : DelimOpts)
    (accepted : optsDelimQuote "csv.stringify" opts = .ok (delim, quote)) (rows : List (List JsString)) (columns : Nat)
    (positive : 0 < columns) (even : ∀ r ∈ rows, r.length = columns) (strict : Bool) :
    (∃ text back, csvStringify (rows.map fun r => .array (r.map .text)) opts false = .ok text ∧
      csvParse text opts strict false = some (.ok back) ∧
      back.rows.map (·.map JsString.units) = rows.map (·.map JsString.units)) ↔
    Fits delim quote rows ∧ Kept delim quote rows := by
  have marks := optsDelimQuote_marks accepted
  have parses := optsDelimQuote_pfx "csv.parse" accepted
  obtain ⟨units, utf8⟩ := csvText_isUtf8 marks rows
  have filled := ne_nil_of_even positive even
  have wide : ∀ r ∈ rows.map (·.map cellBytes), r.length = columns := by
    intro r member
    obtain ⟨row, inside, rfl⟩ := mem_map.mp member
    rw [length_map]
    exact even row inside
  have read (fits : Fits delim quote rows) : csvParse (newStringLen (csvText delim quote rows)) opts strict false =
      some (.ok ⟨[], (seen delim quote (rows.map (·.map cellBytes))).map (·.map newStringLen), rows.length⟩) := by
    obtain ⟨bytes, lends⟩ := fits.text
    have same := toCStringLen_ok lends
    rw [utf8, newStringLen_utf8Units, ← utf8] at same
    rw [same] at lends
    have done := csvParse_written parses wide positive lends fits.short strict
    rwa [length_map] at done
  constructor
  · rintro ⟨text, back, written, parsed, same⟩
    obtain ⟨all, short, rfl⟩ := (csvStringify_ok_iff accepted rows false text).mp written
    have fits : Fits delim quote rows := by
      refine ⟨all, short, ?_⟩
      cases lends : toCStringLen (newStringLen (csvText delim quote rows)) with
      | ok bytes => exact ⟨bytes, lends⟩
      | error e =>
        rw [csvParse, parses] at parsed
        rw [lends] at parsed
        cases Option.some.inj parsed
    rw [read fits] at parsed
    rw [← ok.inj (Option.some.inj parsed)] at same
    exact ⟨fits, (rows_kept_iff marks filled).mp same⟩
  · rintro ⟨fits, kept⟩
    exact ⟨_, _, (csvStringify_ok_iff accepted rows false _).mpr ⟨fits.cells, fits.short, rfl⟩, read fits,
      (rows_kept_iff marks filled).mpr kept⟩

/-- One row, `a` and `,`, with the default marks. -/
theorem csv_round_trip_comma :
    (∃ text back, csvStringify [.array [.text ⟨[97], false, narrow_of_all rfl⟩,
        .text ⟨[44], false, narrow_of_all rfl⟩]] ⟨none, none⟩ false =
        .ok text ∧
      csvParse text ⟨none, none⟩ true false = some (.ok back) ∧ back.rows.map (·.map JsString.units) = [[[97], [44]]]) ↔
    Fits comma dquote [[⟨[97], false, narrow_of_all rfl⟩, ⟨[44], false, narrow_of_all rfl⟩]] ∧
      Kept comma dquote [[⟨[97], false, narrow_of_all rfl⟩, ⟨[44], false, narrow_of_all rfl⟩]] :=
  csv_round_trip_iff ⟨none, none⟩ rfl [[⟨[97], false, narrow_of_all rfl⟩, ⟨[44], false, narrow_of_all rfl⟩]] 2
    (by decide)
    (fun r member => by rw [mem_singleton.mp member]; rfl) true

def backFrom (cell : JsString) : Option (List (List (List UInt16))) :=
  ((csvStringify [.array [.text cell]] ⟨none, none⟩ false).toOption.bind fun text =>
    (csvParse text ⟨none, none⟩ true false).bind (·.toOption)).map fun back => back.rows.map (·.map JsString.units)

/-- `a`, NUL, `b` comes back as `a`, and U+FEFF, `a` comes back as `a`. -/
theorem nul_and_mark_are_lost : backFrom ⟨[97, 0, 98], false, narrow_of_all rfl⟩ = some [[[97]]] ∧
    backFrom ⟨[0xFEFF, 97], true, fun impossible => by contradiction⟩ = some [[[97]]] := by
  decide +kernel

end DynaJS.Csv
