import DynaJS.Dec.Exact

/-! Reading and writing decimals; text is a list of bytes. -/
namespace DynaJS.Dec

open DynaJS.Digits List
open Nat (ofDigits)

def maxText : Int := 1000000

def isDigit (c : Nat) : Bool := 48 ≤ c && c ≤ 57

/-- The loop of `dec_parse_exp`, with `ev` and `edig`. -/
def expLoop : List Nat → Nat → Bool → Option (Nat × Bool × List Nat)
  | [], ev, edig => some (ev, edig, [])
  | c :: rest, ev, edig =>
    if isDigit c then
      if 2000000000 < ev * 10 + (c - 48) then none else expLoop rest (ev * 10 + (c - 48)) true
    else some (ev, edig, c :: rest)

def signOf : List Nat → Bool × List Nat
  | 43 :: rest => (false, rest)
  | 45 :: rest => (true, rest)
  | s => (false, s)

def decParseExp (s : List Nat) : Option (Int × List Nat) := do
  let (ev, edig, rest) ← expLoop (signOf s).2 0 false
  if edig then some (if (signOf s).1 then -ev else ev, rest) else none

variable (mem : Nat → Bool)

def parseLoop (mem : Nat → Bool) : List Nat → Nat → List Nat → Option Nat →
    Option (Nat × List Nat × Option Nat × List Nat)
  | [], cap, d, dot => some (cap, d, dot, [])
  | c :: rest, cap, d, dot =>
    if isDigit c then
      if maxDigits ≤ d.length then none
      else
        match decGrow (mem d.length) cap (d.length + 1) with
        | none => none
        | some cap => parseLoop mem rest cap (d ++ [c - 48]) dot
    else if c = 46 ∧ dot = none then parseLoop mem rest cap d (some d.length)
    else some (cap, d, dot, c :: rest)

def parseTail : List Nat → Option (Int × List Nat)
  | 101 :: rest => decParseExp rest
  | 69 :: rest => decParseExp rest
  | s => some (0, s)

def placesBehind (d : List Nat) : Option Nat → Nat
  | none => 0
  | some k => d.length - k

/-- `dec_parse`; the digits are swapped end for end before they are trimmed. -/
def decParse (s : List Nat) : Option DecT := do
  let (cap, d, dot, rest) ← parseLoop mem (signOf s).2 decInline [] none
  if d = [] then none
  else do
    let (exp, rest) ← parseTail rest
    if rest ≠ [] then none
    else some (decTrim ⟨i32 (exp - placesBehind d dot), d.reverse, cap, (signOf s).1⟩)

structure Db where
  p : List Nat
  cap : Nat
  oom : Bool
  tooLong : Bool

def dbInit : Db := ⟨[], 0, false, false⟩

/-- The capacity loop of `db_write`; each turn adds eight at least. -/
def dbRoom (need : Nat) : Nat → Nat → Nat
  | 0, nc => nc
  | fuel + 1, nc => if nc < need then dbRoom need fuel (nc + nc / 2 + 8) else nc

def dbWrite (b : Db) (s : List Nat) : Db :=
  if b.oom ∨ s = [] then b
  else if b.cap < b.p.length + s.length then
    let nc := dbRoom (b.p.length + s.length) (b.p.length + s.length) (if b.cap = 0 then 64 else b.cap)
    if mem nc then { b with cap := nc, p := b.p ++ s } else { b with oom := true }
  else { b with p := b.p ++ s }

def dbPut (b : Db) (c : Nat) : Db := dbWrite mem b [c]

def writeLoop (mem : Nat → Bool) (x : DecT) : Nat → Int → Db → Db
  | 0, _, b => b
  | n + 1, p, b =>
    writeLoop mem x n (p - 1) (dbPut mem (if p = -1 then dbPut mem b 46 else b) (48 + decAt x p))

def decWrite (mem : Nat → Bool) (x : DecT) (b : Db) : Db :=
  if x.d = [] then dbPut mem b 48
  else
    let b := if x.sign then dbPut mem b 45 else b
    let hi := max (i32 (x.top - 1)) 0
    let lo := min x.exp 0
    if maxText ≤ hi - lo then { b with tooLong := true }
    else writeLoop mem x (hi - lo + 1).toNat hi b

/-! ### What a text denotes -/

def number (s : List Nat) : Nat := ofDigits 10 (s.map (· - 48)).reverse

def point (s : List Nat) : Bool := (s.dropWhile isDigit).head? = some 46

def whole (s : List Nat) : List Nat := s.takeWhile isDigit

def frac (s : List Nat) : List Nat :=
  if point s then (s.dropWhile isDigit).tail.takeWhile isDigit else []

def behind (s : List Nat) : List Nat :=
  if point s then (s.dropWhile isDigit).tail.dropWhile isDigit else s.dropWhile isDigit

def exponent : List Nat → Int
  | [] => 0
  | _ :: s => if (signOf s).1 then -(number (signOf s).2 : ℤ) else number (signOf s).2

/-- The rational number of `[sign] digits [. digits] [e [sign] digits]`. -/
def denote (s : List Nat) : ℚ :=
  let body := (signOf s).2
  let v := (number (whole body ++ frac body) : ℚ) * 10 ^ (exponent (behind body) - (frac body).length)
  if (signOf s).1 then -v else v

section Parse

variable {mem : Nat → Bool}

theorem isDigit_iff {c : Nat} : isDigit c = true ↔ 48 ≤ c ∧ c ≤ 57 := by
  simp [isDigit]

variable {s : List Nat} {dot : Option Nat}

theorem parseLoop_digits {cap : Nat} {d : List Nat} {r : Nat × List Nat × Option Nat × List Nat}
    (below : Below 10 d) (room : d.length ≤ cap) (limit : cap ≤ maxDigits) (done : parseLoop mem s cap d dot = some r) :
    ∃ cap₁, (Below 10 (d ++ (whole s).map (· - 48)) ∧ (d ++ (whole s).map (· - 48)).length ≤ cap₁ ∧ cap₁ ≤ maxDigits) ∧
      parseLoop mem (s.dropWhile isDigit) cap₁ (d ++ (whole s).map (· - 48)) dot = some r := by
  induction s generalizing cap d with
  | nil => exact ⟨cap, by simpa [whole] using ⟨below, room, limit⟩, by simpa [whole] using done⟩
  | cons c s ih =>
    by_cases digit : isDigit c = true
    · have bounds := isDigit_iff.mp digit
      rw [parseLoop] at done
      split_ifs at done with full
      split at done
      · contradiction
      rename_i cap₁ grown
      obtain ⟨enough, limit₁⟩ := decGrow_spec grown limit
      obtain ⟨cap₂, kept, done⟩ := ih
        (below_append.mpr ⟨below, below_cons.mpr ⟨by omega, forall_mem_nil _⟩⟩)
        (by rw [length_append]; exact enough) limit₁ done
      rw [append_assoc] at kept done
      rw [whole, takeWhile_cons_of_pos digit, dropWhile_cons_of_pos digit]
      exact ⟨cap₂, kept, done⟩
    · rw [whole, takeWhile_cons_of_neg digit, dropWhile_cons_of_neg digit, map_nil, append_nil]
      exact ⟨cap, ⟨below, room, limit⟩, done⟩

theorem parseLoop_stop (cap : Nat) (d : List Nat) (stop : (s.dropWhile isDigit).head? = some 46 → dot ≠ none) :
    parseLoop mem (s.dropWhile isDigit) cap d dot = some (cap, d, dot, s.dropWhile isDigit) := by
  have other := head?_dropWhile_not isDigit s
  cases left : s.dropWhile isDigit with
  | nil => rfl
  | cons c t =>
    rw [left] at other stop
    rw [parseLoop, if_neg (by simpa using other), if_neg fun both => stop (by rw [both.1]; rfl) both.2]

theorem parseLoop_spec {cap : Nat} {d : List Nat} {rest : List Nat}
    (done : parseLoop mem s decInline [] none = some (cap, d, dot, rest)) :
    (Below 10 d ∧ d.length ≤ cap ∧ cap ≤ maxDigits) ∧ dot = (if point s then some (whole s).length else none) ∧
      d = (whole s ++ frac s).map (· - 48) ∧ rest = behind s := by
  obtain ⟨cap₁, ⟨below, room, limit⟩, done⟩ := parseLoop_digits (forall_mem_nil _)
    (Nat.zero_le _) (by decide) done
  by_cases here : point s = true
  · obtain ⟨t, left⟩ : ∃ t, s.dropWhile isDigit = 46 :: t := by simpa [point, head?_eq_some_iff] using here
    rw [left, parseLoop] at done
    obtain ⟨cap₂, kept, done⟩ := parseLoop_digits below room limit done
    rw [parseLoop_stop _ _ fun _ => Option.some_ne_none _] at done
    obtain ⟨rfl, rfl, rfl, rfl⟩ : cap₂ = cap ∧ _ = d ∧ _ = dot ∧ _ = rest := by simpa using done
    refine ⟨kept, (if_pos here).symm, ?_, ?_⟩
    · rw [frac, if_pos here, left, tail_cons, map_append, ← whole]
    · rw [behind, if_pos here, left, tail_cons]
  · rw [parseLoop_stop _ _ fun dots => absurd (by simpa [point] using dots) here] at done
    obtain ⟨rfl, rfl, rfl, rfl⟩ : cap₁ = cap ∧ _ = d ∧ _ = dot ∧ _ = rest := by simpa using done
    refine ⟨⟨below, room, limit⟩, (if_neg here).symm, ?_, ?_⟩
    · rw [frac, if_neg here, append_nil]
    · rw [behind, if_neg here]

theorem number_concat (s : List Nat) (c : Nat) : number (s ++ [c]) = number s * 10 + (c - 48) := by
  rw [number, number, map_append, reverse_append]
  change ofDigits 10 ((c - 48) :: (s.map (· - 48)).reverse) = _
  rw [Nat.ofDigits_cons]
  ring

theorem expLoop_spec (front : List Nat) {ev : Nat} {edig : Bool} {ev' : Nat} {edig' : Bool} {rest : List Nat}
    (start : ev = number front) (small : ev ≤ 2000000000) (done : expLoop s ev edig = some (ev', edig', rest)) :
    ev' = number (front ++ s.takeWhile isDigit) ∧ rest = s.dropWhile isDigit ∧ ev' ≤ 2000000000 := by
  induction s generalizing ev edig front with
  | nil =>
    obtain ⟨rfl, rfl, rfl⟩ : ev = ev' ∧ edig = edig' ∧ [] = rest := by simpa [expLoop] using done
    exact ⟨by simpa using start, rfl, small⟩
  | cons c s ih =>
    rw [expLoop] at done
    by_cases digit : isDigit c = true
    · rw [if_pos digit] at done
      split_ifs at done with large
      obtain ⟨value, left, bound⟩ := ih (front ++ [c]) (by rw [number_concat, start]) (by omega) done
      refine ⟨?_, ?_, bound⟩
      · rw [value, takeWhile_cons_of_pos digit, append_assoc, singleton_append]
      · rw [left, dropWhile_cons_of_pos digit]
    · rw [if_neg digit] at done
      obtain ⟨rfl, rfl, rfl⟩ : ev = ev' ∧ edig = edig' ∧ c :: s = rest := by simpa using done
      exact ⟨by simpa [digit] using start, by simp [digit], small⟩

theorem some_bind {α β : Type*} {x : Option α} {f : α → Option β} {y : β} (done : x.bind f = some y) :
    ∃ a, x = some a ∧ f a = some y := Option.bind_eq_some_iff.mp done

theorem decParseExp_spec {e : Int} {c : Nat} (done : decParseExp s = some (e, [])) :
    e = exponent (c :: s) ∧ -2000000000 ≤ e ∧ e ≤ 2000000000 := by
  obtain ⟨⟨ev, edig, rest⟩, loop, done⟩ := some_bind done
  obtain ⟨value, left, bound⟩ := expLoop_spec [] rfl (by decide) loop
  obtain ⟨-, done⟩ := Option.ite_none_right_eq_some.mp done
  obtain ⟨rfl, rfl⟩ := Prod.mk.inj (Option.some.inj done)
  have parts := takeWhile_append_dropWhile (p := isDigit) (l := (signOf s).2)
  rw [← left, append_nil] at parts
  rw [nil_append, parts] at value
  rw [exponent]
  split_ifs <;> omega

theorem parseTail_spec {e : Int} (done : parseTail s = some (e, [])) :
    e = exponent s ∧ -2000000000 ≤ e ∧ e ≤ 2000000000 := by
  unfold parseTail at done
  split at done
  · exact decParseExp_spec done
  · exact decParseExp_spec done
  · obtain ⟨rfl, rfl⟩ := Prod.mk.inj (Option.some.inj done)
    exact ⟨rfl, by decide, by decide⟩

theorem decParse_inv {y : DecT} (done : decParse mem s = some y) :
    ∃ cap d dot rest, parseLoop mem (signOf s).2 decInline [] none = some (cap, d, dot, rest) ∧ d ≠ [] ∧
      ∃ e, parseTail rest = some (e, []) ∧
        y = decTrim ⟨i32 (e - placesBehind d dot), d.reverse, cap, (signOf s).1⟩ := by
  obtain ⟨⟨cap, d, dot, rest⟩, loop, done⟩ := some_bind done
  obtain ⟨some, done⟩ := Option.ite_none_left_eq_some.mp done
  obtain ⟨⟨e, left⟩, tail, done⟩ := some_bind done
  obtain ⟨more, done⟩ := Option.ite_none_left_eq_some.mp done
  rw [not_not.mp more] at tail
  exact ⟨cap, d, dot, rest, loop, some, e, tail, (Option.some.inj done).symm⟩

theorem decParse_spec {y : DecT} (done : decParse mem s = some y) :
    y.Canonical ∧ y.value = denote s ∧ (whole (signOf s).2 ++ frac (signOf s).2).length ≤ maxDigits := by
  obtain ⟨cap, d, dot, rest, loop, -, e, tail, rfl⟩ := decParse_inv done
  obtain ⟨⟨below, room, limit⟩, dots, digits, left⟩ := parseLoop_spec loop
  obtain ⟨value, least, most⟩ := parseTail_spec tail
  rw [left] at value
  set body := (signOf s).2 with hbody
  have count : d.length = (whole body).length + (frac body).length := by
    rw [digits, length_map, length_append]
  have cells : cap ≤ 100000 := limit
  have scale : placesBehind d dot = (frac body).length := by
    rw [dots]
    by_cases here : point body = true
    · rw [if_pos here, placesBehind, count]
      omega
    · rw [if_neg here, placesBehind, frac, if_neg here, length_nil]
  rw [scale, i32_eq (by omega) (by omega)]
  obtain ⟨canonical, mag⟩ := trimmed (e - (frac body).length) cap (signOf s).1
    (fun x member => below x (mem_reverse.mp member))
    (by rw [length_reverse]; exact room) limit (by omega) (by omega) (by rw [length_reverse]; omega)
  refine ⟨canonical, ?_, ?_⟩
  · rw [value_of_sign canonical decTrim_sign, mag, denote, number, ← hbody, ← digits, value]
  · rw [length_append, ← count]
    exact room.trans limit

end Parse

section Write

variable {mem : Nat → Bool} {x : DecT} {b : Db}

theorem dbWrite_oom {s : List Nat} (out : b.oom = true) : dbWrite mem b s = b := if_pos (Or.inl out)

theorem dbPut_spec {c : Nat} (fine : (dbPut mem b c).oom = false) :
    b.oom = false ∧ (dbPut mem b c).p = b.p ++ [c] ∧ (dbPut mem b c).tooLong = b.tooLong := by
  by_cases out : b.oom = true
  · rw [dbPut, dbWrite_oom out, out] at fine
    contradiction
  have start : ¬ (b.oom = true ∨ [c] = []) := by simp [out]
  simp only [dbPut, dbWrite, if_neg start] at fine ⊢
  rw [Bool.not_eq_true] at out
  by_cases more : b.cap < b.p.length + [c].length
  · rw [if_pos more] at fine ⊢
    generalize dbRoom _ _ _ = nc at fine ⊢
    split_ifs at fine ⊢ with given
    exact ⟨out, rfl, rfl⟩
  · rw [if_neg more]
    exact ⟨out, rfl, rfl⟩

theorem dbPut_granted {c : Nat} (fine : b.oom = false) : (dbPut (fun _ => true) b c).oom = false := by
  have start : ¬ (b.oom = true ∨ [c] = []) := by simp [fine]
  simp only [dbPut, dbWrite, if_neg start, if_true]
  by_cases more : b.cap < b.p.length + [c].length
  · rw [if_pos more]
    exact fine
  · rw [if_neg more]
    exact fine

def chars (x : DecT) : Nat → Int → List Nat
  | 0, _ => []
  | n + 1, p => (if p = -1 then [46] else []) ++ (48 + decAt x p) :: chars x n (p - 1)

theorem writeLoop_spec {n : Nat} {p : Int} (fine : (writeLoop mem x n p b).oom = false) :
    b.oom = false ∧ (writeLoop mem x n p b).p = b.p ++ chars x n p ∧ (writeLoop mem x n p b).tooLong = b.tooLong := by
  induction n generalizing p b with
  | zero => exact ⟨fine, by rw [chars, append_nil]; rfl, rfl⟩
  | succ n ih =>
    obtain ⟨fine₁, text, long⟩ := ih fine
    obtain ⟨fine₂, text₁, long₁⟩ := dbPut_spec fine₁
    rw [writeLoop, text, long, text₁, long₁, chars]
    by_cases dot : p = -1
    · rw [if_pos dot] at fine₂ ⊢
      obtain ⟨fine₃, text₂, long₂⟩ := dbPut_spec fine₂
      rw [text₂, long₂, if_pos dot]
      exact ⟨fine₃, by simp, rfl⟩
    · rw [if_neg dot] at fine₂ ⊢
      rw [if_neg dot]
      exact ⟨fine₂, by simp, rfl⟩

theorem writeLoop_granted (x : DecT) (n : Nat) (p : Int) (fine : b.oom = false) :
    (writeLoop (fun _ => true) x n p b).oom = false := by
  induction n generalizing p b with
  | zero => exact fine
  | succ n ih =>
    refine ih _ (dbPut_granted ?_)
    split_ifs
    · exact dbPut_granted fine
    · exact fine

def plain (x : DecT) (n : Nat) (p : Int) : List Nat := (List.range n).map fun i : Nat => 48 + decAt x (p - i)

theorem plain_succ (x : DecT) (n : Nat) (p : Int) : plain x (n + 1) p = (48 + decAt x p) :: plain x n (p - 1) := by
  rw [plain, range_succ_eq_map, map_cons, map_map, plain]
  congr 1
  · simp
  · refine map_congr_left fun i _ => ?_
    simp only [Function.comp_apply]
    congr 2
    push_cast
    ring

theorem chars_plain {n : Nat} {p : Int} (away : p < -1 ∨ (n : Int) ≤ p + 1) : chars x n p = plain x n p := by
  induction n generalizing p with
  | zero => rfl
  | succ n ih =>
    rw [chars, plain_succ, if_neg (by omega), nil_append, ih (by omega)]

theorem chars_point (n : Nat) : chars x (n + 1) (-1) = 46 :: plain x (n + 1) (-1) := by
  rw [chars, plain_succ, chars_plain (by omega)]
  rfl

theorem chars_add (m n : Nat) (p : Int) : chars x (m + n) p = chars x m p ++ chars x n (p - m) := by
  induction m generalizing p with
  | zero => simp [chars]
  | succ m ih =>
    rw [Nat.succ_add, chars, ih, chars, append_assoc]
    congr 4
    push_cast
    ring

theorem plain_add (m n : Nat) (p : Int) : plain x (m + n) p = plain x m p ++ plain x n (p - m) := by
  induction m generalizing p with
  | zero => simp [plain]
  | succ m ih =>
    rw [Nat.succ_add, plain_succ, ih, plain_succ]
    congr 3
    push_cast
    ring

theorem plain_digits (stored : x.Stored) (n : Nat) (p : Int) : ∀ c ∈ plain x n p, isDigit c = true := by
  intro c member
  obtain ⟨i, -, rfl⟩ := mem_map.mp member
  have := decAt_lt stored (p - i)
  exact isDigit_iff.mpr ⟨by omega, by omega⟩

theorem plain_view {lo : Int} {n : Nat} (least : -2147483648 ≤ lo) (most : lo + n ≤ 2147483648) :
    ((plain x n (lo + n - 1)).map (· - 48)).reverse = view x lo n := by
  refine ext_getElem ?_ fun i inside inside' => ?_
  · simp [plain, view]
  · rw [view_length] at inside'
    simp only [plain, view, getElem_reverse, getElem_map, getElem_range, length_map,
      length_range, Nat.add_sub_cancel_left]
    rw [i32_eq (by omega) (by omega)]
    congr 1
    omega

theorem decWrite_spec (some : x.d ≠ []) (fine : (decWrite mem x dbInit).oom = false)
    (short : (decWrite mem x dbInit).tooLong = false) :
    max (i32 (x.top - 1)) 0 - min x.exp 0 < maxText ∧ (decWrite mem x dbInit).p = (if x.sign then [45] else []) ++
        chars x (max (i32 (x.top - 1)) 0 - min x.exp 0 + 1).toNat (max (i32 (x.top - 1)) 0) := by
  simp only [decWrite, if_neg some] at fine short ⊢
  by_cases long : maxText ≤ max (i32 (x.top - 1)) 0 - min x.exp 0
  · rw [if_pos long] at short
    contradiction
  rw [if_neg long] at fine ⊢
  refine ⟨not_le.mp long, ?_⟩
  obtain ⟨fine₁, text, -⟩ := writeLoop_spec fine
  rw [text]
  by_cases minus : x.sign = true
  · rw [if_pos minus] at fine₁ ⊢
    rw [if_pos minus, (dbPut_spec fine₁).2.1]
    rfl
  · rw [if_neg minus, if_neg minus]
    rfl

theorem decWrite_granted (some : x.d ≠ []) (short : max (i32 (x.top - 1)) 0 - min x.exp 0 < maxText) :
    (decWrite (fun _ => true) x dbInit).oom = false ∧ (decWrite (fun _ => true) x dbInit).tooLong = false := by
  have fine : (decWrite (fun _ => true) x dbInit).oom = false := by
    simp only [decWrite, if_neg some, if_neg (not_le.mpr short)]
    refine writeLoop_granted x _ _ ?_
    split_ifs
    · exact dbPut_granted rfl
    · rfl
  refine ⟨fine, ?_⟩
  simp only [decWrite, if_neg some, if_neg (not_le.mpr short)] at fine ⊢
  obtain ⟨fine₁, -, long⟩ := writeLoop_spec fine
  rw [long]
  split_ifs at fine₁ ⊢
  · exact (dbPut_spec fine₁).2.2
  · rfl

end Write

section RoundTrip

variable {x : DecT}

variable {s W F : List Nat}

theorem signOf_digit {c : Nat} (digit : isDigit c = true) : signOf (c :: s) = (false, c :: s) := by
  obtain ⟨least, most⟩ := isDigit_iff.mp digit
  unfold signOf
  split
  · rename_i eq
    have := (List.cons.inj eq).1
    omega
  · rename_i eq
    have := (List.cons.inj eq).1
    omega
  · rfl

structure Parts (s W F : List Nat) : Prop where
  whole : whole s = W
  frac : frac s = F
  behind : behind s = []
  digits : (s.filter isDigit).length = (W ++ F).length

theorem parts_whole (digits : ∀ c ∈ W, isDigit c = true) : Parts W W [] := by
  have take : W.takeWhile isDigit = W := takeWhile_eq_self_iff.mpr digits
  have drop : W.dropWhile isDigit = [] := dropWhile_eq_nil_iff.mpr digits
  have no : ¬ point W = true := by rw [point, drop]; simp
  exact ⟨take, if_neg no, by rw [Dec.behind, if_neg no, drop], by rw [filter_eq_self.mpr digits, append_nil]⟩

theorem parts_point (dw : ∀ c ∈ W, isDigit c = true) (df : ∀ c ∈ F, isDigit c = true) : Parts (W ++ 46 :: F) W F := by
  have take : (W ++ 46 :: F).takeWhile isDigit = W := by
    rw [takeWhile_append_of_pos dw, takeWhile_cons_of_neg (by decide), append_nil]
  have drop : (W ++ 46 :: F).dropWhile isDigit = 46 :: F := by
    rw [dropWhile_append_of_pos dw, dropWhile_cons_of_neg (by decide)]
  have yes : point (W ++ 46 :: F) = true := by rw [point, drop]; rfl
  refine ⟨take, ?_, ?_, ?_⟩
  · rw [Dec.frac, if_pos yes, drop, tail_cons, takeWhile_eq_self_iff.mpr df]
  · rw [Dec.behind, if_pos yes, drop, tail_cons, dropWhile_eq_nil_iff.mpr df]
  · rw [filter_append, filter_cons_of_neg (by decide), filter_eq_self.mpr dw, filter_eq_self.mpr df]

theorem parseLoop_granted (s : List Nat) (cap : Nat) (d : List Nat) (dot : Option Nat)
    (few : d.length + (s.filter isDigit).length ≤ maxDigits) : (parseLoop (fun _ => true) s cap d dot).isSome := by
  induction s generalizing cap d dot with
  | nil => rfl
  | cons c s ih =>
    rw [parseLoop]
    by_cases digit : isDigit c = true
    · rw [filter_cons_of_pos digit, length_cons] at few
      rw [if_pos digit, if_neg (by omega)]
      obtain ⟨cap', grown⟩ := Option.isSome_iff_exists.mp (decGrow_isSome cap (by omega : d.length + 1 ≤ maxDigits))
      rw [grown]
      refine ih _ _ _ ?_
      rw [length_append, length_singleton]
      omega
    · rw [filter_cons_of_neg digit] at few
      split_ifs
      · exact ih _ _ _ few
      · rfl

theorem decParse_granted (parts : Parts (signOf s).2 W F) (here : W ++ F ≠ [])
    (few : (W ++ F).length ≤ maxDigits) : ∃ y, decParse (fun _ => true) s = some y := by
  have read := parseLoop_granted (signOf s).2 decInline [] none
    (by rw [parts.digits, length_nil, Nat.zero_add]; exact few)
  obtain ⟨⟨cap, d, dot, rest⟩, loop⟩ := Option.isSome_iff_exists.mp read
  obtain ⟨-, -, digits, left⟩ := parseLoop_spec loop
  rw [parts.whole, parts.frac] at digits
  rw [parts.behind] at left
  have present : d ≠ [] := by
    rw [digits]
    simpa using here
  refine ⟨decTrim ⟨i32 (0 - placesBehind d dot), d.reverse, cap, (signOf s).1⟩, ?_⟩
  rw [decParse, loop]
  change (if d = [] then _ else _) = _
  rw [if_neg present, left]
  rfl

theorem text_parts (stored : x.Stored) (neg : Bool) (a b : Nat) : ∃ W F, W = plain x (a + 1) a ∧ F = plain x b (-1) ∧
      signOf ((if neg then [45] else []) ++ chars x (a + 1 + b) a) =
        (neg, chars x (a + 1 + b) a) ∧ Parts (chars x (a + 1 + b) a) W F := by
  have front : chars x (a + 1) a = plain x (a + 1) a := chars_plain (by push_cast; omega)
  have body : chars x (a + 1 + b) a = plain x (a + 1) a ++ chars x b (-1) := by
    rw [chars_add, front]
    congr 2
    push_cast
    ring
  have dw := plain_digits stored (a + 1) a
  have df := plain_digits stored b (-1)
  refine ⟨_, _, rfl, rfl, ?_, ?_⟩
  · cases neg
    · rw [body, plain_succ]
      exact signOf_digit (dw _ (by rw [plain_succ]; exact mem_cons_self))
    · rfl
  · rw [body]
    cases b with
    | zero =>
      rw [chars, append_nil]
      exact parts_whole dw
    | succ b =>
      rw [chars_point]
      exact parts_point dw df

theorem denote_text (stored : x.Stored) (neg : Bool) {a b : Nat} (most : (a : ℤ) < 2147483648)
    (least : -2147483648 ≤ -(b : ℤ)) (low : -(b : ℤ) ≤ x.exp) (high : x.top ≤ a + 1) :
    denote ((if neg then [45] else []) ++ chars x (a + 1 + b) a) = if neg then -x.seen else x.seen := by
  obtain ⟨W, F, rfl, rfl, sign, parts⟩ := text_parts stored neg a b
  have value : ((number (plain x (a + 1) a ++ plain x b (-1)) : ℕ) : ℚ) * 10 ^ (0 - (b : ℤ)) = x.seen := by
    have join : plain x (a + 1) a ++ plain x b (-1) = plain x (a + 1 + b) (-b + (a + 1 + b : ℕ) - 1) := by
      have start : -b + ((a + 1 + b : ℕ) : ℤ) - 1 = a := by push_cast; ring
      have next : a - ((a + 1 : ℕ) : ℤ) = -1 := by push_cast; ring
      rw [start, plain_add (a + 1) b, next]
    rw [number, join, plain_view least (by push_cast; omega), zero_sub]
    exact view_seen stored _ _ least low (by push_cast; omega) (by push_cast; omega)
  have length : (plain x b (-1)).length = b := by simp [plain]
  simp only [denote, sign, parts.whole, parts.frac, parts.behind, exponent, length, value]

theorem read_iff (canonical : x.Canonical) (parts : Parts (signOf s).2 W F) (here : W ++ F ≠ []) :
    (∃ y, decParse (fun _ => true) s = some y ∧ y.d = x.d ∧ y.exp = x.exp ∧ y.sign = x.sign) ↔
      (W ++ F).length ≤ maxDigits ∧ denote s = x.value := by
  constructor
  · rintro ⟨y, done, digits, exp, sign⟩
    obtain ⟨-, value, few⟩ := decParse_spec done
    rw [parts.whole, parts.frac] at few
    refine ⟨few, ?_⟩
    rw [← value, DecT.value, DecT.value, DecT.mag, DecT.mag, digits, exp, sign]
  · rintro ⟨few, value⟩
    obtain ⟨y, done⟩ := decParse_granted parts here few
    obtain ⟨canonical', value', -⟩ := decParse_spec done
    obtain ⟨digits, exp, sign⟩ := Dec.eq_of_value_eq canonical' canonical (value'.trans value)
    exact ⟨y, done, digits, exp, sign⟩

def textDigits (x : DecT) : Int := max 0 (x.exp + x.d.length - 1) - min 0 x.exp + 1

theorem written_iff (canonical : x.Canonical) {mem : Nat → Bool} (fine : (decWrite mem x dbInit).oom = false)
    (short : (decWrite mem x dbInit).tooLong = false) :
    (∃ y, decParse (fun _ => true) (decWrite mem x dbInit).p = some y ∧
      y.d = x.d ∧ y.exp = x.exp ∧ y.sign = x.sign) ↔ textDigits x ≤ maxDigits := by
  have stored := canonical.toStored
  have least := stored.least
  have length := stored.length_le
  by_cases zero : x.d = []
  · have text : (decWrite mem x dbInit).p = [48] := by
      rw [decWrite, if_pos zero] at fine ⊢
      rw [(dbPut_spec fine).2.1]
      rfl
    have digits : ∀ c ∈ [48], isDigit c = true := by decide
    rw [text, read_iff (s := [48]) canonical (parts_whole digits) (by decide),
      value_of_nil canonical zero]
    refine iff_of_true ⟨by decide, ?_⟩ ?_
    · norm_num [denote, signOf, whole, frac, point, isDigit, number, exponent, behind]
    · rw [textDigits, zero, (canonical.zero zero).1]
      decide
  obtain ⟨bound, text⟩ := decWrite_spec zero fine short
  obtain ⟨a, top⟩ : ∃ a : Nat, max (i32 (x.top - 1)) 0 = a := ⟨_, (Int.toNat_of_nonneg (le_max_right _ _)).symm⟩
  obtain ⟨b, bottom⟩ : ∃ b : Nat, min x.exp 0 = -b := ⟨(-min x.exp 0).toNat, by omega⟩
  have count : (max (i32 (x.top - 1)) 0 - min x.exp 0 + 1).toNat = a + 1 + b := by omega
  rw [count, top] at text
  rw [top, bottom] at bound
  have wide : a + b < 1000000 := by
    have : maxText = 1000000 := rfl
    omega
  obtain ⟨W, F, first, second, sign, parts⟩ := text_parts stored x.sign a b
  have size : (W ++ F).length = a + 1 + b := by
    rw [first, second, length_append]
    simp [plain]
  have here : W ++ F ≠ [] := by
    rw [← length_pos_iff, size]
    omega
  have meaning := denote_text stored x.sign (a := a) (b := b) (by omega) (by omega) (by omega) (by
    by_cases fits : x.Fits
    · have tops := top_fits stored fits
      unfold DecT.Fits at fits
      rw [tops, i32_eq (by omega) (by omega)] at top
      omega
    · have tops := top_above stored fits
      have most := stored.most
      omega)
  rw [text, read_iff canonical (by rw [sign]; exact parts) here, size, meaning]
  by_cases fits : x.Fits
  · have tops := top_fits stored fits
    rw [seen_fits fits, ← DecT.value, and_iff_left rfl]
    unfold DecT.Fits at fits
    rw [tops, i32_eq (by omega) (by omega)] at top
    rw [textDigits]
    omega
  · -- the places wrap, and a zero is written
    have pos := mag_pos canonical zero
    rw [seen_above fits, DecT.value]
    unfold DecT.Fits at fits
    refine iff_of_false ?_ ?_
    · rintro ⟨-, eq⟩
      split_ifs at eq with minus
      · linarith
      · linarith
    · have : maxDigits = 100000 := rfl
      rw [textDigits]
      omega

/-- A decimal that was written is read back as it was, exactly when the text has no more digits
than `dec_parse` takes; and what is read is what the text denotes. -/
theorem text_round_trip_iff (x : Decimal) (mem : Nat → Bool) (s : List Nat) :
    ((decWrite mem x.toDecT dbInit).oom = false → (decWrite mem x.toDecT dbInit).tooLong = false →
      ((∃ y, decParse (fun _ => true) (decWrite mem x.toDecT dbInit).p = some y ∧
        y.d = x.d ∧ y.exp = x.exp ∧ y.sign = x.sign) ↔ textDigits x.toDecT ≤ maxDigits)) ∧
    ∀ y, decParse mem s = some y → y.Canonical ∧ y.value = denote s :=
  ⟨fun fine short => written_iff x.canonical fine short,
    fun _ done => ⟨(decParse_spec done).1, (decParse_spec done).2.1⟩⟩

def longOne : Decimal := ⟨⟨150000, [1], decInline, false⟩, by decide⟩

/-- Its text is written, with 150001 digits, and refused. -/
theorem long_text_refused : (decWrite (fun _ => true) longOne.toDecT dbInit).oom = false ∧
      (decWrite (fun _ => true) longOne.toDecT dbInit).tooLong = false ∧
      decParse (fun _ => true) (decWrite (fun _ => true) longOne.toDecT dbInit).p = none := by
  have hi : max (i32 (longOne.top - 1)) 0 = ((150000 : ℕ) : ℤ) := by decide +kernel
  have lo : min longOne.exp 0 = 0 := by decide
  obtain ⟨fine, short⟩ := decWrite_granted (x := longOne.toDecT) (by decide) (by rw [hi, lo]; decide)
  refine ⟨fine, short, ?_⟩
  obtain ⟨-, text⟩ := decWrite_spec (by decide) fine short
  rw [hi, lo] at text
  obtain ⟨W, F, first, second, sign, parts⟩ := text_parts longOne.canonical.toStored longOne.sign 150000 0
  by_contra read
  obtain ⟨y, done⟩ := Option.ne_none_iff_exists'.mp read
  obtain ⟨-, -, few⟩ := decParse_spec done
  have count : (((150000 : ℕ) : ℤ) - 0 + 1).toNat = 150000 + 1 + 0 := by decide
  rw [text, count, sign, parts.whole, parts.frac, first, second] at few
  have size : (plain longOne.toDecT (150000 + 1) (150000 : ℕ) ++ plain longOne.toDecT 0 (-1)).length = 150001 := by
    rw [length_append, plain, plain, length_map, length_map, length_range, length_range]
  rw [size] at few
  exact absurd few (by decide)

end RoundTrip

end DynaJS.Dec
