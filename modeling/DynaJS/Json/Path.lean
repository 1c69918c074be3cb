import Mathlib.Data.List.Infix
import Mathlib.Data.List.Iterate
import DynaJS.Engine.Double
import DynaJS.Engine.Strings

/-! `JSONPath`: the run of a compiled query over a value, and what `first` keeps of `all`. -/
namespace DynaJS.Json

open DynaJS.Engine List Option

/-- A property key: an array index, or the code units of any other string. -/
inductive JsAtom where
  | index (n : Nat)
  | name (units : List UInt16)
  deriving DecidableEq, Repr

/-- A value as the query meets it in memory. An own property has its key, whether it is enumerable,
and its value, `none` for an accessor; they stand in the order in which the engine lists them. `other`
is a symbol or a big integer. -/
inductive JsVal where
  | undefined
  | null
  | bool (b : Bool)
  | int (n : Int32)
  | float (d : Double)
  | string (ptr : UInt64) (s : JsString)
  | other (ptr : UInt64)
  | object (ptr : UInt64) (props : List (JsAtom × Bool × Option JsVal))
  | array (ptr : UInt64) (length : Nat) (props : List (JsAtom × Bool × Option JsVal))

def jpMaxNodes : Nat := 2 ^ 20

def lengthAtom : JsAtom := .name [108, 101, 110, 103, 116, 104]

/-- `jp_own`: an own data property; a getter is never run. -/
def jpOwn : JsVal → JsAtom → Option JsVal
  | .object _ props, a => (props.find? (·.1 = a)).bind (·.2.2)
  | .array _ n props, a =>
    if a = lengthAtom then some (if n < 2 ^ 31 then .int (.ofNat n) else .float (.ofInt n))
    else (props.find? (·.1 = a)).bind (·.2.2)
  | _, _ => none

def jpLen : JsVal → Int
  | .array _ n _ => n
  | _ => -1

def jpChildren : JsVal → List JsVal
  | .array _ _ props => props.filterMap fun (a, _, v) => match a with
    | .index _ => v
    | .name _ => none
  | .object _ props => props.filterMap fun (_, enumerable, v) => if enumerable then v else none
  | _ => []

def jpIndex (v : JsVal) (i : Int) : Option JsVal :=
  let i := if i < 0 then i + jpLen v else i
  if 0 ≤ jpLen v ∧ 0 ≤ i ∧ i < jpLen v then jpOwn v (.index i.toNat) else none

inductive CmpOp where
  | eq
  | ne
  | lt
  | le
  | gt
  | ge
  deriving DecidableEq, Repr

structure Singular where
  root : Bool
  sels : List (JsAtom ⊕ Int)

inductive Operand where
  | path (p : Singular)
  | literal (v : JsVal)

inductive Filter where
  | or (a b : Filter)
  | and (a b : Filter)
  | not (a : Filter)
  | cmp (op : CmpOp) (a b : Operand)
  | path (p : Singular)

inductive Sel where
  | name (a : JsAtom)
  | index (i : Int)
  | wild
  | slice (start stop : Option Int) (step : Int)
  | filter (f : Filter)

structure Seg where
  descendant : Bool
  sels : List Sel

def jpResolve (root cur : JsVal) (p : Singular) : Option JsVal := p.sels.foldlM (fun v s => match s with
    | .inl a => jpOwn v a
    | .inr i => jpIndex v i) (if p.root then root else cur)

def jpOperand (root cur : JsVal) : Operand → Option JsVal
  | .path p => jpResolve root cur p
  | .literal v => some v

def jpBounds (start stop : Option Int) (step len : Int) : Int × Int :=
  let st := start.getD (if 0 ≤ step then 0 else len - 1)
  let en := stop.getD (if 0 ≤ step then len else -len - 1)
  let st := if st < 0 then st + len else st
  let en := if en < 0 then en + len else en
  if 0 ≤ step then (max 0 (min st len), max 0 (min en len))
  else (max (-1) (min en (len - 1)), max (-1) (min st (len - 1)))

/-- `i += step` on a signed word that wraps round. -/
def jpNext (step i : Int) : Int := (i + step).bmod (2 ^ 64)

/-- The indices that the loop of a slice visits, from `i` and while `more` holds. -/
def jpVisits (more : Int → Bool) (step : Int) (len : Nat) (i : Int) : List Int :=
  (List.iterate (jpNext step) i (2 * len + 1)).takeWhile more

def jpSlice (start stop : Option Int) (step : Int) (len : Nat) : List Int :=
  let (lo, up) := jpBounds start stop step len
  if step = 0 then []
  else if 0 < step then jpVisits (fun i => decide (i < up)) step len lo
  else jpVisits (fun i => decide (lo < i)) step len up

def jpNodes (v : JsVal) : Sel → List JsVal
  | .name a => (jpOwn v a).toList
  | .index i => (jpIndex v i).toList
  | .wild | .filter _ => jpChildren v
  | .slice start stop step => match v with
    | .array _ len _ => (jpSlice start stop step len).filterMap (jpIndex v)
    | _ => []

/-- The nodes of a walk down from the stack `jp_descend` keeps, and the count of nodes after it; `none` is
error 2, a query that visits too many nodes. The stacks of the nodes of `cur`, one after the other, are one. -/
def jpDescend (stack : List JsVal) (nn : Nat) : Option (List JsVal × Nat) :=
  match stack with
  | [] => some ([], nn)
  | v :: stack =>
    if nn + (jpChildren v).length ≤ jpMaxNodes then
      (jpDescend (jpChildren v ++ stack) (nn + (jpChildren v).length)).map fun r => (v :: r.1, r.2)
    else none
termination_by 2 * (jpMaxNodes - nn) + stack.length
decreasing_by
  simp only [length_append, length_cons]
  omega

def jpOrigin (seg : Seg) (cur : List JsVal) (nn : Nat) : Option (List JsVal × Nat) :=
  if seg.descendant then jpDescend cur nn else some (cur, nn)

section Query

-- how `jp_compare` finds the two sides of a comparison
variable (jpCompare : CmpOp → Option JsVal → Option JsVal → Bool)

def jpFilter (root cur : JsVal) : Filter → Bool
  | .or a b => jpFilter root cur a || jpFilter root cur b
  | .and a b => jpFilter root cur a && jpFilter root cur b
  | .not a => !jpFilter root cur a
  | .cmp op a b => jpCompare op (jpOperand root cur a) (jpOperand root cur b)
  | .path p => match jpResolve root cur p with
    | none | some .undefined => false
    | some _ => true

def jpSelected (root v : JsVal) : Sel → List JsVal
  | .filter f => (jpChildren v).filter (jpFilter jpCompare root · f)
  | s => jpNodes v s

/-- The selector loop of `jp_run`: the nodes it selects and the count of nodes after it. With `first` it
stops at the first pair that selects something. -/
def jpSelect (first : Bool) (root : JsVal) : List (JsVal × Sel) → Nat → Option (List JsVal × Nat)
  | [], nn => some ([], nn)
  | (v, s) :: pairs, nn =>
    let taken := jpSelected jpCompare root v s
    let nn := nn + (jpNodes v s).length
    if nn ≤ jpMaxNodes then
      if first && !taken.isEmpty then some (taken, nn)
      else (jpSelect first root pairs nn).map fun r => (taken ++ r.1, r.2)
    else none

def jpSegs (first : Bool) (root : JsVal) : List Seg → List JsVal → Nat → Option (List JsVal)
  | [], cur, _ => some cur
  | seg :: segs, cur, nn => do
    let (origin, nn) ← jpOrigin seg cur nn
    let (cur, nn) ← jpSelect jpCompare first root (origin.flatMap fun v => seg.sels.map (v, ·)) nn
    if cur.isEmpty then some [] else jpSegs first root segs cur nn

def jpRun (first : Bool) (segs : List Seg) (root : JsVal) : Option (List JsVal) :=
  jpSegs jpCompare first root segs [root] 1

def jpAll (segs : List Seg) (root : JsVal) : Option (List JsVal) := jpRun jpCompare false segs root

def jpFirst (segs : List Seg) (root : JsVal) : Option JsVal :=
  (jpRun jpCompare true segs root).map (·.headD .undefined)

end Query

variable {step : Int} {stack out : List JsVal}

theorem jpNext_eq {i : Int} (low : -2 ^ 63 ≤ i + step) (high : i + step < 2 ^ 63) : jpNext step i = i + step := by
  rw [jpNext, Int.bmod_eq_of_le] <;> omega

theorem stops (more : Int → Bool) (inv : Int → Prop) (rank : Int → Nat)
    (down : ∀ j, inv j → more j = true → inv (jpNext step j) ∧ rank (jpNext step j) < rank j)
    (n : Nat) (i : Int) (start : inv i) (within : rank i ≤ n) : ∃ k ≤ n, more ((jpNext step)^[k] i) = false := by
  induction n generalizing i with
  | zero =>
    refine ⟨0, le_rfl, ?_⟩
    by_contra goes
    have := (down i start (by simpa using goes)).2
    omega
  | succ n ih =>
    cases kind : more i with
    | false => exact ⟨0, Nat.zero_le _, kind⟩
    | true =>
      obtain ⟨kept, lower⟩ := down i start kind
      obtain ⟨k, bound, done⟩ := ih _ kept (by omega)
      exact ⟨k + 1, by omega, by rwa [Function.iterate_succ_apply]⟩

/-- The rounds that `jpVisits` looks at are all rounds of the loop of a rising slice. A step so large that
the index wraps round brings it back below where it was in two rounds. -/
theorem rising_stops {lo up : Int} {len : Nat} (short : len < 2 ^ 32) (positive : 0 < step)
    (word : step < 2 ^ 63) (low : 0 ≤ lo) (high : up ≤ len) :
    ∃ k ≤ 2 * len, decide ((jpNext step)^[k] lo < up) = false := by
  by_cases plain : step ≤ 2 ^ 63 - 2 ^ 32
  · refine stops (fun i => decide (i < up)) (fun j => 0 ≤ j) (fun j => (up - j).toNat) ?_ _ _ low (by omega)
    intro j inv goes
    have goes := of_decide_eq_true goes
    rw [jpNext_eq (by omega) (by omega)]
    omega
  · refine stops (fun i => decide (i < up))
      (fun j => step - 2 ^ 63 ≤ j ∨ 2 ^ 63 ≤ j + 2 ^ 64 ∧ j + 2 ^ 64 < step + 2 ^ 32)
      (fun j => if up ≤ j then 0 else if j < -2 ^ 62 then 2 * (j + 2 ^ 64 - step).toNat else 2 * j.toNat + 1)
      ?_ _ _ (by omega) (by split_ifs <;> omega)
    intro j inv goes
    have goes := of_decide_eq_true goes
    by_cases wraps : j + step < 2 ^ 63
    · rw [jpNext_eq (by omega) wraps]
      grind
    · have back : jpNext step j = j + step - 2 ^ 64 := by
        rw [jpNext, Int.bmod_def]
        omega
      grind

theorem falling_stops {lo up : Int} {len : Nat} (short : len < 2 ^ 32) (negative : step < 0)
    (word : -2 ^ 63 < step) (low : -1 ≤ lo) (high : up < len) :
    ∃ k ≤ 2 * len, decide (lo < (jpNext step)^[k] up) = false := by
  refine stops (fun i => decide (lo < i)) (fun j => j < len) (fun j => (j - lo).toNat) ?_ _ _ high (by omega)
  intro j inv goes
  have goes := of_decide_eq_true goes
  rw [jpNext_eq (by omega) (by omega)]
  omega

theorem jpBounds_within (start stop : Option Int) (step : Int) (len : Nat) :
    let (lo, up) := jpBounds start stop step len
    if 0 ≤ step then 0 ≤ lo ∧ up ≤ len else -1 ≤ lo ∧ up < len := by
  rw [jpBounds]
  split_ifs <;> omega

/-- The loop of a slice ends within the rounds that `jpSlice` looks at. -/
theorem jpSlice_stops {len : Nat} (short : len < 2 ^ 32) (start stop : Option Int) (nonzero : step ≠ 0)
    (word : |step| < 2 ^ 63) :
    let (lo, up) := jpBounds start stop step len
    ∃ k ≤ 2 * len, if 0 < step then up ≤ (jpNext step)^[k] lo else (jpNext step)^[k] up ≤ lo := by
  obtain ⟨least, most⟩ := abs_lt.mp word
  have within := jpBounds_within start stop step len
  dsimp only at within ⊢
  by_cases rises : 0 < step
  · rw [if_pos rises.le] at within
    obtain ⟨k, bound, done⟩ := rising_stops short rises most within.1 within.2
    exact ⟨k, bound, by rw [if_pos rises]; simpa using done⟩
  · rw [if_neg (by omega)] at within
    obtain ⟨k, bound, done⟩ := falling_stops short (by omega) least within.1 within.2
    exact ⟨k, bound, by rw [if_neg rises]; simpa using done⟩

/-- With a step of 2^63 - 9 the index wraps round, and is then one that counts from the end. -/
theorem jpSlice_stops_wraps : jpSlice (some 9) none 9223372036854775799 10 = [9, -2 ^ 63, -9] ∧
    ∃ k ≤ 20, 10 ≤ (jpNext 9223372036854775799)^[k] 9 :=
  ⟨by decide +kernel, @jpSlice_stops 9223372036854775799 10 (by decide) (some 9) none (by decide) (by decide)⟩

variable {nn last : Nat}

theorem jpDescend_grows (ran : jpDescend stack nn = some (out, last)) : nn ≤ last := by
  fun_induction jpDescend stack nn generalizing out with
  | case1 nn => simp_all
  | case2 nn v stack room ih =>
    obtain ⟨l, more, rfl⟩ := by simpa using ran
    have := ih more
    omega
  | case3 => simp at ran

theorem jpDescend_part {all : List JsVal} (ran : jpDescend all nn = some (out, last))
    {part : List JsVal} (cut : part <+: all) {mm : Nat} (fewer : mm ≤ nn) :
    ∃ l n, jpDescend part mm = some (l, n) ∧ l <+: out ∧ n ≤ last := by
  fun_induction jpDescend all nn generalizing out part mm with
  | case1 nn =>
    obtain ⟨rfl, rfl⟩ := by simpa using ran
    rw [prefix_nil.mp cut, jpDescend]
    exact ⟨[], mm, rfl, prefix_rfl, fewer⟩
  | case2 nn v stack room ih =>
    obtain ⟨more, ran', rfl⟩ := by simpa using ran
    cases part with
    | nil =>
      have := jpDescend_grows ran'
      exact ⟨[], mm, by rw [jpDescend], nil_prefix, by omega⟩
    | cons w part =>
      obtain ⟨rfl, tail⟩ := cons_prefix_cons.mp cut
      obtain ⟨l, n, sub, within, bound⟩ := ih ran' ((prefix_append_right_inj (jpChildren w)).mpr tail)
        (Nat.add_le_add_right fewer _)
      rw [jpDescend, if_pos (by omega), sub]
      exact ⟨w :: l, n, rfl, cons_prefix_cons.mpr ⟨rfl, within⟩, bound⟩
  | case3 => simp at ran

inductive Preorder : List JsVal → List JsVal → Prop
  | nil : Preorder [] []
  | cons {v : JsVal} {stack l : List JsVal} (below : Preorder (jpChildren v ++ stack) l) :
    Preorder (v :: stack) (v :: l)

theorem jpDescend_preorder (ran : jpDescend stack nn = some (out, last)) : Preorder stack out := by
  fun_induction jpDescend stack nn generalizing out with
  | case1 nn =>
    obtain ⟨rfl, rfl⟩ := by simpa using ran
    exact .nil
  | case2 nn v stack room ih =>
    obtain ⟨l, more, rfl⟩ := by simpa using ran
    exact .cons (ih more)
  | case3 => simp at ran

theorem Preorder.unique {l m : List JsVal} (one : Preorder stack l) (two : Preorder stack m) : l = m := by
  induction one generalizing m with
  | nil =>
    cases two
    rfl
  | cons below ih =>
    cases two with
    | cons below' => rw [ih below']

def Origin (seg : Seg) (cur origin : List JsVal) : Prop :=
  if seg.descendant then Preorder cur origin else origin = cur

theorem jpOrigin_iff {seg : Seg} {cur : List JsVal}
    (ran : jpOrigin seg cur nn = some (out, last)) (origin : List JsVal) : Origin seg cur origin ↔ origin = out := by
  cases deep : seg.descendant with
  | true =>
    have walk : Preorder cur out := jpDescend_preorder (by simpa [jpOrigin, deep] using ran)
    simp only [Origin, deep, if_true]
    exact ⟨fun other => other.unique walk, fun same => same ▸ walk⟩
  | false =>
    obtain ⟨rfl, -⟩ := by simpa [jpOrigin, deep] using ran
    simp only [Origin, deep, Bool.false_eq_true, if_false]

theorem jpOrigin_part {seg : Seg} {all : List JsVal} (ran : jpOrigin seg all nn = some (out, last))
    {part : List JsVal} (cut : part <+: all) {mm : Nat} (fewer : mm ≤ nn) :
    ∃ l n, jpOrigin seg part mm = some (l, n) ∧ l <+: out ∧ n ≤ last := by
  cases deep : seg.descendant with
  | true =>
    simp only [jpOrigin, deep, if_true] at ran ⊢
    exact jpDescend_part ran cut fewer
  | false =>
    obtain ⟨rfl, rfl⟩ := by simpa [jpOrigin, deep] using ran
    exact ⟨part, mm, by simp [jpOrigin, deep], cut, fewer⟩

section Query

variable {jpCompare : CmpOp → Option JsVal → Option JsVal → Bool} {root : JsVal} {out : List JsVal}

variable {nn last : Nat}

theorem jpSelect_grows {first : Bool} {pairs : List (JsVal × Sel)}
    (ran : jpSelect jpCompare first root pairs nn = some (out, last)) : nn ≤ last := by
  induction pairs generalizing out nn with
  | nil => simp_all [jpSelect]
  | cons pair pairs ih =>
    simp only [jpSelect, ite_none_right_eq_some] at ran
    obtain ⟨-, ran⟩ := ran
    split at ran
    · simp_all
      omega
    · obtain ⟨l, more, -⟩ := by simpa using ran
      have := ih more
      omega

/-- Stopping early selects a first part of what the whole loop selects, and makes no more nodes. -/
theorem jpSelect_part {all : List (JsVal × Sel)}
    (ran : jpSelect jpCompare false root all nn = some (out, last)) {part : List (JsVal × Sel)}
    (cut : part <+: all) {mm : Nat} (fewer : mm ≤ nn) :
    ∃ l n, jpSelect jpCompare true root part mm = some (l, n) ∧ l <+: out ∧ n ≤ last := by
  induction all generalizing out nn mm part with
  | nil =>
    obtain ⟨rfl, rfl⟩ := by simpa [jpSelect] using ran
    rw [prefix_nil.mp cut]
    exact ⟨[], mm, rfl, prefix_rfl, fewer⟩
  | cons pair all ih =>
    simp only [jpSelect, Bool.false_and, Bool.false_eq_true, if_false, ite_none_right_eq_some,
      map_eq_some_iff] at ran
    obtain ⟨room, ⟨more, last⟩, ran', split⟩ := ran
    obtain ⟨rfl, rfl⟩ := Prod.mk.inj split
    cases part with
    | nil =>
      have := jpSelect_grows ran'
      exact ⟨[], mm, rfl, nil_prefix, by omega⟩
    | cons pair' part =>
      obtain ⟨rfl, tail⟩ := cons_prefix_cons.mp cut
      simp only [jpSelect, Bool.true_and]
      rw [if_pos (by omega)]
      cases found : (jpSelected jpCompare root pair'.1 pair'.2).isEmpty with
      | false =>
        have := jpSelect_grows ran'
        exact ⟨_, _, rfl, prefix_append _ _, by omega⟩
      | true =>
        obtain ⟨l, n, sub, within, bound⟩ := ih ran' tail (Nat.add_le_add_right fewer _)
        exact ⟨_, n, by rw [sub]; rfl, (prefix_append_right_inj _).mpr within, bound⟩

variable (jpCompare root)

def blocks (seg : Seg) (origin : List JsVal) : List (List JsVal) :=
  (origin.flatMap fun v => seg.sels.map (v, ·)).map fun (v, s) => jpSelected jpCompare root v s

/-- The first block of every segment has something for the segments after it to select. -/
def Leads : List Seg → List JsVal → Prop
  | [], cur => cur ≠ []
  | seg :: segs, cur => ∃ origin block, Origin seg cur origin ∧
    (blocks jpCompare root seg origin).find? (!·.isEmpty) = some block ∧ Leads segs block

variable {jpCompare root}

theorem jpSelect_first {pairs : List (JsVal × Sel)} (ran : jpSelect jpCompare true root pairs nn = some (out, last)) :
    out = ((pairs.map fun (v, s) => jpSelected jpCompare root v s).find? (!·.isEmpty)).getD [] := by
  induction pairs generalizing nn out with
  | nil => simp_all [jpSelect]
  | cons pair pairs ih =>
    simp only [jpSelect, Bool.true_and, ite_none_right_eq_some] at ran
    obtain ⟨-, ran⟩ := ran
    rw [map_cons, find?_cons]
    cases found : (jpSelected jpCompare root pair.1 pair.2).isEmpty with
    | false => simp_all
    | true =>
      obtain ⟨l, more, rfl⟩ := by simpa [found] using ran
      rw [isEmpty_iff.mp found]
      exact ih more

variable {segs : List Seg}

theorem jpSegs_cons {first : Bool} {seg : Seg} {cur out : List JsVal} :
    jpSegs jpCompare first root (seg :: segs) cur nn = some out ↔ ∃ origin n taken n',
      jpOrigin seg cur nn = some (origin, n) ∧
      jpSelect jpCompare first root (origin.flatMap fun v => seg.sels.map (v, ·)) n = some (taken, n') ∧
      (if taken.isEmpty then some [] else jpSegs jpCompare first root segs taken n') = some out := by
  simp [jpSegs, bind_eq_some_iff]

/-- The run of `first` goes through and gives a first part of what the run of `all` gives. -/
theorem jpSegs_part {all out : List JsVal}
    (ran : jpSegs jpCompare false root segs all nn = some out) {part : List JsVal} (cut : part <+: all)
    {mm : Nat} (fewer : mm ≤ nn) : ∃ l, jpSegs jpCompare true root segs part mm = some l ∧ l <+: out := by
  induction segs generalizing all nn part mm with
  | nil =>
    obtain rfl := some.inj ran
    exact ⟨part, rfl, cut⟩
  | cons seg segs ih =>
    obtain ⟨origin, n, taken, n', from_all, select, rest⟩ := jpSegs_cons.mp ran
    obtain ⟨origin', m, from_part, inside, fewer⟩ := jpOrigin_part from_all cut fewer
    obtain ⟨taken', m', select', within, fewer⟩ :=
      jpSelect_part select (inside.flatMap fun v => seg.sels.map (v, ·)) fewer
    cases stuck : taken'.isEmpty with
    | true => exact ⟨[], jpSegs_cons.mpr ⟨_, _, _, _, from_part, select', by rw [stuck]; rfl⟩, nil_prefix⟩
    | false =>
      have some_all : taken.isEmpty = false := by
        cases taken with
        | nil => simp_all
        | cons => rfl
      obtain ⟨l, sub, part⟩ := ih (by simpa [some_all] using rest) within fewer
      exact ⟨l, jpSegs_cons.mpr ⟨_, _, _, _, from_part, select', by rw [stuck]; exact sub⟩, part⟩

/-- The run of `first` ends with a node exactly when every segment's first block leads on. -/
theorem jpSegs_leads {cur out : List JsVal}
    (ran : jpSegs jpCompare true root segs cur nn = some out) : out ≠ [] ↔ Leads jpCompare root segs cur := by
  induction segs generalizing cur nn with
  | nil =>
    obtain rfl := some.inj ran
    rfl
  | cons seg segs ih =>
    obtain ⟨origin, n, taken, n', start, select, rest⟩ := jpSegs_cons.mp ran
    have first := jpSelect_first select
    simp only [Leads, jpOrigin_iff start, exists_and_left, exists_eq_left, blocks]
    cases found : ((origin.flatMap fun v => seg.sels.map (v, ·)).map fun (v, s) =>
        jpSelected jpCompare root v s).find? (!·.isEmpty) with
    | none => simp_all
    | some block =>
      obtain rfl : taken = block := by simpa [found] using first
      have full : taken.isEmpty = false := by simpa using find?_some found
      rw [full] at rest
      rw [ih rest]
      simp

variable (jpCompare)

/-- `first` is the head of `all` exactly when that head is `undefined` or missing, or the first node and
selector that find something in a segment lead on to the end, segment by segment. -/
theorem first_head_iff (segs : List Seg) (root : JsVal) (l : List JsVal)
    (ran : jpAll jpCompare segs root = some l) : ∃ x, jpFirst jpCompare segs root = some x ∧
      (x = l.headD .undefined ∧ (x = .undefined ↔ l = [] ∨ l.head? = some .undefined) ↔
        l.headD .undefined = .undefined ∨ Leads jpCompare root segs [root]) := by
  obtain ⟨kept, first, part⟩ := jpSegs_part ran (prefix_refl _) le_rfl
  refine ⟨kept.headD .undefined, by rw [jpFirst, jpRun, first]; rfl, ?_⟩
  rw [← jpSegs_leads first]
  have none_iff : l.headD .undefined = .undefined ↔ l = [] ∨ l.head? = some .undefined := by
    cases l <;> simp
  rw [← none_iff]
  cases kept with
  | nil => simp [eq_comm]
  | cons x kept =>
    obtain ⟨more, rfl⟩ := part
    simp

end Query

def twoNames : List Seg := [⟨false, [.name (.name [97]), .name (.name [98])]⟩, ⟨false, [.name (.name [99])]⟩]

def nested (inner : List (JsAtom × Bool × Option JsVal)) : JsVal :=
  .object 16 [(.name [97], true, some (.object 32 inner)),
    (.name [98], true, some (.object 48 [(.name [99], true, some (.bool true))]))]

theorem first_head_kept : Leads (fun _ _ _ => true) (nested [(.name [99], true, some .null)]) twoNames
    [nested [(.name [99], true, some .null)]] := by
  obtain ⟨x, first, same⟩ := first_head_iff (fun _ _ _ => true) twoNames
    (nested [(.name [99], true, some .null)]) [.null, .bool true] rfl
  obtain rfl : JsVal.null = x := some.inj first
  simpa using same.mp (by simp)

/-- The node `a` is kept and has no `c`, so `first` finds nothing where `all` finds one. -/
theorem first_head_lost : jpAll (fun _ _ _ => true) twoNames (nested []) = some [.bool true] ∧
    jpFirst (fun _ _ _ => true) twoNames (nested []) = some .undefined := ⟨rfl, rfl⟩

end DynaJS.Json
