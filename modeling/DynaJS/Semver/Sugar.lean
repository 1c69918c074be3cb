import DynaJS.Semver.Range

/-! What the terms of a range text mean, and that their expansion into comparators means the
same. -/
namespace DynaJS.Semver

open List

deriving instance DecidableEq for XRange

inductive Term where
  | simple (op : Op) (x : XRange)
  | hyphen (lo hi : XRange)
deriving DecidableEq

def wordTerms : Nat → List UInt8 → Option (List Term)
  | 0, _ => some []
  | fuel + 1, s =>
    let s := s.dropWhile svIsSpace
    if s = [] then some []
    else (parseWord s).bind fun (op, x, s) => (wordTerms fuel s).map (.simple op x :: ·)

def setTerms (s : List UInt8) : Option (List Term) :=
  let s := (s.dropWhile svIsSpace).rdropWhile svIsSpace
  if s = [] then some []
  else
    match splitHyphen s with
    | some (lo, hi) => (parsePartial lo).bind fun lo => (parsePartial hi).map fun hi => [.hyphen lo hi]
    | none => wordTerms s.length s

def Term.expand (set : CompSet) : Term → Option CompSet
  | .simple .caret x => expandCaret set x
  | .simple .tilde x => expandTilde set x
  | .simple op x => expandOp set op x
  | .hyphen lo hi => expandHyphen set lo hi

/-! ### The meaning of a term -/

variable (x : XRange)

def XRange.full : Bool := !(x.xM || x.xm || x.xp)

def XRange.version : SemVer := ⟨x.M, x.m, x.p, x.pre, []⟩

def XRange.In (v : SemVer) : Prop := x.xM = true ∨ v.major = x.M ∧ (x.xm = true ∨ v.minor = x.m)

def XRange.Before (v : SemVer) : Prop :=
  x.xM = false ∧ (v.major < x.M ∨ x.xm = false ∧ v.major = x.M ∧ v.minor < x.m)

def XRange.After (v : SemVer) : Prop :=
  x.xM = false ∧ (x.M < v.major ∨ x.xm = false ∧ v.major = x.M ∧ x.m < v.minor)

def AtLeast (v w : SemVer) : Prop := semverCompare v w ≠ .lt

def AtMost (v w : SemVer) : Prop := semverCompare v w ≠ .gt

/-- What a term says: missing components are unconstrained, and a bound with missing
components is the whole block. -/
def Term.Plain (v : SemVer) : Term → Prop
  | .simple .caret x =>
    if x.full then AtLeast v x.version ∧ v.major = x.M ∧ (x.M = 0 → v.minor = x.m ∧ (x.m = 0 → v.patch = x.p))
    else (x.In v ∨ x.After v) ∧ (x.xM = true ∨ v.major = x.M ∧ (x.xm = true ∨ x.M ≠ 0 ∨ v.minor = x.m))
  | .simple .tilde x =>
    if x.full then AtLeast v x.version ∧ v.major = x.M ∧ v.minor = x.m else x.In v
  | .simple .eq x => if x.full then semverCompare v x.version = .eq else x.In v
  | .simple .lt x => if x.full then semverCompare v x.version = .lt else x.Before v
  | .simple .lte x => if x.full then AtMost v x.version else x.Before v ∨ x.In v
  | .simple .gt x => if x.full then semverCompare v x.version = .gt else x.After v
  | .simple .gte x => if x.full then AtLeast v x.version else x.In v ∨ x.After v
  | .hyphen lo hi =>
    (if lo.full then AtLeast v lo.version else lo.In v ∨ lo.After v) ∧
      (if hi.full then AtMost v hi.version else hi.Before v ∨ hi.In v)

def XRange.first : Nat × Nat × Nat :=
  if x.xM then (0, 0, 0) else if x.xm then (x.M, 0, 0) else (x.M, x.m, 0)

def XRange.next : Nat × Nat × Nat := if x.xm then (x.M + 1, 0, 0) else (x.M, x.m + 1, 0)

def Term.start : Term → Option (Nat × Nat × Nat)
  | .simple .gt x => if x.full || x.xM then none else some x.next
  | .simple .lt _ => none
  | .simple .lte x => if x.xM then some (0, 0, 0) else none
  | .simple _ x => if x.full then none else some x.first
  | .hyphen lo _ => if lo.full || lo.xM then none else some lo.first

def SemVer.tuple (v : SemVer) : Nat × Nat × Nat := (v.major, v.minor, v.patch)

/-- A term holds if it says so, but prereleases of the first version of a block are before
the block. -/
def Term.Holds (v : SemVer) (t : Term) : Prop := t.Plain v ∧ (v.pre ≠ [] → t.start ≠ some v.tuple)

def XRange.Tags (v : SemVer) : Prop := x.full = true ∧ x.pre ≠ [] ∧ x.version.tuple = v.tuple

def Term.Tags (v : SemVer) : Term → Prop
  | .simple _ x => x.Tags v
  | .hyphen lo hi => lo.Tags v ∨ hi.Tags v

def AltHolds (v : SemVer) (ts : List Term) : Prop := (∀ t ∈ ts, t.Holds v) ∧ (v.pre ≠ [] → ∃ t ∈ ts, t.Tags v)

/-! ### The parser reads terms and expands them -/

theorem parseComparators_terms (fuel : Nat) (s : List UInt8) (set : CompSet) :
    parseComparators fuel s set = (wordTerms fuel s).bind fun ts => ts.foldlM Term.expand set := by
  induction fuel generalizing s set with
  | zero => rfl
  | succ fuel ih =>
    rw [parseComparators, wordTerms]
    by_cases empty : s.dropWhile svIsSpace = []
    · rw [if_pos empty, if_pos empty]
      rfl
    rw [if_neg empty, if_neg empty, Option.bind_assoc]
    congr 1
    funext ⟨op, x, rest⟩
    rw [Option.bind_map]
    simp only [Function.comp_def, foldlM_cons, ih]
    cases op <;> exact Option.bind_comm ..

theorem parseSet_terms (s : List UInt8) : parseSet s = (setTerms s).bind fun ts => ts.foldlM Term.expand [] := by
  unfold parseSet setTerms
  dsimp only
  split_ifs with empty
  · rfl
  cases splitHyphen ((s.dropWhile svIsSpace).rdropWhile svIsSpace) with
  | none => exact parseComparators_terms _ _ _
  | some sides =>
    dsimp only
    rw [Option.bind_assoc]
    congr 1
    funext lo
    rw [Option.bind_map]
    congr 1
    funext hi
    change expandHyphen [] lo hi = (expandHyphen [] lo hi).bind some
    cases expandHyphen [] lo hi <;> rfl

/-! ### Comparing with releases and with the bounds `-0` -/

def TupleLt (v : SemVer) (M m p : Nat) : Prop := v.major < M ∨ v.major = M ∧ (v.minor < m ∨ v.minor = m ∧ v.patch < p)

instance (v : SemVer) (M m p : Nat) : Decidable (TupleLt v M m p) := inferInstanceAs (Decidable (_ ∨ _))

def SemVer.WellFormed (v : SemVer) : Prop :=
  ∀ id ∈ v.pre, id.s ≠ [] ∧ (id.numeric = true → ∀ c ∈ id.s, svIsDigit c = true)

theorem compare_tuple (v : SemVer) (M m p : Nat) (pre : List Id) : semverCompare v ⟨M, m, p, pre, []⟩ =
      if TupleLt v M m p then .lt
      else if v.tuple = (M, m, p) then
        if v.pre = [] ∧ pre = [] then .eq else if v.pre = [] then .gt else if pre = [] then .lt else svCmpPre v.pre pre
      else .gt := by
  unfold semverCompare SemVer.tuple TupleLt
  simp only [Prod.mk.injEq, length_eq_zero_iff]
  by_cases hM : v.major = M
  · by_cases hm : v.minor = m
    · by_cases hp : v.patch = p
      · simp [hM, hm, hp]
      · simp [hM, hm, hp]
    · simp [hM, hm]
  · simp [hM]

theorem atLeast_release (v : SemVer) (M m p : Nat) :
    semverCompare v ⟨M, m, p, [], []⟩ ≠ .lt ↔ ¬ TupleLt v M m p ∧ (v.pre ≠ [] → v.tuple ≠ (M, m, p)) := by
  rw [compare_tuple]
  by_cases less : TupleLt v M m p
  · simp [less]
  · by_cases same : v.tuple = (M, m, p)
    · by_cases pre : v.pre = [] <;> simp [less, same, pre]
    · simp [less, same]

variable {v : SemVer}

theorem atLeast_not_lt {M m p : Nat} {pre : List Id} (ge : semverCompare v ⟨M, m, p, pre, []⟩ ≠ .lt) :
    ¬ TupleLt v M m p := fun less => ge (by rw [compare_tuple, if_pos less])

theorem stripZeros_ne {l : List UInt8} (some : l ≠ []) : stripZeros l ≠ [] := by
  induction l with
  | nil => exact absurd rfl some
  | cons c l ih =>
    cases l with
    | nil => exact some
    | cons d l =>
      rw [stripZeros]
      split_ifs
      · exact ih (cons_ne_nil _ _)
      · exact cons_ne_nil _ _

theorem stripZeros_mem {l : List UInt8} {c : UInt8} (member : c ∈ stripZeros l) : c ∈ l := by
  induction l with
  | nil => exact member
  | cons x l ih =>
    cases l with
    | nil => exact member
    | cons d l =>
      rw [stripZeros] at member
      split_ifs at member
      · exact mem_cons_of_mem _ (ih member)
      · exact member

theorem svCmpId_zero {x : Id} (some : x.s ≠ []) (digits : x.numeric = true → ∀ c ∈ x.s, svIsDigit c = true) :
    svCmpId x svZero ≠ .lt := by
  unfold svCmpId svZero
  cases hx : x.numeric with
  | false => simp
  | true =>
    simp only [Bool.and_self, if_true]
    have one : stripZeros [48] = [48] := rfl
    have rest := stripZeros_ne some
    unfold svCmpNum
    rw [one]
    cases hs : stripZeros x.s with
    | nil => exact absurd hs rest
    | cons c l =>
      cases l with
      | nil =>
        have digit := digits hx c (stripZeros_mem (by rw [hs]; exact mem_cons_self ..))
        have low : 48 ≤ c := by
          unfold svIsDigit at digit
          simp only [Bool.and_eq_true, decide_eq_true_eq] at digit
          exact digit.1
        have order : memcmp [c] [48] = compare c 48 := by
          change compare [c] [48] = _
          rw [List.compare_cons_cons]
          cases compare c 48 <;> rfl
        rw [if_neg (by simp), order]
        intro less
        have lt : c < 48 := Std.compare_eq_lt.mp less
        exact absurd lt (UInt8.not_lt.mpr low)
      | cons d l =>
        rw [if_pos (by simp), if_neg (by simp)]
        decide

theorem before_zero (wf : v.WellFormed) (M m p : Nat) :
    semverCompare v ⟨M, m, p, [svZero], []⟩ = .lt ↔ TupleLt v M m p := by
  rw [compare_tuple]
  by_cases less : TupleLt v M m p
  · simp [less]
  rw [if_neg less]
  refine iff_of_false ?_ less
  by_cases same : v.tuple = (M, m, p)
  · rw [if_pos same, if_neg (by simp)]
    cases hpre : v.pre with
    | nil => simp
    | cons x l =>
      obtain ⟨some, digits⟩ := wf x (by rw [hpre]; exact mem_cons_self ..)
      have first := svCmpId_zero some digits
      rw [if_neg (by simp), if_neg (by simp), svCmpPre]
      split_ifs
      · exact first
      · cases l <;> exact fun impossible => by contradiction
  · rw [if_neg same]
    decide

/-! ### The expansions -/

def Pass (v : SemVer) (set : CompSet) : Prop := ∀ c ∈ set, cmpTest v c = true

def Tagged (v : SemVer) (set : CompSet) : Prop := ∃ c ∈ set, c.v.pre ≠ [] ∧ c.v.tuple = v.tuple

structure Adds (v : SemVer) (set set' : CompSet) (P W : Prop) : Prop where
  pass : Pass v set' ↔ Pass v set ∧ P
  tags : P → (Tagged v set' ↔ Tagged v set ∨ W)

section Expand

variable {v : SemVer} {set set' set'' : CompSet} {P Q W W' : Prop}

theorem Adds.trans (first : Adds v set set' P W) (second : Adds v set' set'' Q W') :
    Adds v set set'' (P ∧ Q) (W ∨ W') where
  pass := by rw [second.pass, first.pass, and_assoc]
  tags := fun both => by rw [second.tags both.2, first.tags both.1, or_assoc]

theorem Adds.congr (adds : Adds v set set' P W) (same : P ↔ Q) (tags : P → (W ↔ W')) : Adds v set set' Q W' where
  pass := by rw [adds.pass, same]
  tags := fun q => by rw [adds.tags (same.mpr q), tags (same.mpr q)]

theorem adds_append (v : SemVer) (set : CompSet) (c : Comparator) :
    Adds v set (set ++ [c]) (cmpTest v c = true) (c.v.pre ≠ [] ∧ c.v.tuple = v.tuple) := by
  refine ⟨?_, fun _ => ?_⟩
  · unfold Pass
    simp [or_imp, forall_and]
  · unfold Tagged
    simp [or_and_right, exists_or]

variable {op : Op}

variable {M m p : Nat} {t : Term} {R : Prop}

theorem svAddCmp_eq {pre : List Id} {addZero : Bool} (added : svAddCmp set op M m p pre addZero = some set') :
    set' = set ++ [⟨op, ⟨M, m, p, if addZero then [svZero] else pre, []⟩⟩] := by
  unfold svAddCmp at added
  cases addZero <;> simp only [Bool.false_eq_true, if_false, if_true] at added ⊢ <;> split_ifs at added <;>
    exact (Option.some.inj added).symm

theorem svAddCmp_written {pre : List Id} (v : SemVer) (added : svAddCmp set op M m p pre false = some set') :
    Adds v set set' (cmpTest v ⟨op, ⟨M, m, p, pre, []⟩⟩ = true) (pre ≠ [] ∧ (M, m, p) = v.tuple) := by
  rw [svAddCmp_eq added]
  exact adds_append v set _

theorem svAddCmp_release (v : SemVer) (added : svAddCmp set .gte M m p [] false = some set') :
    Adds v set set' (¬ TupleLt v M m p ∧ (v.pre ≠ [] → (M, m, p) ≠ v.tuple)) False := by
  refine (svAddCmp_written v added).congr ?_ fun _ => by simp
  simp only [ne_comm (a := (M, m, p))]
  rw [← atLeast_release]
  simp [cmpTest]

theorem svAddCmp_zero (wf : v.WellFormed) (added : svAddCmp set .lt M m p [] true = some set') :
    Adds v set set' (TupleLt v M m p) False := by
  have adds := adds_append v set ⟨.lt, ⟨M, m, p, [svZero], []⟩⟩
  have less : cmpTest v ⟨.lt, ⟨M, m, p, [svZero], []⟩⟩ = true ↔ TupleLt v M m p := by
    rw [← before_zero wf]
    simp [cmpTest]
  rw [svAddCmp_eq added]
  refine adds.congr less fun below => iff_of_false (fun same => ?_) not_false
  have numbers : M = v.major ∧ m = v.minor ∧ p = v.patch := by simpa [SemVer.tuple] using same.2
  have before := less.mp below
  unfold TupleLt at before
  omega

theorem bind_some {α β : Type} {a : Option α} {f : α → Option β} {b : β} (ok : (a >>= f) = some b) :
    ∃ x, a = some x ∧ f x = some b := Option.bind_eq_some_iff.mp ok

variable {x : XRange} {M m : Nat}

theorem adds_from (v : SemVer) (first : x.first = (M, m, 0)) (added : svAddCmp set .gte M m 0 [] false = some set') :
    Adds v set set' ((x.In v ∨ x.After v) ∧ (v.pre ≠ [] → x.first ≠ v.tuple)) False := by
  refine (svAddCmp_release v added).congr ?_ fun _ => Iff.rfl
  rw [first]
  refine and_congr_left fun _ => ?_
  unfold XRange.first at first
  unfold TupleLt XRange.In XRange.After
  cases hM : x.xM <;> cases hm : x.xm <;> simp [hM, hm] at first ⊢ <;> omega

theorem adds_after (v : SemVer) (given : x.xM = false) (next : x.next = (M, m, 0))
    (added : svAddCmp set .gte M m 0 [] false = some set') :
    Adds v set set' (x.After v ∧ (v.pre ≠ [] → x.next ≠ v.tuple)) False := by
  refine (svAddCmp_release v added).congr ?_ fun _ => Iff.rfl
  rw [next]
  refine and_congr_left fun _ => ?_
  unfold XRange.next at next
  unfold TupleLt XRange.After
  cases hm : x.xm <;> simp [given, hm] at next ⊢ <;> omega

theorem adds_before (wf : v.WellFormed) (given : x.xM = false) (first : x.first = (M, m, 0))
    (added : svAddCmp set .lt M m 0 [] true = some set') : Adds v set set' (x.Before v) False := by
  refine (svAddCmp_zero wf added).congr ?_ fun _ => Iff.rfl
  unfold XRange.first at first
  unfold TupleLt XRange.Before
  cases hm : x.xm <;> simp [given, hm] at first ⊢ <;> omega

theorem adds_upto (wf : v.WellFormed) (given : x.xM = false) (next : x.next = (M, m, 0))
    (added : svAddCmp set .lt M m 0 [] true = some set') : Adds v set set' (x.Before v ∨ x.In v) False := by
  refine (svAddCmp_zero wf added).congr ?_ fun _ => Iff.rfl
  unfold XRange.next at next
  unfold TupleLt XRange.Before XRange.In
  cases hm : x.xm <;> simp [given, hm] at next ⊢ <;> omega

theorem XRange.in_iff (v : SemVer) : (x.In v ∨ x.After v) ∧ (x.Before v ∨ x.In v) ↔ x.In v := by
  unfold XRange.In XRange.After XRange.Before
  cases x.xM <;> cases x.xm <;> simp <;> omega

theorem adds_block {M' m' : Nat} (wf : v.WellFormed) (given : x.xM = false) (first : x.first = (M, m, 0))
    (next : x.next = (M', m', 0))
    (added : (svAddCmp set .gte M m 0 [] false >>= fun set => svAddCmp set .lt M' m' 0 [] true) = some set') :
    Adds v set set' (x.In v ∧ (v.pre ≠ [] → x.first ≠ v.tuple)) False := by
  obtain ⟨mid, lower, upper⟩ := bind_some added
  refine ((adds_from v first lower).trans (adds_upto wf given next upper)).congr ?_ fun _ => by simp
  rw [and_right_comm, x.in_iff]

theorem holds_iff {first : Nat × Nat × Nat} (start : t.start = some first) (plain : R ↔ t.Plain v) :
    R ∧ (v.pre ≠ [] → first ≠ v.tuple) ↔ t.Holds v := by
  rw [Term.Holds, start, plain]
  simp

theorem holds_unbounded (start : t.start = none) (plain : R ↔ t.Plain v) : R ↔ t.Holds v := by
  rw [Term.Holds, start, plain]
  simp

theorem no_tags (part : x.full = false) : False ↔ x.Tags v := by
  simp [XRange.Tags, part]

theorem full_tags (full : x.full = true) : (x.pre ≠ [] ∧ (x.M, x.m, x.p) = v.tuple) ↔ x.Tags v := by
  simp [XRange.Tags, full, XRange.version, SemVer.tuple]

theorem adds_in (isBlock : op = .tilde ∨ op = .eq) (part : x.full = false)
    (adds : Adds v set set' (x.In v ∧ (v.pre ≠ [] → x.first ≠ v.tuple)) False) :
    Adds v set set' ((Term.simple op x).Holds v) ((Term.simple op x).Tags v) := by
  refine adds.congr ?_ fun _ => no_tags part
  rcases isBlock with rfl | rfl <;> exact holds_iff (by simp [Term.start, part]) (by simp [Term.Plain, part])

theorem adds_any (given : x.xM = true) (added : svAddCmp set .gte 0 0 0 [] false = some set') :
    Adds v set set' (x.In v ∧ (v.pre ≠ [] → x.first ≠ v.tuple)) False := by
  refine (adds_from (x := x) v (by simp [XRange.first, given]) added).congr ?_ fun _ => Iff.rfl
  simp [XRange.In, given]

theorem cmpTest_version (v : SemVer) (op : Op) (x : XRange) (isOp : op ≠ .tilde ∧ op ≠ .caret) (full : x.full = true) :
    cmpTest v ⟨op, x.version⟩ = true ↔ (Term.simple op x).Plain v := by
  cases op <;> simp_all [cmpTest, Term.Plain, AtLeast, AtMost]

theorem adds_nothing (v : SemVer) set : Adds v set set True False := ⟨by simp, fun _ => by simp⟩

theorem hyphen_lower {lo : XRange} (hi : XRange) (v : SemVer) (ok : hyphenLower set lo = some set') :
    Adds v set set' ((if lo.full then AtLeast v lo.version else lo.In v ∨ lo.After v) ∧
      (v.pre ≠ [] → (Term.hyphen lo hi).start ≠ some v.tuple)) (lo.Tags v) := by
  rcases lo with ⟨_ | _, _ | _, _ | _, M, m, p, pre⟩
  case false.false.false =>
    refine (svAddCmp_written v ok).congr ?_ fun _ => full_tags rfl
    simp [XRange.full, Term.start, cmpTest, AtLeast, XRange.version]
  case false.false.true | false.true.false | false.true.true =>
    refine (adds_from v ?_ ok).congr (and_congr Iff.rfl ?_) fun _ => no_tags rfl
    · rfl
    · simp [XRange.full, Term.start]
  all_goals
    cases Option.some.inj ok
    refine (adds_nothing v set).congr ?_ fun _ => no_tags rfl
    simp [XRange.full, XRange.In, Term.start]

variable (wf : v.WellFormed)
include wf

theorem adds_full {M' m' p' : Nat} (full : x.full = true) (start : (Term.simple op x).start = none)
    (meaning : ¬ TupleLt v x.M x.m x.p → (TupleLt v M' m' p' ↔ R))
    (plain : (Term.simple op x).Plain v ↔ AtLeast v x.version ∧ R)
    (added : (svAddCmp set .gte x.M x.m x.p x.pre false >>= fun set => svAddCmp set .lt M' m' p' [] true) = some set') :
    Adds v set set' ((Term.simple op x).Holds v) ((Term.simple op x).Tags v) := by
  obtain ⟨mid, lower, upper⟩ := bind_some added
  refine ((svAddCmp_written v lower).trans (svAddCmp_zero wf upper)).congr ?_ fun _ => ?_
  · refine holds_unbounded start ?_
    have test : cmpTest v ⟨.gte, x.version⟩ = true ↔ AtLeast v x.version := by simp [cmpTest, AtLeast]
    rw [plain, ← test]
    refine and_congr_right fun ok => meaning ?_
    exact atLeast_not_lt (test.mp ok)
  · rw [or_false]
    exact full_tags full

theorem expandTilde_adds (ok : expandTilde set x = some set') :
    Adds v set set' ((Term.simple .tilde x).Holds v) ((Term.simple .tilde x).Tags v) := by
  match x with
  | ⟨true, _, _, _, _, _, _⟩ => exact adds_in (.inl rfl) rfl (adds_any rfl ok)
  | ⟨false, true, _, _, _, _, _⟩ => exact adds_in (.inl rfl) rfl (adds_block wf rfl rfl rfl ok)
  | ⟨false, false, true, _, _, _, _⟩ => exact adds_in (.inl rfl) rfl (adds_block wf rfl rfl rfl ok)
  | ⟨false, false, false, M, m, p, pre⟩ =>
    refine adds_full wf rfl rfl ?_ Iff.rfl ok
    unfold TupleLt
    omega

theorem expandCaret_adds (ok : expandCaret set x = some set') :
    Adds v set set' ((Term.simple .caret x).Holds v) ((Term.simple .caret x).Tags v) := by
  match x with
  | ⟨true, _, _, _, _, _, _⟩ =>
    refine (adds_any rfl ok).congr (holds_iff rfl ?_) fun _ => no_tags rfl
    simp [Term.Plain, XRange.full, XRange.In]
  | ⟨false, true, _, M, _, _, _⟩ =>
    refine (adds_block wf rfl rfl rfl ok).congr (holds_iff rfl ?_) fun _ => no_tags rfl
    simp [Term.Plain, XRange.full, XRange.In, XRange.After]
    omega
  | ⟨false, false, true, M, m, p, pre⟩ =>
    obtain ⟨mid, lower, upper⟩ := bind_some ok
    dsimp only at upper
    split_ifs at upper with zero
    · refine (adds_block wf rfl rfl rfl (Option.bind_eq_some_iff.mpr ⟨mid, lower, upper⟩)).congr (holds_iff rfl ?_)
        fun _ => no_tags rfl
      simp [Term.Plain, XRange.full, XRange.In, XRange.After, zero]
      omega
    · refine ((adds_from (x := ⟨false, false, true, M, m, p, pre⟩) v rfl lower).trans (svAddCmp_zero wf upper)).congr ?_
        fun _ => (or_false _).to_iff.trans (no_tags rfl)
      rw [and_right_comm]
      refine holds_iff rfl ?_
      simp [Term.Plain, XRange.full, XRange.In, XRange.After, TupleLt, zero]
      omega
  | ⟨false, false, false, M, m, p, pre⟩ =>
    obtain ⟨mid, lower, upper⟩ := bind_some ok
    have whole {M' m' p' : Nat} (upper : svAddCmp mid .lt M' m' p' [] true = some set')
        (meaning : ¬TupleLt v M m p → (TupleLt v M' m' p' ↔
          v.major = M ∧ (M = 0 → v.minor = m ∧ (m = 0 → v.patch = p)))) :
        Adds v set set' ((Term.simple .caret ⟨false, false, false, M, m, p, pre⟩).Holds v)
          ((Term.simple .caret ⟨false, false, false, M, m, p, pre⟩).Tags v) :=
      adds_full wf rfl rfl meaning Iff.rfl (Option.bind_eq_some_iff.mpr ⟨mid, lower, upper⟩)
    dsimp only at upper
    split_ifs at upper <;> refine whole upper ?_ <;> unfold TupleLt <;> omega

theorem expandOp_adds (isOp : op ≠ .tilde ∧ op ≠ .caret) (ok : expandOp set op x = some set') :
    Adds v set set' ((Term.simple op x).Holds v) ((Term.simple op x).Tags v) := by
  rcases x with ⟨_ | _, _ | _, _ | _, M, m, p, pre⟩
  case false.false.false =>
    refine (svAddCmp_written v ok).congr ?_ fun _ => full_tags rfl
    exact holds_unbounded (by cases op <;> simp_all [Term.start, XRange.full]) (cmpTest_version v op _ isOp rfl)
  case false.false.true | false.true.false | false.true.true =>
    cases op with
    | tilde => exact absurd rfl isOp.1
    | caret => exact absurd rfl isOp.2
    | eq => exact adds_in (.inr rfl) rfl (adds_block wf rfl rfl rfl ok)
    | lt => exact (adds_before wf rfl rfl ok).congr (holds_unbounded rfl Iff.rfl) fun _ => no_tags rfl
    | gte => exact (adds_from v rfl ok).congr (holds_iff rfl Iff.rfl) fun _ => no_tags rfl
    | gt => exact (adds_after v rfl rfl ok).congr (holds_iff rfl Iff.rfl) fun _ => no_tags rfl
    | lte => exact (adds_upto wf rfl rfl ok).congr (holds_unbounded rfl Iff.rfl) fun _ => no_tags rfl
  all_goals
    cases op with
    | tilde => exact absurd rfl isOp.1
    | caret => exact absurd rfl isOp.2
    | eq => exact adds_in (.inr rfl) rfl (adds_any rfl ok)
    | gte | lte =>
      refine (adds_any (x := ⟨true, true, true, M, m, p, pre⟩) rfl ok).congr (holds_iff rfl ?_) fun _ => no_tags rfl
      simp [Term.Plain, XRange.full, XRange.In]
    | gt | lt =>
      refine (svAddCmp_zero wf ok).congr (holds_unbounded rfl ?_) fun _ => no_tags rfl
      simp [Term.Plain, XRange.full, XRange.After, XRange.Before, TupleLt]

theorem hyphen_upper {hi : XRange} (ok : hyphenUpper set hi = some set') :
    Adds v set set' (if hi.full then AtMost v hi.version else hi.Before v ∨ hi.In v) (hi.Tags v) := by
  rcases hi with ⟨_ | _, _ | _, _ | _, M, m, p, pre⟩
  case false.false.false =>
    refine (svAddCmp_written v ok).congr ?_ fun _ => full_tags rfl
    simp [XRange.full, cmpTest, AtMost, XRange.version]
  case false.false.true | false.true.false | false.true.true =>
    exact (adds_upto wf rfl rfl ok).congr Iff.rfl fun _ => no_tags rfl
  all_goals
    cases Option.some.inj ok
    refine (adds_nothing v set).congr ?_ fun _ => no_tags rfl
    simp [XRange.full, XRange.In]

theorem expandHyphen_adds {lo hi : XRange} (ok : expandHyphen set lo hi = some set') :
    Adds v set set' ((Term.hyphen lo hi).Holds v) ((Term.hyphen lo hi).Tags v) := by
  obtain ⟨mid, lower, upper⟩ := bind_some ok
  refine ((hyphen_lower hi v lower).trans (hyphen_upper wf upper)).congr ?_ fun _ => Iff.rfl
  rw [and_right_comm]
  rfl

theorem expand_adds (ok : t.expand set = some set') : Adds v set set' (t.Holds v) (t.Tags v) := by
  cases t with
  | hyphen lo hi => exact expandHyphen_adds wf ok
  | simple op x =>
    cases op with
    | caret => exact expandCaret_adds wf ok
    | tilde => exact expandTilde_adds wf ok
    | lt | lte | gt | gte | eq => exact expandOp_adds wf (by decide) ok

theorem expand_all {ts : List Term} (ok : ts.foldlM Term.expand set = some set') :
    Adds v set set' (∀ t ∈ ts, t.Holds v) (∃ t ∈ ts, t.Tags v) := by
  induction ts generalizing set with
  | nil =>
    cases Option.some.inj ok
    exact (adds_nothing v _).congr (by simp) fun _ => by simp
  | cons t ts ih =>
    obtain ⟨mid, first, rest⟩ := bind_some ok
    exact ((expand_adds wf first).trans (ih rest)).congr (by simp) fun _ => by simp

end Expand

/-! ### Whole texts -/

theorem setTest_iff (v : SemVer) (set : CompSet) :
    setTest v set = true ↔ Pass v set ∧ (v.pre ≠ [] → Tagged v set) := by
  have tuple : ∀ c : Comparator, sameTuple c.v v = true ↔ c.v.tuple = v.tuple := fun c => by
    simp [sameTuple, SemVer.tuple, and_assoc]
  unfold setTest
  by_cases all : ¬ set.all (cmpTest v) = true
  · rw [if_pos all]
    refine iff_of_false Bool.false_ne_true fun both => all (all_eq_true.mpr both.1)
  · rw [if_neg all]
    have pass : Pass v set := all_eq_true.mp (not_not.mp all)
    by_cases pre : v.pre = []
    · simp [pre, pass]
    · have pos : 0 < v.pre.length := length_pos_iff.mpr pre
      rw [if_pos pos, any_eq_true]
      simp only [pass, true_and, ne_eq, pre, not_false_eq_true, forall_const, Tagged, Bool.and_eq_true,
        decide_eq_true_eq, length_pos_iff, tuple]

theorem alternative_iff (wf : v.WellFormed) {s : List UInt8} {set : CompSet}
    (parsed : ((parseSet s).bind fun set => if set = [] then svAddCmp [] .gte 0 0 0 [] false else some set) =
      some set) :
    ∃ ts, setTerms s = some ts ∧ (setTest v set = true ↔ AltHolds v ts) := by
  obtain ⟨set', ok, filled⟩ := Option.bind_eq_some_iff.mp parsed
  rw [parseSet_terms] at ok
  obtain ⟨ts, terms, expanded⟩ := Option.bind_eq_some_iff.mp ok
  refine ⟨ts, terms, ?_⟩
  have adds := expand_all wf expanded
  have whole : setTest v set' = true ↔ AltHolds v ts := by
    rw [setTest_iff, adds.pass, AltHolds]
    have empty : Pass v [] := forall_mem_nil _
    rw [and_iff_right empty]
    refine and_congr_right fun all => ?_
    rw [adds.tags all]
    simp [Tagged]
  split_ifs at filled with none
  · subst none
    rw [← whole]
    have bound := svAddCmp_release v filled
    rw [setTest_iff, setTest_iff, bound.pass]
    by_cases pre : v.pre = []
    · simp [pre, TupleLt]
    · refine iff_of_false (fun both => ?_) fun both => ?_
      · have tagged := (bound.tags both.1.2).mp (both.2 pre)
        simp [Tagged] at tagged
      · have tagged := both.2 pre
        simp [Tagged] at tagged
  · cases Option.some.inj filled
    exact whole

theorem svParseId_wf {isBuild : Bool} {part : List UInt8} {id : Id} (ok : svParseId isBuild part = some id) :
    id.s ≠ [] ∧ (id.numeric = true → ∀ c ∈ id.s, svIsDigit c = true) := by
  unfold svParseId at ok
  by_cases empty : part.length = 0
  · rw [if_pos empty] at ok
    contradiction
  rw [if_neg empty] at ok
  split_ifs at ok
  cases Option.some.inj ok
  exact ⟨fun none => empty (length_eq_zero_iff.mpr none), fun all => all_eq_true.mp all⟩

theorem mapM_mem {α β : Type} {f : α → Option β} {l : List α} {l' : List β} (ok : l.mapM f = some l') :
    ∀ b ∈ l', ∃ a ∈ l, f a = some b := by
  induction l generalizing l' with
  | nil =>
    cases Option.some.inj ok
    exact forall_mem_nil _
  | cons a l ih =>
    rw [mapM_cons] at ok
    obtain ⟨b, first, rest⟩ := bind_some ok
    obtain ⟨k, tail, done⟩ := bind_some rest
    cases Option.some.inj done
    intro c member
    rcases mem_cons.mp member with rfl | later
    · exact ⟨a, mem_cons_self .., first⟩
    · obtain ⟨x, there, found⟩ := ih tail c later
      exact ⟨x, mem_cons_of_mem _ there, found⟩

theorem takePre_wf {s rest : List UInt8} {ids : List Id} (ok : takePre s = some (ids, rest)) :
    ∀ id ∈ ids, id.s ≠ [] ∧ (id.numeric = true → ∀ c ∈ id.s, svIsDigit c = true) := by
  unfold takePre at ok
  split at ok
  · obtain ⟨parsed, found, same⟩ := Option.map_eq_some_iff.mp ok
    cases same
    unfold svParseIds at found
    dsimp only at found
    split_ifs at found
    intro id member
    obtain ⟨part, -, parsed⟩ := mapM_mem found id member
    exact svParseId_wf parsed
  · cases Option.some.inj ok
    exact forall_mem_nil _

theorem semverParse_wf {s : List UInt8} (ok : semverParse s = some v) : v.WellFormed := by
  obtain ⟨⟨major, s1⟩, -, ok⟩ := bind_some ok
  obtain ⟨s2, -, ok⟩ := bind_some ok
  obtain ⟨⟨minor, s3⟩, -, ok⟩ := bind_some ok
  obtain ⟨s4, -, ok⟩ := bind_some ok
  obtain ⟨⟨patch, s5⟩, -, ok⟩ := bind_some ok
  obtain ⟨⟨pre, s6⟩, hpre, ok⟩ := bind_some ok
  obtain ⟨⟨build, s7⟩, -, ok⟩ := bind_some ok
  dsimp only at ok
  split_ifs at ok
  cases Option.some.inj ok
  exact takePre_wf hpre

theorem alternatives_iff (wf : v.WellFormed) {parts : List (List UInt8)} {r : Range}
    (parsed : parts.mapM (fun part => (parseSet part).bind fun set =>
      if set = [] then svAddCmp [] .gte 0 0 0 [] false else some set) = some r) :
    ∃ alts, parts.mapM setTerms = some alts ∧ (rangeTest v r = true ↔ ∃ ts ∈ alts, AltHolds v ts) := by
  induction parts generalizing r with
  | nil =>
    cases Option.some.inj parsed
    exact ⟨[], rfl, by simp [rangeTest]⟩
  | cons part parts ih =>
    rw [mapM_cons] at parsed
    obtain ⟨set, first, rest⟩ := bind_some parsed
    obtain ⟨sets, tail, done⟩ := bind_some rest
    cases Option.some.inj done
    obtain ⟨ts, terms, meaning⟩ := alternative_iff wf first
    obtain ⟨alts, allTerms, others⟩ := ih tail
    refine ⟨ts :: alts, ?_, ?_⟩
    · rw [mapM_cons, terms, allTerms]
      rfl
    · rw [rangeTest, any_cons, Bool.or_eq_true, meaning, ← rangeTest, others]
      simp

end DynaJS.Semver
