import DynaJS.Semver.Parse

/-! When a version satisfies a range, and when `dyna-semver.c` says that two ranges
intersect. -/
namespace DynaJS.Semver

open Std List Bool

def cmpTest (v : SemVer) (c : Comparator) : Bool :=
  match c.op with
  | .lt => semverCompare v c.v == .lt
  | .lte => semverCompare v c.v != .gt
  | .gt => semverCompare v c.v == .gt
  | .gte => semverCompare v c.v != .lt
  | .eq => semverCompare v c.v == .eq
  | _ => false

def sameTuple (a b : SemVer) : Bool := a.major == b.major && a.minor == b.minor && a.patch == b.patch

def setTest (v : SemVer) (set : CompSet) : Bool :=
  if ¬ set.all (cmpTest v) then false
  else if 0 < v.pre.length then set.any fun c => 0 < c.v.pre.length && sameTuple c.v v
  else true

def rangeTest (v : SemVer) (rg : Range) : Bool := rg.any (setTest v)

def svEqIntersects (eq c : Comparator) : Bool :=
  if 0 < eq.v.pre.length ∧ (c.v.pre.length = 0 ∨ ¬ sameTuple c.v eq.v) then false else cmpTest eq.v c

def svCompMatchesNothing (c : Comparator) : Bool :=
  c.op == .lt && c.v.major == 0 && c.v.minor == 0 && c.v.patch == 0 && (c.v.pre.length == 0 || c.v.pre == [svZero])

def svCompIsAny (c : Comparator) : Bool :=
  c.op == .gte && c.v.major == 0 && c.v.minor == 0 && c.v.patch == 0 && c.v.pre.length == 0

def Op.up (op : Op) : Bool := op == .gt || op == .gte

def Op.down (op : Op) : Bool := op == .lt || op == .lte

def Op.inclusive (op : Op) : Bool := op == .gte || op == .lte || op == .eq

def svCompIntersects (a b : Comparator) : Bool :=
  if svCompIsAny a || svCompIsAny b then true
  else if svCompMatchesNothing a || svCompMatchesNothing b then false
  else if a.op == .eq && b.op != .eq then svEqIntersects a b
  else if b.op == .eq && a.op != .eq then svEqIntersects b a
  else if a.op.up && b.op.up then true
  else if a.op.down && b.op.down then true
  else
    let sc := semverCompare a.v b.v
    if sc == .eq && a.op.inclusive && b.op.inclusive then true
    else if a.op.up && b.op.down && sc == .lt then true
    else a.op.down && b.op.up && sc == .gt

def allPairs {α : Type} (test : α → α → Bool) : List α → Bool
  | [] => true
  | x :: l => l.all (test x) && allPairs test l

variable (x y : CompSet)

def svSetsIntersect : Bool :=
  allPairs svCompIntersects x && allPairs svCompIntersects y && x.all fun a => y.all (svCompIntersects a)

def svRangeIntersects (ra rb : Range) : Bool := ra.any fun x => rb.any (svSetsIntersect x)

/-! ### Two comparators that one version satisfies -/

/-- An equality with a prerelease next to a comparator that is none, without a prerelease of
the same version. -/
def eqClash (a b : Comparator) : Bool :=
  a.op == .eq && b.op != .eq && decide (0 < a.v.pre.length) && (b.v.pre.length == 0 || !sameTuple b.v a.v)

/-- Two comparators that are said not to intersect, whatever satisfies them. -/
def Clash (a b : Comparator) : Bool := !svCompIsAny a && !svCompIsAny b &&
    (svCompMatchesNothing a || svCompMatchesNothing b || eqClash a b || eqClash b a)

section Pair

variable {a b c : Comparator} {v w : SemVer}

theorem cmpTest_congr (same : semverCompare v w = .eq) (c : Comparator) : cmpTest v c = cmpTest w c := by
  have swap : semverCompare v c.v = semverCompare w c.v := TransCmp.congr_left same
  unfold cmpTest
  rw [swap]

theorem cmpTest_eq (isEq : c.op = .eq) (ok : cmpTest v c = true) : semverCompare v c.v = .eq := by
  unfold cmpTest at ok
  rw [isEq] at ok
  simpa using ok

theorem cmpTest_op (ok : cmpTest v c = true) : c.op = .eq ∨ c.op.up = true ∨ c.op.down = true := by
  unfold cmpTest at ok
  cases h : c.op <;> simp_all [Op.up, Op.down]

theorem cmpTest_up (up : c.op.up = true) (ok : cmpTest v c = true) :
    semverCompare v c.v = .gt ∨ semverCompare v c.v = .eq ∧ c.op.inclusive = true := by
  unfold cmpTest at ok
  cases h : c.op <;> simp_all [Op.up, Op.inclusive]
  cases order : semverCompare v c.v <;> simp_all

theorem cmpTest_down (down : c.op.down = true) (ok : cmpTest v c = true) :
    semverCompare v c.v = .lt ∨ semverCompare v c.v = .eq ∧ c.op.inclusive = true := by
  unfold cmpTest at ok
  cases h : c.op <;> simp_all [Op.down, Op.inclusive]
  cases order : semverCompare v c.v <;> simp_all

theorem up_down (up : a.op.up = true) (down : b.op.down = true) (okA : cmpTest v a = true) (okB : cmpTest v b = true) :
    semverCompare a.v b.v = .lt ∨ semverCompare a.v b.v = .eq ∧ a.op.inclusive = true ∧ b.op.inclusive = true := by
  rcases cmpTest_up up okA with above | ⟨atA, incA⟩
  · have lower : semverCompare a.v v = .lt := OrientedCmp.gt_iff_lt.mp above
    rcases cmpTest_down down okB with below | ⟨atB, -⟩
    · exact .inl (TransCmp.lt_trans lower below)
    · exact .inl (TransCmp.lt_of_lt_of_eq lower atB)
  · have same : semverCompare a.v v = .eq := OrientedCmp.eq_symm atA
    rcases cmpTest_down down okB with below | ⟨atB, incB⟩
    · exact .inl (TransCmp.lt_of_eq_of_lt same below)
    · exact .inr ⟨TransCmp.eq_trans same atB, incA, incB⟩

def boundsMeet (a b : Comparator) : Bool :=
  if semverCompare a.v b.v == .eq && a.op.inclusive && b.op.inclusive then true
  else if a.op.up && b.op.down && semverCompare a.v b.v == .lt then true
  else a.op.down && b.op.up && semverCompare a.v b.v == .gt

theorem boundsMeet_comm (a b : Comparator) : boundsMeet a b = boundsMeet b a := by
  have swap : semverCompare b.v a.v = (semverCompare a.v b.v).swap := OrientedCmp.eq_swap
  unfold boundsMeet
  rw [swap]
  cases semverCompare a.v b.v <;> cases a.op <;> cases b.op <;> rfl

theorem svCompIntersects_comm (a b : Comparator) : svCompIntersects a b = svCompIntersects b a := by
  have bounds := boundsMeet_comm a b
  unfold boundsMeet at bounds
  unfold svCompIntersects
  rw [or_comm (svCompIsAny a), or_comm (svCompMatchesNothing a), and_comm a.op.up b.op.up,
    and_comm a.op.down b.op.down]
  rw [bounds]
  -- the two tests for an equality exclude each other
  by_cases eqA : a.op = .eq
  · by_cases eqB : b.op = .eq
    · simp [eqA, eqB]
    · simp [eqA, eqB]
  · by_cases eqB : b.op = .eq
    · simp [eqA, eqB]
    · simp [eqA, eqB]

theorem svEqIntersects_iff (isEq : a.op = .eq) (other : b.op ≠ .eq) (okA : cmpTest v a = true)
    (okB : cmpTest v b = true) : svEqIntersects a b = !eqClash a b := by
  have ok : cmpTest a.v b = true := by rw [← cmpTest_congr (cmpTest_eq isEq okA) b, okB]
  unfold svEqIntersects eqClash
  rw [ok, isEq]
  by_cases pre : 0 < a.v.pre.length <;> by_cases none : b.v.pre.length = 0 <;> cases sameTuple b.v a.v <;>
    simp [pre, none, other]

theorem boundsMeet_of_common (okA : cmpTest v a = true) (okB : cmpTest v b = true)
    (eqs : a.op = .eq ↔ b.op = .eq) (ups : ¬ (a.op.up = true ∧ b.op.up = true))
    (downs : ¬ (a.op.down = true ∧ b.op.down = true)) : boundsMeet a b = true := by
  rcases cmpTest_op okA with eqA | upA | downA
  · have eqB := eqs.mp eqA
    have same : semverCompare a.v b.v = .eq :=
      TransCmp.eq_trans (OrientedCmp.eq_symm (cmpTest_eq eqA okA)) (cmpTest_eq eqB okB)
    simp [boundsMeet, same, eqA, eqB, Op.inclusive]
  · rcases cmpTest_op okB with eqB | upB | downB
    · rw [eqs.mpr eqB] at upA
      contradiction
    · exact absurd ⟨upA, upB⟩ ups
    · rcases up_down upA downB okA okB with less | ⟨same, incA, incB⟩
      · simp [boundsMeet, less, upA, downB]
      · simp [boundsMeet, same, incA, incB]
  · rcases cmpTest_op okB with eqB | upB | downB
    · rw [eqs.mpr eqB] at downA
      contradiction
    · rw [boundsMeet_comm]
      rcases up_down upB downA okB okA with less | ⟨same, incB, incA⟩
      · simp [boundsMeet, less, upB, downA]
      · simp [boundsMeet, same, incA, incB]
    · exact absurd ⟨downA, downB⟩ downs

theorem svCompIntersects_iff (okA : cmpTest v a = true) (okB : cmpTest v b = true) :
    svCompIntersects a b = !Clash a b := by
  unfold svCompIntersects Clash
  by_cases any : (svCompIsAny a || svCompIsAny b) = true
  · rw [if_pos any]
    rcases or_eq_true _ _ |>.mp any with anyA | anyB
    · rw [anyA]
      rfl
    · rw [anyB, Bool.not_true, Bool.and_false, Bool.false_and]
      rfl
  rw [if_neg any]
  obtain ⟨notA, notB⟩ : svCompIsAny a = false ∧ svCompIsAny b = false := by simpa using any
  rw [notA, notB]
  by_cases nothing : (svCompMatchesNothing a || svCompMatchesNothing b) = true
  · rw [if_pos nothing, nothing]
    rfl
  rw [if_neg nothing, (not_eq_true _).mp nothing]
  by_cases eqA : a.op = .eq
  · by_cases eqB : b.op = .eq
    · have meet := boundsMeet_of_common okA okB (iff_of_true eqA eqB) (by simp [eqA, Op.up]) (by simp [eqA, Op.down])
      unfold boundsMeet at meet
      simp [eqA, eqB, Op.up, Op.down, Op.inclusive, eqClash] at meet ⊢
      exact meet
    · have eqs := svEqIntersects_iff eqA eqB okA okB
      simp [eqA, eqB, eqs, eqClash]
  · by_cases eqB : b.op = .eq
    · have eqs := svEqIntersects_iff eqB eqA okB okA
      simp [eqA, eqB, eqs, eqClash]
    · have noClash : eqClash a b = false ∧ eqClash b a = false := by simp [eqClash, eqA, eqB]
      rw [noClash.1, noClash.2]
      by_cases ups : (a.op.up && b.op.up) = true
      · simp [eqA, eqB, ups]
      by_cases downs : (a.op.down && b.op.down) = true
      · simp [eqA, eqB, downs]
      have meet := boundsMeet_of_common okA okB (iff_of_false eqA eqB) (by simpa using ups) (by simpa using downs)
      unfold boundsMeet at meet
      rw [if_neg (by simp [eqA]), if_neg (by simp [eqB]), if_neg ups, if_neg downs]
      exact meet

end Pair

/-! ### Sets and ranges -/

def NoClash : Bool :=
  allPairs (fun a b => !Clash a b) x && allPairs (fun a b => !Clash a b) y && x.all fun a => y.all fun b => !Clash a b

theorem allPairs_congr {α : Type} {f g : α → α → Bool} {l : List α} (same : ∀ a ∈ l, ∀ b ∈ l, f a b = g a b) :
    allPairs f l = allPairs g l := by
  induction l with
  | nil => rfl
  | cons x l ih =>
    rw [allPairs, allPairs, ih fun a ha b hb => same a (mem_cons_of_mem _ ha) b (mem_cons_of_mem _ hb)]
    congr 1
    rw [Bool.eq_iff_iff, all_eq_true, all_eq_true]
    exact forall_congr' fun b => forall_congr' fun hb => by
      rw [same x (mem_cons_self ..) b (mem_cons_of_mem _ hb)]

theorem all_congr {α : Type} {f g : α → Bool} {l : List α} (same : ∀ a ∈ l, f a = g a) : l.all f = l.all g := by
  rw [Bool.eq_iff_iff, all_eq_true, all_eq_true]
  exact forall_congr' fun a => forall_congr' fun ha => by rw [same a ha]

theorem cmpTest_of_setTest {v : SemVer} {x : CompSet} (ok : setTest v x = true) : ∀ c ∈ x, cmpTest v c = true := by
  unfold setTest at ok
  by_cases all : ¬ x.all (cmpTest v)
  · rw [if_pos all] at ok
    contradiction
  · exact all_eq_true.mp (not_not.mp all)

theorem svSetsIntersect_shared {v : SemVer} {x y : CompSet} (okX : setTest v x = true) (okY : setTest v y = true) :
    svSetsIntersect x y = NoClash x y := by
  have testX := cmpTest_of_setTest okX
  have testY := cmpTest_of_setTest okY
  unfold svSetsIntersect NoClash
  rw [allPairs_congr fun a ha b hb => svCompIntersects_iff (testX a ha) (testX b hb),
    allPairs_congr fun a ha b hb => svCompIntersects_iff (testY a ha) (testY b hb),
    all_congr fun a ha => all_congr fun b hb => svCompIntersects_iff (testX a ha) (testY b hb)]

theorem all_comm {α β : Type} (f : α → β → Bool) (l : List α) (k : List β) :
    (l.all fun a => k.all (f a)) = k.all fun b => l.all fun a => f a b := by
  rw [Bool.eq_iff_iff]
  simp only [all_eq_true]
  exact ⟨fun h b hb a ha => h a ha b hb, fun h a ha b hb => h b hb a ha⟩

theorem svSetsIntersect_comm : svSetsIntersect x y = svSetsIntersect y x := by
  unfold svSetsIntersect
  rw [all_comm, and_comm (allPairs svCompIntersects x)]
  congr 1
  exact all_congr fun b _ => all_congr fun a _ => svCompIntersects_comm a b

theorem svRangeIntersects_iff {ra rb : Range} :
    svRangeIntersects ra rb = true ↔ ∃ x ∈ ra, ∃ y ∈ rb, svSetsIntersect x y = true := by
  rw [svRangeIntersects, any_eq_true]
  simp only [any_eq_true]

/-- The ranges are said to intersect in either order. Two sets that a version satisfies are said to
intersect exactly if nothing in them clashes, and ranges with two such sets are. -/
theorem intersects_of_no_clash (ra rb : Range) : svRangeIntersects ra rb = svRangeIntersects rb ra ∧
    ∀ v, ∀ x ∈ ra, ∀ y ∈ rb, setTest v x = true → setTest v y = true →
      svSetsIntersect x y = NoClash x y ∧ (NoClash x y = true → svRangeIntersects ra rb = true) := by
  refine ⟨?_, fun v x hx y hy okX okY => ?_⟩
  · rw [Bool.eq_iff_iff, svRangeIntersects_iff, svRangeIntersects_iff]
    constructor
    · rintro ⟨x, hx, y, hy, meet⟩
      exact ⟨y, hy, x, hx, by rw [svSetsIntersect_comm, meet]⟩
    · rintro ⟨y, hy, x, hx, meet⟩
      exact ⟨x, hx, y, hy, by rw [svSetsIntersect_comm, meet]⟩
  · have same := svSetsIntersect_shared okX okY
    exact ⟨same, fun free => svRangeIntersects_iff.mpr ⟨x, hx, y, hy, same.trans free⟩⟩

/-- `>=1.2.3-a <2.0.0` and `<1.2.3-c` are satisfied by `1.2.3-b`. -/
theorem intersects_of_no_clash_pre :
    svRangeIntersects [[⟨.gte, ⟨1, 2, 3, [⟨[97], false⟩], []⟩⟩, ⟨.lt, ⟨2, 0, 0, [], []⟩⟩]]
      [[⟨.lt, ⟨1, 2, 3, [⟨[99], false⟩], []⟩⟩]] = true :=
  ((intersects_of_no_clash _ _).2 ⟨1, 2, 3, [⟨[98], false⟩], []⟩ _ mem_cons_self _ mem_cons_self
    (by decide +kernel) (by decide +kernel)).2 (by decide +kernel)

/-- `>=1.0.0 1.2.3-a` is satisfied by `1.2.3-a` and does not intersect itself. -/
theorem range_misses_itself :
    ∃ r v, parseRange [62, 61, 49, 46, 48, 46, 48, 32, 49, 46, 50, 46, 51, 45, 97] = some r ∧
      semverParse [49, 46, 50, 46, 51, 45, 97] = some v ∧ rangeTest v r = true ∧ svRangeIntersects r r = false := by
  refine ⟨[[⟨.gte, ⟨1, 0, 0, [], []⟩⟩, ⟨.eq, ⟨1, 2, 3, [⟨[97], false⟩], []⟩⟩]], ⟨1, 2, 3, [⟨[97], false⟩], []⟩, ?_⟩
  decide +kernel

end DynaJS.Semver
