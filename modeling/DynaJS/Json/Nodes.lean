import DynaJS.Json.Path

/-! Which values a query selects: those below the document, unless it applies a name to an array that
has it. -/
namespace DynaJS.Json

open Relation List Option

section Applied

variable (jpCompare : CmpOp → Option JsVal → Option JsVal → Bool) (root : JsVal)

/-- The names that a singular path applies, each with the value it is applied to. -/
def pathApplied (v : JsVal) : List (JsAtom ⊕ Int) → List (JsVal × JsAtom)
  | [] => []
  | .inl a :: rest => (v, a) :: (jpOwn v a).elim [] (pathApplied · rest)
  | .inr i :: rest => (jpIndex v i).elim [] (pathApplied · rest)

def operandApplied (cur : JsVal) : Operand → List (JsVal × JsAtom)
  | .path p => pathApplied (if p.root then root else cur) p.sels
  | .literal _ => []

/-- The second side of `||` and `&&` is looked at only where the first leaves it open. -/
def filterApplied (cur : JsVal) : Filter → List (JsVal × JsAtom)
  | .or a b => filterApplied cur a ++ if jpFilter jpCompare root cur a then [] else filterApplied cur b
  | .and a b => filterApplied cur a ++ if jpFilter jpCompare root cur a then filterApplied cur b else []
  | .not a => filterApplied cur a
  | .cmp _ a b => operandApplied root cur a ++ operandApplied root cur b
  | .path p => operandApplied root cur (.path p)

def selApplied (v : JsVal) : Sel → List (JsVal × JsAtom)
  | .name a => [(v, a)]
  | .filter f => (jpChildren v).flatMap (filterApplied jpCompare root · f)
  | _ => []

/-- The selectors that a run applies, each with the node it is applied to. -/
def jpPairs : List Seg → List JsVal → Nat → List (JsVal × Sel)
  | [], _, _ => []
  | seg :: segs, cur, nn =>
    match jpOrigin seg cur nn with
    | none => []
    | some (origin, nn) =>
      let pairs := origin.flatMap fun v => seg.sels.map (v, ·)
      pairs ++ (jpSelect jpCompare false root pairs nn).elim [] fun r => jpPairs segs r.1 r.2

/-- The names that a run applies, in its segments and in its filters. -/
def jpApplied (segs : List Seg) : List (JsVal × JsAtom) :=
  (jpPairs jpCompare root segs [root] 1).flatMap fun p => selApplied jpCompare root p.1 p.2

end Applied

def elements (vs : List JsVal) : List (JsAtom × Bool × Option JsVal) := vs.mapIdx fun i v => (.index i, true, some v)

inductive IsJson : JsVal → Prop
  | null : IsJson .null
  | bool (b : Bool) : IsJson (.bool b)
  | int (n : Int32) : IsJson (.int n)
  | float (d : Engine.Double) : IsJson (.float d)
  | string (ptr : UInt64) (s : Engine.JsString) : IsJson (.string ptr s)
  | object {ptr : UInt64} {props : List (JsAtom × Bool × Option JsVal)}
    (data : ∀ p ∈ props, p.2.1 = true ∧ p.2.2 ≠ none)
    (members : ∀ a v, (a, true, some v) ∈ props → IsJson v) : IsJson (.object ptr props)
  | array {ptr : UInt64} {vs : List JsVal} (short : vs.length < 2 ^ 32) (each : ∀ v ∈ vs, IsJson v) :
    IsJson (.array ptr vs.length (elements vs))

/-- An element at an index below the length, or a member of an object that is not an array. -/
inductive Step : JsVal → JsVal → Prop
  | element {ptr : UInt64} {n i : Nat} {props : List (JsAtom × Bool × Option JsVal)} {e : Bool} {v : JsVal}
    (inside : i < n) (here : (.index i, e, some v) ∈ props) : Step (.array ptr n props) v
  | member {ptr : UInt64} {props : List (JsAtom × Bool × Option JsVal)} {a : JsAtom} {e : Bool} {v : JsVal}
    (here : (a, e, some v) ∈ props) : Step (.object ptr props) v

/-- If `v` is an array, `a` is neither `length` nor the text of an index below its length. -/
def Foreign (v : JsVal) (a : JsAtom) : Prop :=
  ∀ ptr n props, v = .array ptr n props → a ≠ lengthAtom ∧ ∀ i < n, a ≠ .index i

section Steps

variable {v w : JsVal}

theorem mem_elements {vs : List JsVal} {a : JsAtom} {e : Bool} {x : Option JsVal} :
    (a, e, x) ∈ elements vs ↔ ∃ i v, vs[i]? = some v ∧ a = .index i ∧ e = true ∧ x = some v := by
  rw [elements, mem_mapIdx]
  constructor
  · rintro ⟨i, inside, same⟩
    obtain ⟨rfl, rfl, rfl⟩ := by simpa using same
    exact ⟨i, _, getElem?_eq_getElem inside, rfl, rfl, rfl⟩
  · rintro ⟨i, v, there, rfl, rfl, rfl⟩
    obtain ⟨inside, rfl⟩ := List.getElem?_eq_some_iff.mp there
    exact ⟨i, inside, rfl⟩

theorem IsJson.step (json : IsJson v) (step : Step v w) : IsJson w := by
  cases step with
  | element inside here =>
    cases json with
    | array _ each =>
      obtain ⟨i, v, there, -, -, same⟩ := mem_elements.mp here
      cases same
      exact each _ (mem_of_getElem? there)
  | member here =>
    cases json with
    | object data members =>
      obtain rfl := (data _ here).1
      exact members _ _ here

theorem own_mem {props : List (JsAtom × Bool × Option JsVal)} {a : JsAtom}
    (found : (props.find? (·.1 = a)).bind (·.2.2) = some w) : ∃ e, (a, e, some w) ∈ props := by
  obtain ⟨⟨b, e, x⟩, first, rfl⟩ := bind_eq_some_iff.mp found
  obtain rfl : b = a := by simpa using find?_some first
  exact ⟨e, mem_of_find?_eq_some first⟩

/-- An own property is the length of an array or one step away. -/
theorem own_cases {a : JsAtom} (json : IsJson v) (found : jpOwn v a = some w) :
    Step v w ∨ a = lengthAtom ∧ IsJson w := by
  cases json with
  | object data members =>
    obtain ⟨e, here⟩ := own_mem found
    exact .inl (.member here)
  | array short each =>
    by_cases length : a = lengthAtom
    · rw [jpOwn, if_pos length] at found
      obtain rfl := some.inj found
      refine .inr ⟨length, ?_⟩
      split
      · exact .int _
      · exact .float _
    · rw [jpOwn, if_neg length] at found
      obtain ⟨e, here⟩ := own_mem found
      obtain ⟨i, u, there, rfl, -⟩ := mem_elements.mp here
      exact .inl (.element (List.getElem?_eq_some_iff.mp there).1 here)
  | _ => contradiction

theorem IsJson.own {a : JsAtom} (json : IsJson v) (found : jpOwn v a = some w) : IsJson w :=
  (own_cases json found).elim json.step And.right

/-- An array has exactly its length and its elements. -/
theorem own_array {ptr : UInt64} {n : Nat} {props : List (JsAtom × Bool × Option JsVal)} {a : JsAtom}
    (json : IsJson (.array ptr n props)) :
    jpOwn (.array ptr n props) a = none ↔ a ≠ lengthAtom ∧ ∀ i < n, a ≠ .index i := by
  cases json with
  | @array _ vs short each =>
    by_cases length : a = lengthAtom
    · rw [jpOwn, if_pos length]
      exact iff_of_false (some_ne_none _) fun other => other.1 length
    · rw [jpOwn, if_neg length, and_iff_right length, bind_eq_none_iff]
      constructor
      · rintro none i inside rfl
        have there : (JsAtom.index i, true, some vs[i]) ∈ elements vs :=
          mem_elements.mpr ⟨i, _, getElem?_eq_getElem inside, rfl, rfl, rfl⟩
        obtain ⟨⟨b, e, x⟩, first⟩ := isSome_iff_exists.mp
          (find?_isSome.mpr ⟨_, there, by simp⟩ : ((elements vs).find? (·.1 = .index i)).isSome)
        obtain ⟨-, u, -, -, -, rfl⟩ := mem_elements.mp (mem_of_find?_eq_some first)
        exact some_ne_none u (none _ first)
      · rintro other ⟨b, e, x⟩ first
        obtain ⟨i, u, there, rfl, -⟩ := mem_elements.mp (mem_of_find?_eq_some first)
        exact absurd (by simpa using (find?_some first)) (other i (List.getElem?_eq_some_iff.mp there).1).symm

theorem step_own {a : JsAtom} (json : IsJson v) (foreign : Foreign v a) (found : jpOwn v a = some w) : Step v w := by
  rcases own_cases json found with step | ⟨rfl, -⟩
  · exact step
  · cases json with
    | array => exact absurd rfl (foreign _ _ _ rfl).1
    | object data members =>
      obtain ⟨e, here⟩ := own_mem found
      exact .member here
    | _ => contradiction

theorem step_index {i : Int} (found : jpIndex v i = some w) : Step v w := by
  unfold jpIndex at found
  rw [ite_none_right_eq_some] at found
  obtain ⟨⟨known, low, high⟩, found⟩ := found
  generalize (if i < 0 then i + jpLen v else i) = i at *
  cases v with
  | array ptr n props =>
    obtain ⟨e, here⟩ := own_mem found
    exact .element (by simp only [jpLen] at high; omega) here
  | _ => simp [jpLen] at known

theorem step_child (json : IsJson v) (member : w ∈ jpChildren v) : Step v w := by
  cases json with
  | object data members =>
    obtain ⟨⟨a, e, x⟩, here, same⟩ := mem_filterMap.mp member
    obtain ⟨rfl, rfl⟩ : e = true ∧ x = some w := by simpa using same
    exact .member here
  | array short each =>
    obtain ⟨⟨a, e, x⟩, here, same⟩ := mem_filterMap.mp member
    obtain ⟨i, u, there, rfl, rfl, rfl⟩ := mem_elements.mp here
    cases same
    exact .element (List.getElem?_eq_some_iff.mp there).1 here
  | _ => contradiction

/-- A selector leads a step down, a name unless it is the length of an array. -/
theorem node_cases {s : Sel} (json : IsJson v) (member : w ∈ jpNodes v s) :
    Step v w ∨ ∃ a, s = .name a ∧ jpOwn v a = some w := by
  cases s with
  | name a => exact .inr ⟨a, rfl, mem_toList.mp member⟩
  | index i => exact .inl (step_index (mem_toList.mp member))
  | wild | filter => exact .inl (step_child json member)
  | slice start stop step =>
    cases v with
    | array ptr n props =>
      obtain ⟨i, -, found⟩ := mem_filterMap.mp member
      exact .inl (step_index found)
    | _ => contradiction

end Steps

section Run

variable {P : JsVal → Prop} {nn last : Nat} {out : List JsVal}
variable {jpCompare : CmpOp → Option JsVal → Option JsVal → Bool} {root : JsVal}

theorem jpDescend_keeps (children : ∀ v, P v → ∀ w ∈ jpChildren v, P w) {stack : List JsVal}
    (ran : jpDescend stack nn = some (out, last)) (all : ∀ v ∈ stack, P v) : ∀ v ∈ out, P v := by
  fun_induction jpDescend stack nn generalizing out with
  | case1 nn =>
    obtain ⟨rfl, -⟩ := by simpa using ran
    exact all
  | case2 nn v stack room ih =>
    obtain ⟨l, more, rfl⟩ := by simpa using ran
    obtain ⟨first, rest⟩ := forall_mem_cons.mp all
    refine forall_mem_cons.mpr ⟨first, ih more fun w member => ?_⟩
    exact (mem_append.mp member).elim (children v first w) (rest w)
  | case3 => simp at ran

theorem selected_nodes {v : JsVal} {s : Sel} {w : JsVal} (taken : w ∈ jpSelected jpCompare root v s) :
    w ∈ jpNodes v s := by
  cases s with
  | filter f => exact mem_of_mem_filter taken
  | _ => exact taken

theorem jpSelect_keeps {pairs : List (JsVal × Sel)} (ran : jpSelect jpCompare false root pairs nn = some (out, last))
    (nodes : ∀ p ∈ pairs, ∀ w ∈ jpNodes p.1 p.2, P w) : ∀ v ∈ out, P v := by
  induction pairs generalizing out nn with
  | nil => simp_all [jpSelect]
  | cons pair pairs ih =>
    obtain ⟨here, later⟩ := forall_mem_cons.mp nodes
    simp only [jpSelect, ite_none_right_eq_some] at ran
    obtain ⟨-, ran⟩ := ran
    obtain ⟨l, more, rfl⟩ := by simpa using ran
    exact forall_mem_append.mpr ⟨fun v taken => here v (selected_nodes taken), ih more later⟩

theorem jpPairs_nil (segs : List Seg) : jpPairs jpCompare root segs [] nn = [] := by
  induction segs generalizing nn with
  | nil => rfl
  | cons seg segs ih =>
    have start : jpOrigin seg [] nn = some ([], nn) := by simp [jpOrigin, jpDescend]
    simp [jpPairs, start, jpSelect, ih]

/-- The rule for runs: what holds of the nodes it starts from and passes on to what its selectors make
of them holds of all nodes it applies selectors to and of all that is selected. -/
theorem jpSegs_keeps {segs : List Seg} {cur : List JsVal} (children : ∀ v, P v → ∀ w ∈ jpChildren v, P w)
    (nodes : ∀ p ∈ jpPairs jpCompare root segs cur nn, P p.1 → ∀ w ∈ jpNodes p.1 p.2, P w)
    (ran : jpSegs jpCompare false root segs cur nn = some out) (all : ∀ v ∈ cur, P v) :
    (∀ p ∈ jpPairs jpCompare root segs cur nn, P p.1) ∧ ∀ v ∈ out, P v := by
  induction segs generalizing cur nn with
  | nil =>
    obtain rfl := some.inj ran
    exact ⟨forall_mem_nil _, all⟩
  | cons seg segs ih =>
    obtain ⟨origin, n, taken, n', start, select, rest⟩ := jpSegs_cons.mp ran
    have origins : ∀ v ∈ origin, P v := by
      unfold jpOrigin at start
      split at start
      · exact jpDescend_keeps children start all
      · obtain ⟨rfl, -⟩ := by simpa using start
        exact all
    simp only [jpPairs, start, select, elim_some, forall_mem_append] at nodes ⊢
    obtain ⟨here, later⟩ := nodes
    have pairs : ∀ p ∈ origin.flatMap (fun v => seg.sels.map (v, ·)), P p.1 := by
      intro p member
      obtain ⟨v, inside, paired⟩ := mem_flatMap.mp member
      obtain ⟨s, used, rfl⟩ := mem_map.mp paired
      exact origins v inside
    have selected := jpSelect_keeps select fun p member => here p member (pairs p member)
    split at rest
    · rename_i empty
      obtain rfl := some.inj rest
      rw [isEmpty_iff.mp empty, jpPairs_nil]
      exact ⟨⟨pairs, forall_mem_nil _⟩, forall_mem_nil _⟩
    · obtain ⟨more, result⟩ := ih later rest selected
      exact ⟨⟨pairs, more⟩, result⟩

theorem pathApplied_json {v : JsVal} {sels : List (JsAtom ⊕ Int)} (json : IsJson v) :
    ∀ p ∈ pathApplied v sels, IsJson p.1 := by
  induction sels generalizing v with
  | nil => exact forall_mem_nil _
  | cons s sels ih =>
    have rest {found : Option JsVal} (keeps : ∀ w, found = some w → IsJson w) :
        ∀ p ∈ found.elim [] (pathApplied · sels), IsJson p.1 := by
      cases found with
      | none => exact forall_mem_nil _
      | some w => exact ih (keeps w rfl)
    cases s with
    | inl a => exact forall_mem_cons.mpr ⟨json, rest fun w found => json.own found⟩
    | inr i => exact rest fun w found => json.step (step_index found)

theorem filterApplied_json {cur : JsVal} (whole : IsJson root) (json : IsJson cur) (f : Filter) :
    ∀ p ∈ filterApplied jpCompare root cur f, IsJson p.1 := by
  have operand (x : Operand) : ∀ p ∈ operandApplied root cur x, IsJson p.1 := by
    cases x with
    | literal => exact forall_mem_nil _
    | path q =>
      refine pathApplied_json ?_
      split
      · exact whole
      · exact json
  induction f with
  | or a b one two | and a b one two =>
    refine forall_mem_append.mpr ⟨one, fun p member => ?_⟩
    split at member
    · first | exact two p member | contradiction
    · first | exact two p member | contradiction
  | not a one => exact one
  | cmp op a b => exact forall_mem_append.mpr ⟨operand a, operand b⟩
  | path q => exact operand (.path q)

theorem selApplied_json {v : JsVal} (whole : IsJson root) (json : IsJson v) (s : Sel) :
    ∀ p ∈ selApplied jpCompare root v s, IsJson p.1 := by
  cases s with
  | name a => exact forall_mem_singleton.mpr json
  | filter f =>
    intro p member
    obtain ⟨u, child, applied⟩ := mem_flatMap.mp member
    exact filterApplied_json whole (json.step (step_child json child)) f p applied
  | _ => exact forall_mem_nil _

end Run

/-- All that a query selects are nodes of the document, and the names it applies to arrays select nothing,
exactly if it applies to no array a name that the array has. -/
theorem selects_nodes_iff (jpCompare : CmpOp → Option JsVal → Option JsVal → Bool) (segs : List Seg) (v : JsVal)
    (json : IsJson v) (out : List JsVal) (ran : jpAll jpCompare segs v = some out) :
    ((∀ r ∈ out, ReflTransGen Step v r) ∧ ∀ p ∈ jpApplied jpCompare v segs, ∀ ptr n props,
        p.1 = .array ptr n props → jpNodes p.1 (.name p.2) = []) ↔
      ∀ p ∈ jpApplied jpCompare v segs, Foreign p.1 p.2 := by
  have child (u : JsVal) (here : IsJson u) (w : JsVal) (below : w ∈ jpChildren u) := here.step (step_child here below)
  have applied : ∀ p ∈ jpApplied jpCompare v segs, IsJson p.1 := by
    intro p member
    obtain ⟨pair, used, name⟩ := mem_flatMap.mp member
    refine selApplied_json json ((jpSegs_keeps child (fun q _ here w taken => ?_) ran ?_).1 pair used) _ p name
    · rcases node_cases here taken with step | ⟨a, -, found⟩
      · exact here.step step
      · exact here.own found
    · exact forall_mem_singleton.mpr json
  have empty {u : JsVal} {a : JsAtom} (here : IsJson u) :
      (∀ ptr n props, u = .array ptr n props → jpNodes u (.name a) = []) ↔ Foreign u a := by
    refine forall_congr' fun ptr => forall_congr' fun n => forall_congr' fun props => forall_congr' fun same => ?_
    subst same
    rw [jpNodes, toList_eq_nil_iff, own_array here]
  rw [and_iff_right_of_imp, forall₂_congr fun p member => empty (applied p member)]
  intro none r selected
  let Node w : Prop := IsJson w ∧ ReflTransGen Step v w
  have grow {u w : JsVal} (node : Node u) step : Node w := ⟨node.1.step step, node.2.tail step⟩
  refine ((jpSegs_keeps (P := Node) (fun u node w below => grow node (step_child node.1 below))
    (fun p used node w taken => ?_) ran ?_).2 r selected).2
  · rcases node_cases node.1 taken with step | ⟨a, name, found⟩
    · exact grow node step
    · have here : (p.1, a) ∈ jpApplied jpCompare v segs :=
        mem_flatMap.mpr ⟨p, used, by rw [name]; exact mem_singleton.mpr rfl⟩
      exact grow node (step_own node.1 ((empty node.1).mp (none _ here)) found)
  · exact forall_mem_singleton.mpr ⟨json, .refl⟩

/-- `$.length` selects the member of an object that has one. -/
theorem selects_nodes_member :
    let v : JsVal := .object 16 [(lengthAtom, true, some .null)]
    jpAll (fun _ _ _ => true) [⟨false, [.name lengthAtom]⟩] v = some [.null] ∧ ReflTransGen Step v .null := by
  intro v
  have json : IsJson v := .object (by simp) (by simp [IsJson.null])
  have ran : jpAll (fun _ _ _ => true) [⟨false, [.name lengthAtom]⟩] v = some [.null] := by
    simp [v, jpAll, jpRun, jpSegs, jpOrigin, jpSelect, jpSelected, jpNodes, jpOwn, jpMaxNodes]
  refine ⟨ran, ((selects_nodes_iff _ _ v json _ ran).mpr ?_).1 .null (mem_singleton.mpr rfl)⟩
  simp [jpApplied, jpPairs, jpOrigin, jpSelect, selApplied, jpSelected, jpNodes, jpOwn, jpMaxNodes, Foreign, v]

/-- `$.length` selects the length of an empty array, which is not a node of it. -/
theorem length_selected : IsJson (.array 16 0 []) ∧
    (∀ jpCompare, jpAll jpCompare [⟨false, [.name lengthAtom]⟩] (.array 16 0 []) = some [.int 0]) ∧
      ¬ ReflTransGen Step (.array 16 0 []) (.int 0) := by
  refine ⟨@IsJson.array 16 [] (by simp) (by simp), ?_, fun reached => ?_⟩
  · intro jpCompare
    simp [jpAll, jpRun, jpSegs, jpOrigin, jpSelect, jpSelected, jpNodes, jpOwn, jpMaxNodes]
  · obtain same | ⟨w, step, -⟩ := reached.cases_head
    · contradiction
    · cases step with
      | element inside here => exact absurd here not_mem_nil

end DynaJS.Json
