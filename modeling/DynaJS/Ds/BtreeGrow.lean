import DynaJS.Ds.BtreeSplit

/-! The whole of `btree_split`: hooking the new node in, and the loop up the tree. -/
namespace DynaJS.Ds

open List Nat

open Function (update update_of_ne update_self)
open DynaJS.Chain DynaJS.Search

variable {K V : Type} [LinearOrder K] {t t' : Btree K V} {g g' : Ghost K} {nd right : Nat} {up : K}

section Separators

omit [LinearOrder K]

variable {keys : List K} {j : Nat}

theorem lowSep_insert (inside : j ≤ keys.length) (up : K) (lo : Option K) (i : Nat) :
    lowSep (keys.take j ++ up :: keys.drop j) lo i =
      if i ≤ j then lowSep keys lo i else if i = j + 1 then some up else lowSep keys lo (i - 1) := by
  unfold lowSep
  rw [getElem?_insert inside]
  split_ifs <;> first | rfl | omega

theorem highSep_insert (inside : j ≤ keys.length) (up : K) (hi : Option K) (i : Nat) :
    highSep (keys.take j ++ up :: keys.drop j) hi i =
      if i < j then highSep keys hi i else if i = j then some up else highSep keys hi (i - 1) := by
  unfold highSep
  rw [getElem?_insert inside]
  split_ifs <;> rfl

end Separators

section Parents

variable {top : Nat → Option K} {loose full : Option Nat} (shape : Shape t g top loose full) {a : Nat}
  (live : a ∈ g.live) (hooked : loose ≠ some a)
include shape live hooked

theorem Shape.parent {p : Nat} (parent : t.parent a = some p) : p ∈ g.live ∧ t.leaf p = false ∧ a ∈ t.kids p := by
  have notRoot : a ≠ t.root := fun same => by
    rw [same, shape.root.2.1] at parent
    contradiction
  obtain ⟨q, here, kind, same, member⟩ := shape.up a live notRoot hooked
  cases same.symm.trans parent
  exact ⟨here, kind, member⟩

theorem Shape.top_eq (parent : t.parent a = none) : a = t.root := by
  by_contra notRoot
  obtain ⟨q, _, _, same, _⟩ := shape.up a live notRoot hooked
  rw [parent] at same
  contradiction

end Parents

section Hook

variable {p j : Nat}

section

variable (pending : Pending t g nd right up)
include pending

theorem Pending.place (inner : Inner t g (update g.hi nd (g.hi right)) p) (here : (t.kids p)[j]? = some nd) :
    Cut (t.keys p) up j ∧ up ∉ t.keys p := by
  have kid := inner.kid j nd here
  have low := pending.below
  have high := pending.above
  rw [kid.lo] at low
  rw [← update_self nd (g.hi right) g.hi, kid.top] at high
  obtain ⟨bound, _⟩ := List.getElem?_eq_some_iff.mp here
  rw [inner.size] at bound
  have before : ∀ x ∈ (t.keys p).take j, x < up := fun x member => by
    obtain ⟨i, lt, rfl⟩ := mem_take_iff_getElem.mp member
    have last : (t.keys p)[j - 1]? = some (t.keys p)[j - 1] := getElem?_eq_getElem (by omega)
    have less := low _ (by rw [lowSep, if_neg (by omega)]; exact last)
    rcases lt_or_eq_of_le (by omega : i ≤ j - 1) with lt | rfl
    · exact (pairwise_iff_getElem.mp inner.sorted i (j - 1) (by omega) (by omega) lt).trans less
    · exact less
  have behind : ∀ x ∈ (t.keys p).drop j, up < x := fun x member => by
    obtain ⟨i, lt, rfl⟩ := mem_drop_iff_getElem.mp member
    have first : (t.keys p)[j]? = some (t.keys p)[j] := getElem?_eq_getElem (by omega)
    have more := high _ (by rw [highSep, first]; rfl)
    rcases Nat.eq_zero_or_pos i with rfl | positive
    · simpa using more
    · exact more.trans (pairwise_iff_getElem.mp inner.sorted j (j + i) (by omega) (by omega) (by omega))
  refine ⟨⟨by omega, before, fun x member => (behind x member).le⟩, fun member => ?_⟩
  rw [← take_append_drop j (t.keys p)] at member
  rcases mem_append.mp member with member | member
  · exact lt_irrefl up (before up member)
  · exact lt_irrefl up (behind up member)

theorem Pending.hook_inner (live : p ∈ g.live) (kind : t.leaf p = false) (here : (t.kids p)[j]? = some nd) :
    Inner (btreeInsInternal t p j up right) g g.hi p := by
  set t' := btreeInsInternal t p j up right
  have inner := pending.shape.inner p live kind
  obtain ⟨cut, absent⟩ := pending.place inner here
  have kid := inner.kid j nd here
  obtain ⟨bound, _⟩ := List.getElem?_eq_some_iff.mp here
  have size := inner.size
  have keys : t'.keys p = (t.keys p).take j ++ up :: (t.keys p).drop j :=
    update_self ..
  have kids : t'.kids p =
      (t.kids p).take (j + 1) ++ right :: (t.kids p).drop (j + 1) := update_self ..
  have mem : ∀ x ∈ (t.keys p).take j ++ up :: (t.keys p).drop j, x = up ∨ x ∈ t.keys p := fun x member => by
    rw [← take_append_drop j (t.keys p)]
    simp only [mem_append, mem_cons] at member ⊢
    tauto
  have parent : ∀ b, b ≠ right → t'.parent b = t.parent b :=
    fun b other => update_of_ne other ..
  have notRight : ∀ b ∈ t.kids p, b ≠ right := fun b member same =>
    pending.unhooked p live kind (same ▸ member)
  refine ⟨?_, ?_, ?_, ?_, fun i b there => ?_⟩
  · rw [keys]
    exact cut.insert_sorted inner.sorted absent
  · rw [keys]
    intro x member s low
    rcases mem x member with rfl | old
    · have bottom := kid.lo
      rw [lowSep] at bottom
      split_ifs at bottom with zero
      · exact pending.below s (bottom ▸ low)
      · obtain ⟨y, there⟩ : ∃ y, (t.keys p)[j - 1]? = some y := ⟨_, getElem?_eq_getElem (by omega)⟩
        exact (inner.below y (mem_of_getElem? there) s low).trans (pending.below y (bottom.trans there))
    · exact inner.below x old s low
  · rw [keys]
    intro x member s high
    rcases mem x member with rfl | old
    · have top := kid.top
      rw [update_self, highSep] at top
      cases there : (t.keys p)[j]? with
      | none =>
        rw [there] at top
        exact pending.above s (top ▸ high)
      | some y =>
        rw [there] at top
        exact (pending.above y top).trans (inner.above y (mem_of_getElem? there) s high)
    · exact inner.above x old s high
  · rw [keys, kids]
    simp only [length_append, length_cons, length_take, length_drop]
    omega
  · rw [kids, getElem?_insert (by omega)] at there
    -- Kids up to the cut node keep their place, the new one follows, the others move up.
    have old : ∀ m, (t.kids p)[m]? = some b → m ≠ j →
        lowSep (t'.keys p) (g.lo p) i = lowSep (t.keys p) (g.lo p) m →
        highSep (t'.keys p) (g.hi p) i = highSep (t.keys p) (g.hi p) m →
        Kid t' g g.hi p i b := fun m there other lo hi => by
      have apart : b ≠ nd := fun same => other (inner.kid_inj (same ▸ there) here)
      have kid := inner.kid m b there
      exact ⟨kid.live, (parent b (notRight b (mem_of_getElem? there))).trans kid.parent, kid.lvl,
        kid.lo.trans lo.symm, (update_of_ne apart ..).symm.trans (kid.top.trans hi.symm)⟩
    have lo := lowSep_insert cut.inside up (g.lo p) i
    have hi := highSep_insert cut.inside up (g.hi p) i
    rw [← keys] at lo hi
    rcases lt_trichotomy i j with before | rfl | behind
    · rw [if_pos (by omega)] at there
      rw [if_pos before.le] at lo
      rw [if_pos before] at hi
      exact old i there (by omega) lo hi
    · rw [if_pos (by omega), here] at there
      cases there
      rw [if_pos (le_refl i)] at lo
      rw [if_neg (lt_irrefl i), if_pos rfl] at hi
      exact ⟨kid.live, (parent nd pending.ne.symm).trans kid.parent, kid.lvl, kid.lo.trans lo.symm,
        pending.cut.1.trans hi.symm⟩
    · rw [if_neg (by omega)] at there
      rw [if_neg (by omega)] at lo
      rw [if_neg (by omega), if_neg (by omega)] at hi
      by_cases next : i = j + 1
      · subst next
        rw [if_pos rfl] at there lo
        cases there
        refine ⟨pending.live.2, update_self .., ?_, pending.cut.2.trans lo.symm, ?_⟩
        · rw [pending.lvl]
          exact kid.lvl
        · rw [hi, Nat.add_sub_cancel, ← kid.top, update_self]
      · rw [if_neg next] at there lo
        exact old (i - 1) there (by omega) lo hi

theorem Pending.notLoose : some right ≠ some nd := fun same => pending.ne (Option.some.inj same)

theorem Pending.parent (parent : t.parent nd = some p) :
    p ∈ g.live ∧ t.leaf p = false ∧ ∃ j : Nat, (t.kids p)[j]? = some nd := by
  obtain ⟨live, kind, hooked⟩ := pending.shape.parent pending.live.1 pending.notLoose parent
  exact ⟨live, kind, getElem?_of_mem hooked⟩

/-- The kids of other nodes are neither half of the cut node. -/
theorem Pending.kid_apart {a b : Nat} (live : a ∈ g.live) (kind : t.leaf a = false) (other : t.parent nd ≠ some a)
    (member : b ∈ t.kids a) : b ≠ right ∧ b ≠ nd := by
  refine ⟨fun same => pending.unhooked a live kind (same ▸ member), ?_⟩
  rintro rfl
  obtain ⟨i, there⟩ := getElem?_of_mem member
  exact other ((pending.shape.inner a live kind).kid i b there).parent

theorem Pending.hook (parent : t.parent nd = some p) :
    Shape (btreeInsInternal t p (btreeLower (t.keys p) up) up right) g g.hi none (some p) ∧
      (btreeInsInternal t p (btreeLower (t.keys p) up) up right).n p = t.n p + 1 := by
  have shape := pending.shape
  obtain ⟨live, kind, j, here⟩ := pending.parent parent
  have inner := shape.inner p live kind
  have place := (pending.place inner here).1
  have same : btreeLower (t.keys p) up = j := (btreeLower_cut inner.sorted up).unique place
  rw [same]
  set t' := btreeInsInternal t p j up right
  have hooked := pending.hook_inner live kind here
  have otherKeys : ∀ a, a ≠ p → t'.keys a = t.keys a :=
    fun a other => update_of_ne other ..
  have otherKids : ∀ a, a ≠ p → t'.kids a = t.kids a :=
    fun a other => update_of_ne other ..
  have kids : t'.kids p =
      (t.kids p).take (j + 1) ++ right :: (t.kids p).drop (j + 1) := update_self ..
  have keys : t'.keys p = (t.keys p).take j ++ up :: (t.keys p).drop j :=
    update_self ..
  have length : (t'.keys p).length = (t.keys p).length + 1 := by
    rw [keys]
    simp only [length_append, length_cons, length_take, length_drop]
    omega
  have stays : ∀ b, b ≠ right → t'.parent b = t.parent b :=
    fun b other => update_of_ne other ..
  have grown : t'.n p = t.n p + 1 := by
    have leaf : t'.leaf p = false := kind
    simp only [Btree.n, Btree.keyArray, leaf, kind, Bool.false_eq_true, if_false, length]
  have notRoot : t.root ≠ right := fun same => by
    obtain ⟨_, high, low, _⟩ := shape.root
    rw [same, pending.cut.2] at low
    contradiction
  have top : g.hi t.root = none := by
    have high := shape.root.2.2.2
    rw [update_of_ne fun same => ?_] at high
    · exact high
    · rw [← same, shape.root.2.1] at parent
      contradiction
  refine ⟨⟨shape.chain.congr rfl ⟨rfl, rfl, rfl, rfl⟩ fun _ _ => ⟨rfl, rfl, rfl⟩, shape.leaves,
    ⟨shape.root.1, (stays _ notRoot).trans shape.root.2.1, shape.root.2.2.1, top⟩, shape.fresh, shape.depth,
    shape.ground, fun a inside notLeaf => ?_, fun a inside other _ => ?_, fun a inside => ?_,
    fun a inside notLeaf => ?_⟩, grown⟩
  · by_cases same : a = p
    · subst same
      exact hooked
    · have whole := shape.inner a inside notLeaf
      refine whole.congr (otherKeys a same) (otherKids a same) rfl rfl rfl fun b member => ?_
      obtain ⟨loose, apart⟩ := pending.kid_apart inside notLeaf (by simpa [parent] using Ne.symm same) member
      exact ⟨id, fun up => (stays b loose).trans up, rfl, rfl, (update_of_ne apart ..).symm⟩
  · by_cases new : a = right
    · subst new
      exact ⟨p, live, kind, update_self .., by rw [kids]; simp⟩
    · obtain ⟨q, here, notLeaf, up', member⟩ := shape.up a inside other fun same =>
        new (Option.some.inj same).symm
      refine ⟨q, here, notLeaf, (stays a new).trans up', ?_⟩
      by_cases same : q = p
      · subst same
        rw [← take_append_drop (j + 1) (t.kids q)] at member
        rw [kids]
        simp only [mem_append, mem_cons] at member ⊢
        tauto
      · rw [otherKids q same]
        exact member
  · by_cases same : a = p
    · subst same
      rw [grown]
      have few := shape.few_none inside
      by_cases last : t.n a + 1 = btreeOrder
      · exact .inr ⟨rfl, last⟩
      · exact .inl (by omega)
    · have kept : t'.n a = t.n a := n_congr rfl rfl (otherKeys a same)
      rw [kept]
      exact .inl (shape.few_none inside)
  · by_cases same : a = p
    · subst same
      have many := shape.many a inside kind
      rw [length]
      exact ⟨by omega, fun other => (many.2 other).trans (le_succ _)⟩
    · rw [otherKeys a same]
      exact shape.many a inside notLeaf

end

def Ghost.grow (g : Ghost K) (root nd : Nat) : Ghost K where
  live := insert root g.live
  lvl := update g.lvl root (g.lvl nd + 1)
  lo := update g.lo root none
  hi := update g.hi root none
  leaves := g.leaves

theorem Pending.newRoot (pending : Pending t g nd right up) (parent : t.parent nd = none) {root : Nat}
    (new : root ∉ g.live) (free : root < t.used) (depth : g.lvl nd + 1 < t.used) :
    Shape (splitRoot t root nd right up) (g.grow root nd) (g.grow root nd).hi none none := by
  set t' := splitRoot t root nd right up
  set g' := g.grow root nd
  have shape := pending.shape
  have chain := shape.chain
  have others : ∀ a ∈ g.live, a ≠ root := fun a inside same => new (same ▸ inside)
  have top := shape.top_eq pending.live.1 pending.notLoose parent
  have left := others nd pending.live.1
  have second := others right pending.live.2
  have leaf : ∀ a ∈ g.live, t'.leaf a = t.leaf a := fun a inside =>
    update_of_ne (others a inside) ..
  have keys : ∀ a ∈ g.live, t'.keys a = t.keys a := fun a inside =>
    update_of_ne (others a inside) ..
  have kids : ∀ a ∈ g.live, t'.kids a = t.kids a := fun a inside =>
    update_of_ne (others a inside) ..
  have stays : ∀ a ∈ g.live, a ≠ nd → a ≠ right → t'.parent a = t.parent a :=
    fun a inside one two => (update_of_ne two ..).trans
      ((update_of_ne one ..).trans (update_of_ne (others a inside) ..))
  have lvl : ∀ a ∈ g.live, g'.lvl a = g.lvl a := fun a inside => update_of_ne (others a inside) ..
  have lo : ∀ a ∈ g.live, g'.lo a = g.lo a := fun a inside => update_of_ne (others a inside) ..
  have hi : ∀ a ∈ g.live, g'.hi a = g.hi a := fun a inside => update_of_ne (others a inside) ..
  refine ⟨chain.congr rfl ⟨rfl, rfl, rfl, rfl⟩ fun a inside => ?_,
    fun a => ?_, ?_, Finset.forall_mem_insert _ _ _ |>.mpr ⟨free, shape.fresh⟩, lt_of_eq_of_lt (update_self ..) depth,
    fun a inside => ?_, fun a inside notLeaf => ?_, fun a inside notRoot _ => ?_, fun a inside => ?_,
    fun a inside notLeaf => ?_⟩
  · have live := ((shape.leaves a).mp inside).1
    exact ⟨leaf a live, lo a live, hi a live⟩
  · show a ∈ g.leaves ↔ a ∈ insert root g.live ∧ _
    rw [Finset.mem_insert, shape.leaves a]
    by_cases same : a = root
    · subst same
      simp [new, t', splitRoot]
    · simp only [same, false_or, t', splitRoot, update_of_ne same]
  · refine ⟨Finset.mem_insert_self _ _, ?_, update_self .., update_self ..⟩
    exact (update_of_ne second.symm ..).trans ((update_of_ne left.symm ..).trans (update_self ..))
  · rcases Finset.mem_insert.mp inside with rfl | old
    · simp [t', g', splitRoot, Ghost.grow]
    · rw [leaf a old, lvl a old]
      exact shape.ground a old
  · rcases Finset.mem_insert.mp inside with rfl | old
    · have rootKeys : t'.keys a = [up] := update_self ..
      have rootKids : t'.kids a = [nd, right] := update_self ..
      have low : g'.lo a = none := update_self ..
      have high : g'.hi a = none := update_self ..
      have height : g'.lvl a = g.lvl nd + 1 := update_self ..
      refine ⟨by simp [rootKeys], by simp [low], by simp [high], by simp [rootKeys, rootKids], fun i b there => ?_⟩
      rw [rootKids] at there
      match i with
      | 0 =>
        cases there
        refine ⟨Finset.mem_insert_of_mem pending.live.1, ?_, ?_, ?_, ?_⟩
        · exact (update_of_ne pending.ne.symm ..).trans (update_self ..)
        · rw [lvl nd pending.live.1, height]
        · rw [lo nd pending.live.1, low, top, shape.root.2.2.1]
          rfl
        · rw [hi nd pending.live.1, rootKeys, pending.cut.1]
          rfl
      | 1 =>
        cases there
        refine ⟨Finset.mem_insert_of_mem pending.live.2, update_self .., ?_, ?_, ?_⟩
        · rw [lvl right pending.live.2, height, pending.lvl]
        · rw [lo right pending.live.2, rootKeys, pending.cut.2]
          rfl
        · have whole := shape.root.2.2.2
          rw [← top, update_self] at whole
          rw [hi right pending.live.2, rootKeys, high, whole]
          rfl
      | i + 2 => simp at there
    · rw [leaf a old] at notLeaf
      have whole := shape.inner a old notLeaf
      refine whole.congr (keys a old) (kids a old) (lvl a old) (lo a old) (hi a old) fun b member => ?_
      have live := whole.kid_live member
      obtain ⟨loose, apart⟩ := pending.kid_apart old notLeaf (by simp [parent]) member
      exact ⟨Finset.mem_insert_of_mem, fun up => (stays b live apart loose).trans up, lvl b live, lo b live,
        (hi b live).trans (update_of_ne apart ..).symm⟩
  · rcases Finset.mem_insert.mp inside with rfl | old
    · exact absurd rfl notRoot
    · have rootKids : t'.kids root = [nd, right] := update_self ..
      have rootLeaf : t'.leaf root = false := update_self ..
      by_cases one : a = nd
      · refine ⟨root, Finset.mem_insert_self _ _, rootLeaf, ?_, by simp [rootKids, one]⟩
        rw [one]
        exact (update_of_ne pending.ne.symm ..).trans (update_self ..)
      · by_cases two : a = right
        · refine ⟨root, Finset.mem_insert_self _ _, rootLeaf, ?_, by simp [rootKids, two]⟩
          rw [two]
          exact update_self ..
        · obtain ⟨q, here, notLeaf, up', member⟩ := shape.up a old (top ▸ one) fun same =>
            two (Option.some.inj same).symm
          exact ⟨q, Finset.mem_insert_of_mem here, (leaf q here).trans notLeaf,
            (stays a old one two).trans up', (kids q here).symm ▸ member⟩
  · rcases Finset.mem_insert.mp inside with rfl | old
    · exact .inl (by simp [Btree.n, Btree.keyArray, t', splitRoot, btreeOrder])
    · rw [n_congr (leaf a old) rfl (keys a old)]
      exact .inl (shape.few_none old)
  · rcases Finset.mem_insert.mp inside with rfl | old
    · exact ⟨by simp [t', splitRoot], fun other => absurd rfl other⟩
    · rw [leaf a old] at notLeaf
      rw [keys a old]
      have many := shape.many a old notLeaf
      refine ⟨many.1, fun _ => ?_⟩
      by_cases one : a = nd
      · rw [one] at notLeaf ⊢
        exact pending.half notLeaf
      · exact many.2 (top ▸ one)

end Hook

section Steps

structure Grown (t t' : Btree K V) (g g' : Ghost K) (new : Nat → Prop) (leaves : Nat) : Prop where
  content : content t' g'.leaves = content t g.leaves
  leaves : g'.leaves.length = g.leaves.length + leaves
  live : ∀ a ∈ g'.live, a ∈ g.live ∨ new a
  old : ∀ a ∈ g.live, a ∈ g'.live ∧ g'.lvl a = g.lvl a
  used : t'.used = t.used
  count : t'.count = t.count

theorem Shape.parent_live {full : Option Nat} (shape : Shape t g g.hi none full) {a p : Nat} (live : a ∈ g.live)
    (parent : t.parent a = some p) : p ∈ g.live ∧ t.leaf p = false ∧ g.lvl p = g.lvl a + 1 := by
  obtain ⟨here, kind, hooked⟩ := shape.parent live (by simp) parent
  obtain ⟨i, there⟩ := getElem?_of_mem hooked
  exact ⟨here, kind, ((shape.inner p here kind).kid i a there).lvl.symm⟩

/-- The first loop of `btree_split` looks only at the parents of a node and of the
nodes above it. -/
theorem preLoop_congr {full : Option Nat} (shape : Shape t g g.hi none full) (ok : Nat → Bool) (fuel q nn : Nat)
    (live : q ∈ g.live) (parents : ∀ a ∈ g.live, g.lvl q ≤ g.lvl a → t'.parent a = t.parent a)
    (sizes : ∀ a ∈ g.live, g.lvl q < g.lvl a → t'.n a = t.n a) :
    preLoop t' ok fuel q nn = preLoop t ok fuel q nn := by
  induction fuel generalizing q nn with
  | zero => rfl
  | succ fuel ih =>
    rw [preLoop, preLoop, parents q live (le_refl _)]
    cases above : t.parent q with
    | none => rfl
    | some p =>
      obtain ⟨here, _, lvl⟩ := shape.parent_live live above
      have rest := ih p (nn + 1) here (fun a inside le => parents a inside (by omega))
        fun a inside lt => sizes a inside (by omega)
      simp only [sizes p here (by omega), rest]

theorem Shape.settle {q : Nat} (shape : Shape t g g.hi none (some q)) (room : t.n q ≠ btreeOrder) :
    Shape t g g.hi none none :=
  { shape with few := fun a inside => .inl ((shape.few a inside).resolve_right fun ⟨same, size⟩ =>
      room (by rw [Option.some.inj same]; exact size)) }

omit [LinearOrder K] in
theorem Grown.trans {t'' : Btree K V} {g'' : Ghost K} {new new' : Nat → Prop} {m n : Nat}
    (first : Grown t t' g g' new m) (second : Grown t' t'' g' g'' new' n) :
    Grown t t'' g g'' (fun a => new a ∨ new' a) (m + n) where
  content := second.content.trans first.content
  leaves := by rw [second.leaves, first.leaves, add_assoc]
  live a inside := by
    rcases second.live a inside with middle | new
    · rcases first.live a middle with old | new
      · exact .inl old
      · exact .inr (.inl new)
    · exact .inr (.inr new)
  old a inside := by
    obtain ⟨middle, one⟩ := first.old a inside
    obtain ⟨last, two⟩ := second.old a middle
    exact ⟨last, two.trans one⟩
  used := second.used.trans first.used
  count := second.count.trans first.count

omit [LinearOrder K] in
theorem Grown.weaken {new new' : Nat → Prop} {m : Nat} (grown : Grown t t' g g' new m)
    (weaker : ∀ a, new a → new' a) : Grown t t' g g' new' m :=
  { grown with live := fun a inside => (grown.live a inside).imp id (weaker a) }

omit [LinearOrder K] in
theorem preLoop_more {ok : Nat → Bool} {fuel p nn m last : Nat}
    (counted : preLoop t ok fuel p nn = some (m, last)) : nn < m := by
  induction fuel generalizing p nn with
  | zero => simp [preLoop] at counted
  | succ fuel ih =>
    rw [preLoop] at counted
    split_ifs at counted
    cases above : t.parent p with
    | none =>
      simp only [above, Option.some.injEq, Prod.mk.injEq] at counted
      omega
    | some q =>
      simp only [above] at counted
      split_ifs at counted
      · simp only [Option.some.injEq, Prod.mk.injEq] at counted
        omega
      · exact (lt_succ_self nn).trans (ih counted)

structure Taken (t : Btree K V) (g : Ghost K) (newRoot : Nat) (pre : List Nat) : Prop where
  nodup : (newRoot :: pre).Nodup
  free : ∀ a ∈ newRoot :: pre, a ∉ g.live ∧ a < t.used
  depth : g.lvl t.root + 1 < t.used

end Steps

section Loop

variable [Inhabited K]

def splitHalf (t : Btree K V) (nd right : Nat) : Btree K V × K :=
  if t.leaf nd then splitLeaf t nd right else splitInner t nd right

theorem splitHalf_pending (shape : Shape t g g.hi none (some nd)) (live : nd ∈ g.live)
    (full : t.n nd = btreeOrder) (new : right ∉ g.live) (free : right < t.used) :
    ∃ g', Pending (splitHalf t nd right).1 g' nd right (splitHalf t nd right).2 ∧
      Grown t (splitHalf t nd right).1 g g' (· = right) (if t.leaf nd then 1 else 0) := by
  unfold splitHalf
  cases kind : t.leaf nd with
  | true =>
    obtain ⟨g', pending, same, length, here, lvl⟩ := splitLeaf_pending shape live kind full new free
    refine ⟨g', pending, same, length, fun a inside => ?_, fun a inside => ⟨?_, lvl a inside⟩, rfl, rfl⟩
    · rw [here] at inside
      exact (Finset.mem_insert.mp inside).symm
    · rw [here]
      exact Finset.mem_insert_of_mem inside
  | false =>
    have ne : right ≠ nd := fun same => new (same ▸ live)
    have length : (t.keys nd).length = 32 := by
      rw [Btree.n, Btree.keyArray, kind] at full
      exact full
    have cut := splitInner_cut ne length
    refine ⟨_, cut.pending shape live kind length new free, ?_, rfl, fun a inside => ?_,
      fun a inside => ⟨Finset.mem_insert_of_mem inside, ?_⟩, rfl, rfl⟩
    · rfl
    · exact (Finset.mem_insert.mp inside).symm
    · exact split_lvl_other fun same => new (same ▸ inside)

theorem splitHalf_parent {full : Option Nat} (shape : Shape t g g.hi none full) (live : nd ∈ g.live)
    (right : Nat) {a : Nat} (high : g.lvl nd ≤ g.lvl a) : (splitHalf t nd right).1.parent a = t.parent a := by
  unfold splitHalf
  cases kind : t.leaf nd with
  | true => rfl
  | false =>
    refine if_neg fun there => ?_
    obtain ⟨i, there⟩ := getElem?_of_mem (mem_of_mem_drop there)
    have := ((shape.inner nd live kind).kid i a there).lvl
    omega

omit [LinearOrder K] in
theorem splitHalf_n {a : Nat} (one : a ≠ nd) (two : a ≠ right) : (splitHalf t nd right).1.n a = t.n a := by
  unfold splitHalf
  cases t.leaf nd with
  | true => exact n_congr (update_of_ne two ..) ((update_of_ne one ..).trans (update_of_ne two ..)) rfl
  | false => exact n_congr (update_of_ne two ..) rfl ((update_of_ne one ..).trans (update_of_ne two ..))

theorem splitLoop_full {newRoot : Nat} {pre : List Nat} (full : t.n nd = btreeOrder) :
    splitLoop newRoot (right :: pre) nd t =
      match (splitHalf t nd right).1.parent nd with
      | none => splitRoot (splitHalf t nd right).1 newRoot nd right (splitHalf t nd right).2
      | some par => splitLoop newRoot pre par (btreeInsInternal (splitHalf t nd right).1 par
            (btreeLower ((splitHalf t nd right).1.keys par) (splitHalf t nd right).2)
            (splitHalf t nd right).2 right) := by
  rw [splitLoop, if_pos full]
  rfl

/-- The run of the second loop of `btree_split` up the tree, with as many new nodes
as the first loop took. -/
theorem splitLoop_spec {ok : Nat → Bool} {newRoot last : Nat} (fuel nn : Nat) {pre : List Nat}
    (shape : Shape t g g.hi none (some nd)) (live : nd ∈ g.live) (full : t.n nd = btreeOrder)
    (taken : Taken t g newRoot pre) (counted : preLoop t ok fuel nd nn = some (nn + pre.length, last)) :
    ∃ g', Rests (splitLoop newRoot pre nd t) g' ∧
      Grown t (splitLoop newRoot pre nd t) g g' (· ∈ newRoot :: pre) (if t.leaf nd then 1 else 0) := by
  induction fuel generalizing t g nd nn pre with
  | zero => simp [preLoop] at counted
  | succ fuel ih =>
    -- The first loop took one node at least.
    obtain ⟨right, pre, rfl⟩ : ∃ right pre', pre = right :: pre' := by
      have more := preLoop_more counted
      cases pre with
      | nil => simp at more
      | cons right pre => exact ⟨right, pre, rfl⟩
    have new : right ∉ g.live ∧ right < t.used := taken.free right (by simp)
    obtain ⟨rootNew, preNodup⟩ := nodup_cons.mp taken.nodup
    obtain ⟨rightNew, preNodup⟩ := nodup_cons.mp preNodup
    have notRight : newRoot ≠ right := fun same => rootNew (same ▸ mem_cons_self)
    obtain ⟨g₁, pending, grown⟩ := splitHalf_pending shape live full new.1 new.2
    have same := splitHalf_parent shape live right (le_refl (g.lvl nd))
    have free : ∀ a ∈ newRoot :: pre, a ∉ g₁.live ∧ a < t.used := fun a inside => by
      have member : a ∈ newRoot :: right :: pre := by
        rcases mem_cons.mp inside with rfl | inside
        · exact mem_cons_self
        · exact mem_cons_of_mem _ (mem_cons_of_mem _ inside)
      refine ⟨fun there => ?_, (taken.free a member).2⟩
      rcases grown.live a there with old | rfl
      · exact (taken.free a member).1 old
      · rcases mem_cons.mp inside with same | inside
        · exact notRight same.symm
        · exact rightNew inside
    rw [preLoop] at counted
    split_ifs at counted with had
    rw [splitLoop_full full, same]
    cases above : t.parent nd with
    | none =>
      have top := shape.top_eq live (by simp) above
      have rests := pending.newRoot (same.trans above) (free newRoot mem_cons_self).1
        (by rw [grown.used]; exact (free newRoot mem_cons_self).2)
        (by rw [grown.used, (grown.old nd live).2, top]; exact taken.depth)
      refine ⟨_, rests, ?_⟩
      have apart : ∀ a ∈ g₁.live, a ≠ newRoot := fun a inside eq =>
        (free newRoot mem_cons_self).1 (eq ▸ inside)
      have last : Grown (splitHalf t nd right).1
          (splitRoot (splitHalf t nd right).1 newRoot nd right (splitHalf t nd right).2) g₁ (g₁.grow newRoot nd)
          (· = newRoot) 0 :=
        ⟨rfl, rfl, fun a inside => (Finset.mem_insert.mp inside).symm, fun a inside =>
          ⟨Finset.mem_insert_of_mem inside, update_of_ne (apart a inside) ..⟩, rfl, rfl⟩
      refine (grown.trans last).weaken fun a either => ?_
      rcases either with rfl | rfl <;> simp
    | some q =>
      obtain ⟨liveQ, kindQ, lvlQ⟩ := shape.parent_live live above
      obtain ⟨shape₂, size⟩ := pending.hook (same.trans above)
      have other : q ≠ right := fun eq => new.1 (eq ▸ liveQ)
      have lower : q ≠ nd := fun eq => by
        rw [eq] at lvlQ
        omega
      rw [splitHalf_n lower other] at size
      simp only [above] at counted ⊢
      generalize hooked : btreeInsInternal (splitHalf t nd right).1 q
        (btreeLower ((splitHalf t nd right).1.keys q) (splitHalf t nd right).2) (splitHalf t nd right).2
        right = t₂ at shape₂ size ⊢
      have step : Grown (splitHalf t nd right).1 t₂ g₁ g₁ (fun _ => False) 0 := by
        rw [← hooked]
        exact ⟨rfl, rfl, fun _ => .inl, fun _ inside => ⟨inside, rfl⟩, rfl, rfl⟩
      split_ifs at counted with room
      · -- The parent has room, and the loop ends there.
        simp only [Option.some.injEq, Prod.mk.injEq, length_cons] at counted
        have none : pre = [] := length_eq_zero_iff.mp (by omega)
        subst none
        refine ⟨g₁, shape₂.settle ?_, (grown.trans step).weaken fun a either => ?_⟩
        · rw [size]
          intro filled
          exact room (by omega)
        · rcases either with rfl | bad
          · simp
          · contradiction
      · have filled : t₂.n q = btreeOrder := by
          rw [size]
          have : t.n q = btreeOrder - 1 := not_not.mp room
          rw [this]
          rfl
        have kept : preLoop t₂ ok fuel q (nn + 1) = preLoop t ok fuel q (nn + 1) := by
          refine preLoop_congr shape ok fuel q (nn + 1) liveQ (fun a inside le => ?_) fun a inside lt => ?_
          · have apart : a ≠ right := fun eq => new.1 (eq ▸ inside)
            rw [← hooked, ← splitHalf_parent shape live right (by omega)]
            exact update_of_ne apart ..
          · have apart : a ≠ q := fun eq => by
              rw [eq] at lt
              omega
            rw [← splitHalf_n (t := t) (fun eq => by rw [eq] at lt; omega : a ≠ nd)
              (fun eq => new.1 (eq ▸ inside) : a ≠ right), ← hooked]
            exact n_congr rfl rfl (update_of_ne apart ..)
        have roots : t₂.root = t.root := by
          rw [← hooked]
          unfold splitHalf
          split <;> rfl
        have used : t₂.used = t.used := step.used.trans grown.used
        obtain ⟨g₂, rests, more⟩ := ih (nn + 1) shape₂ (grown.old q liveQ).1 filled
          ⟨nodup_cons.mpr ⟨fun inside => rootNew (mem_cons_of_mem _ inside), preNodup⟩,
            fun a inside => by rw [used]; exact free a inside,
            by rw [roots, used, (grown.old _ shape.root.1).2]; exact taken.depth⟩
          (by rw [kept, counted, length_cons, add_right_comm, ← add_assoc])
        have leafless : t₂.leaf q = false := by
          rw [← hooked]
          unfold splitHalf
          split <;> exact (update_of_ne other ..).trans kindQ
        rw [leafless] at more
        refine ⟨g₂, rests, ((grown.trans step).trans more).weaken fun a either => ?_⟩
        rcases either with (rfl | bad) | inside
        · simp
        · contradiction
        · rcases mem_cons.mp inside with rfl | inside
          · exact mem_cons_self
          · exact mem_cons_of_mem _ (mem_cons_of_mem _ inside)

end Loop

section Height

def Ghost.level (g : Ghost K) (h : Nat) : Finset Nat := g.live.filter fun a => g.lvl a = h

theorem Inner.kids_nodup {top : Nat → Option K} {a : Nat} (inner : Inner t g top a) : (t.kids a).Nodup := by
  refine nodup_iff_injective_get.mpr fun i j same => Fin.ext ?_
  exact inner.kid_inj (getElem?_eq_getElem i.isLt) (by
    rw [getElem?_eq_getElem j.isLt]
    exact congrArg some same.symm)

variable {full : Option Nat}

section

variable (shape : Shape t g g.hi none full)
include shape

theorem Shape.level_inner {h p : Nat} (member : p ∈ g.level (h + 1)) :
    p ∈ g.live ∧ g.lvl p = h + 1 ∧ t.leaf p = false := by
  obtain ⟨live, lvl⟩ := Finset.mem_filter.mp member
  refine ⟨live, lvl, Bool.eq_false_iff.mpr fun kind => ?_⟩
  rw [(shape.ground p live).mp kind] at lvl
  contradiction

theorem Shape.level_card (h m : Nat) (many : ∀ p ∈ g.level (h + 1), m ≤ (t.keys p).length + 1) :
    m * (g.level (h + 1)).card ≤ (g.level h).card := by
  have inner : ∀ p ∈ g.level (h + 1), Inner t g g.hi p := fun p member => by
    obtain ⟨live, _, kind⟩ := shape.level_inner member
    exact shape.inner p live kind
  have kidOf : ∀ p ∈ g.level (h + 1), ∀ b ∈ (t.kids p).toFinset, b ∈ g.level h ∧ t.parent b = some p := by
    intro p member b hooked
    obtain ⟨i, there⟩ := getElem?_of_mem (mem_toFinset.mp hooked)
    have kid := (inner p member).kid i b there
    have lvl := kid.lvl
    rw [(Finset.mem_filter.mp member).2] at lvl
    exact ⟨Finset.mem_filter.mpr ⟨kid.live, by omega⟩, kid.parent⟩
  have apart : Set.PairwiseDisjoint (g.level (h + 1)) fun p => (t.kids p).toFinset := by
    intro p one q two other
    refine Finset.disjoint_left.mpr fun b first second => other ?_
    exact Option.some.inj ((kidOf p one b first).2.symm.trans (kidOf q two b second).2)
  calc m * (g.level (h + 1)).card
      ≤ ∑ p ∈ g.level (h + 1), (t.kids p).toFinset.card := by
        rw [mul_comm]
        refine Finset.card_nsmul_le_sum _ _ _ fun p member => ?_
        rw [toFinset_card_of_nodup (inner p member).kids_nodup, (inner p member).size]
        exact many p member
    _ = ((g.level (h + 1)).biUnion fun p => (t.kids p).toFinset).card := (Finset.card_biUnion apart).symm
    _ ≤ (g.level h).card := by
        refine Finset.card_le_card fun b member => ?_
        obtain ⟨p, here, hooked⟩ := Finset.mem_biUnion.mp member
        exact (kidOf p here b hooked).1

theorem Shape.lvl_le {a : Nat} (live : a ∈ g.live) : g.lvl a ≤ g.lvl t.root := by
  obtain ⟨b, here, most⟩ := Finset.exists_max_image g.live g.lvl ⟨a, live⟩
  by_cases top : b = t.root
  · exact top ▸ most a live
  · obtain ⟨p, up, _, parent, _⟩ := shape.up b here top (by simp)
    have higher := (shape.parent_live here parent).2.2
    have := most p up
    omega

theorem Shape.level_pow (d h : Nat) (height : h + d + 1 = g.lvl t.root) : 16 ^ d ≤ (g.level h).card := by
  induction d generalizing h with
  | zero =>
    have root : t.root ∈ g.level (h + 1) := Finset.mem_filter.mpr ⟨shape.root.1, by omega⟩
    have one := shape.level_card h 1 fun p _ => by omega
    have : 0 < (g.level (h + 1)).card := Finset.card_pos.mpr ⟨_, root⟩
    omega
  | succ d ih =>
    have above := ih (h + 1) (by omega)
    have more := shape.level_card h 16 fun p member => by
      obtain ⟨live, lvl, kind⟩ := shape.level_inner member
      have notRoot : p ≠ t.root := fun same => by
        rw [same] at lvl
        omega
      have half := (shape.many p live kind).2 notRoot
      have : btreeMid - 1 = 15 := rfl
      omega
    calc 16 ^ (d + 1) = 16 * 16 ^ d := pow_succ'
      _ ≤ 16 * (g.level (h + 1)).card := mul_le_mul_left _ above
      _ ≤ (g.level h).card := more

theorem Shape.leaves_card : g.leaves.length = (g.level 0).card := by
  rw [← toFinset_card_of_nodup shape.chain.linked.nodup]
  congr 1
  ext a
  rw [mem_toFinset, shape.leaves, Ghost.level, Finset.mem_filter]
  exact and_congr_right fun live => shape.ground a live

/-- The chain limit of `btree_split` is met only by a tree of 2^60 leaves. -/
theorem preLoop_fails {ok : Nat → Bool} (fuel p nn : Nat)
    (live : p ∈ g.live) (failed : preLoop t ok fuel p nn = none) :
    (∃ j, ok j = false) ∨ g.lvl p + fuel ≤ g.lvl t.root := by
  induction fuel generalizing p nn with
  | zero => exact .inr (shape.lvl_le live)
  | succ fuel ih =>
    rw [preLoop] at failed
    split_ifs at failed with had
    · cases above : t.parent p with
      | none => simp [above] at failed
      | some q =>
        simp only [above] at failed
        split_ifs at failed
        obtain ⟨here, _, lvl⟩ := shape.parent_live live above
        exact (ih q (nn + 1) here failed).imp id fun le => by omega
    · exact .inl ⟨nn, by simpa using had⟩

end

end Height

theorem Shape.reserve {full : Option Nat} (shape : Shape t g g.hi none full) (more : Nat) :
    Shape { t with used := t.used + more } g g.hi none full := by
  obtain ⟨⟨linked, leafy, adjacent, first, last, few⟩, leaves, root, fresh, depth, ground, inner, up, some_,
    many⟩ := shape
  refine ⟨⟨linked, fun a inside => ?_, adjacent, first, last, few.trans (le_add_right _ _)⟩, leaves, root,
    fun a inside => (fresh a inside).trans_le (le_add_right _ _), depth.trans_le (le_add_right _ _),
    ground, fun a inside kind => ?_, up, some_, many⟩
  · obtain ⟨leaf, sorted, within, proper⟩ := leafy a inside
    exact ⟨leaf, sorted, within, proper⟩
  · exact (inner a inside kind).congr rfl rfl rfl rfl rfl fun _ _ => ⟨id, id, rfl, rfl, rfl⟩

/-- `btree_split` on a leaf: the tree is at rest again with the same entries, or the
call failed for want of memory. -/
theorem btreeSplit_spec [Inhabited K] (shape : Shape t g g.hi none (some nd)) (live : nd ∈ g.live)
    (kind : t.leaf nd = true) (ok : Nat → Bool) :
    (∃ t' g', btreeSplit t nd ok = some t' ∧ Rests t' g' ∧ content t' g'.leaves = content t g.leaves ∧
      g'.leaves.length ≤ g.leaves.length + 1 ∧ t'.count = t.count) ∨
    (btreeSplit t nd ok = none ∧ ((∃ j, ok j = false) ∨ 2 ^ 60 ≤ g.leaves.length)) := by
  unfold btreeSplit
  by_cases full : t.n nd = btreeOrder
  · rw [if_neg (not_not.mpr full)]
    cases counted : preLoop t ok btreeMaxChain nd 0 with
    | none =>
      refine .inr ⟨rfl, (preLoop_fails shape btreeMaxChain nd 0 live counted).imp id fun high => ?_⟩
      have tall : 0 + (g.lvl t.root - 1) + 1 = g.lvl t.root := by
        have : btreeMaxChain = 16 := rfl
        omega
      rw [shape.leaves_card]
      refine le_trans ?_ (shape.level_pow _ 0 tall)
      calc 2 ^ 60 = 16 ^ 15 := by decide
        _ ≤ 16 ^ (g.lvl t.root - 1) := Nat.pow_le_pow_right (by decide) (by
          have : btreeMaxChain = 16 := rfl
          omega)
    | some result =>
      obtain ⟨nn, last⟩ := result
      simp only
      split_ifs with failed
      · exact .inr ⟨rfl, .inl ⟨nn, by simpa using failed.2⟩⟩
      have reserved := shape.reserve (nn + 1)
      have taken : Taken { t with used := t.used + nn + 1 } g (t.used + nn) (List.range' t.used nn) := by
        refine ⟨nodup_cons.mpr ⟨by simp [mem_range'_1], nodup_range'⟩, fun a inside => ?_, ?_⟩
        · have bounds : t.used ≤ a ∧ a ≤ t.used + nn := by
            rcases mem_cons.mp inside with rfl | inside
            · omega
            · have := mem_range'_1.mp inside
              omega
          exact ⟨fun old => absurd (shape.fresh a old) (by omega), by simp only; omega⟩
        · have deep := shape.depth
          simp only
          omega
      have same : preLoop { t with used := t.used + nn + 1 } ok btreeMaxChain nd 0 =
          some (0 + (List.range' t.used nn).length, last) := by
        rw [length_range', zero_add, ← counted]
        exact preLoop_congr shape ok _ nd 0 live (fun _ _ _ => rfl) fun _ _ _ => rfl
      obtain ⟨g', rests, grown⟩ := splitLoop_spec btreeMaxChain 0 reserved live full taken same
      have length := grown.leaves
      simp only [kind, if_true] at length
      exact .inl ⟨_, g', rfl, rests, grown.content, by omega, grown.count⟩
  · rw [if_pos full]
    exact .inl ⟨t, g, rfl, shape.settle full, rfl, le_succ _, rfl⟩

end DynaJS.Ds
