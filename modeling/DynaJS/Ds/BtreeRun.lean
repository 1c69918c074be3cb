import DynaJS.Lib.Assoc
import DynaJS.Ds.BtreeGrow

/-! Runs of `dyn_btree_set` and `dyn_btree_del` against an ordered map. -/
namespace DynaJS.Ds

open List Prod

open Function (update update_of_ne update_self)
open DynaJS.Chain DynaJS.Search DynaJS.Assoc

variable {K V : Type} [LinearOrder K] {t : Btree K V} {g : Ghost K} {m : K → Option V}

structure Holds (t : Btree K V) (g : Ghost K) (m : K → Option V) : Prop where
  rests : Rests t g
  entries : ∀ k v, (k, v) ∈ content t g.leaves ↔ m k = some v
  count : t.count = (content t g.leaves).length % 2 ^ 32

section Write

variable {nd : Nat} {k : K} {new : Option V} {cs : List (K × V)}

def setCells (t : Btree K V) (nd : Nat) (cs : List (K × V)) (count : Nat) : Btree K V :=
  { t with cells := update t.cells nd cs, count := count }

omit [LinearOrder K] in
theorem setCells_n {count : Nat} (leaf : t.leaf nd = true) : (setCells t nd cs count).n nd = cs.length := by
  simp [setCells, Btree.n, Btree.keyArray, leaf]

theorem setCells_shape (rests : Rests t g) (member : nd ∈ g.leaves) (sorted : Sorted cs)
    (within : ∀ c ∈ cs, Within (g.lo nd) (g.hi nd) c.1) (few : cs.length ≤ btreeOrder) (count : Nat) :
    Shape (setCells t nd cs count) g g.hi none (some nd) := by
  have leaf := (rests.chain.leafy nd member).leaf
  have kept : ∀ a, a ≠ nd → (setCells t nd cs count).n a = t.n a := fun a other =>
    n_congr rfl (update_of_ne other ..) rfl
  obtain ⟨⟨linked, leafy, adjacent, first, last, few'⟩, leaves, root, fresh, depth, ground, inner, up, small,
    many⟩ := rests
  refine ⟨⟨linked, fun a inside => ?_, adjacent, first, last, few'⟩, leaves, root, fresh, depth, ground,
    fun a inside kind => ?_, up, fun a inside => ?_, many⟩
  · by_cases same : a = nd
    · subst same
      obtain ⟨leafA, _, _, proper⟩ := leafy a inside
      refine ⟨leafA, ?_, ?_, proper⟩
      · simpa [setCells, Sorted] using sorted
      · simpa [setCells] using within
    · exact (leafy a inside).congr rfl (update_of_ne same ..) rfl rfl
  · exact (inner a inside kind).congr rfl rfl rfl rfl rfl fun _ _ => ⟨id, id, rfl, rfl, rfl⟩
  · by_cases same : a = nd
    · subst same
      rw [setCells_n leaf]
      by_cases full : cs.length = btreeOrder
      · exact .inr ⟨rfl, full⟩
      · exact .inl (by omega)
    · rw [kept a same]
      exact .inl ((small a inside).resolve_right (by simp))

variable {l₁ l₂ : List Nat}

omit [LinearOrder K] in
theorem setCells_content (split : g.leaves = l₁ ++ nd :: l₂) (nodup : g.leaves.Nodup) (count : Nat) :
    content (setCells t nd cs count) g.leaves = content t l₁ ++ (cs ++ content t l₂) := by
  rw [split] at nodup ⊢
  obtain ⟨_, behind, apart⟩ := nodup_append.mp nodup
  have same : ∀ l : List Nat, nd ∉ l → l.flatMap (update t.cells nd cs) = l.flatMap t.cells :=
    fun l outside => flatMap_congr fun a inside => by
      have other : a ≠ nd := fun eq => outside (eq ▸ inside)
      exact update_of_ne other ..
  have left : nd ∉ l₁ := fun inside => apart nd inside nd mem_cons_self rfl
  simp only [content, setCells, flatMap_append, flatMap_cons, update_self, same l₁ left,
    same l₂ (nodup_cons.mp behind).1]

theorem content_writes (chain : LeafChain t g) (split : g.leaves = l₁ ++ nd :: l₂)
    (within : Within (g.lo nd) (g.hi nd) k) (writes : Writes (t.cells nd) cs k new) :
    Writes (content t g.leaves) (content t l₁ ++ (cs ++ content t l₂)) k new := by
  intro x w
  by_cases same : x = k
  · subst same
    rw [mem_content_here chain split within, writes x w, if_pos rfl, if_pos rfl]
  · rw [content_split split, mem_append, mem_append, mem_append, mem_append, writes x w, if_neg same, if_neg same]

theorem setCells_entries (holds : Holds t g m) (split : g.leaves = l₁ ++ nd :: l₂)
    (within : Within (g.lo nd) (g.hi nd) k) (writes : Writes (t.cells nd) cs k new) (count : Nat) (x : K) (w : V) :
    (x, w) ∈ content (setCells t nd cs count) g.leaves ↔ update m k new x = some w := by
  rw [setCells_content split holds.rests.chain.linked.nodup,
    content_writes holds.rests.chain split within writes x w, holds.entries]
  by_cases same : x = k
  · subst same
    rw [if_pos rfl, update_self]
  · rw [if_neg same, update_of_ne same]

theorem setCells_length (cs : List (K × V)) (rests : Rests t g) (split : g.leaves = l₁ ++ nd :: l₂) (count : Nat) :
    (content (setCells t nd cs count) g.leaves).length + (t.cells nd).length =
      (content t g.leaves).length + cs.length := by
  rw [setCells_content split rests.chain.linked.nodup, content_split split]
  simp only [length_append]
  omega

end Write

section Steps

variable {k : K}

theorem cellAt_here {nd : Nat} {x : K} {v : V} (found : cellAt t nd k = some (x, v)) :
    x = k ∧ (t.cells nd)[btreeLower (t.keyArray nd) k]? = some (k, v) := by
  rw [cellAt, Option.filter_eq_some_iff, decide_eq_true_eq] at found
  obtain ⟨here, rfl⟩ := found
  exact ⟨rfl, here⟩

theorem cellAt_none {nd : Nat} (leafy : Leafy t g nd) (none : cellAt t nd k = none) : k ∉ (t.cells nd).map fst := by
  intro member
  obtain ⟨c, inside, same⟩ := mem_map.mp member
  rw [(leafy.cellAt_iff c).mpr ⟨inside, same⟩] at none
  contradiction

theorem Leafy.within_set {nd : Nat} (leafy : Leafy t g nd) (here : Within (g.lo nd) (g.hi nd) k) {cs : List (K × V)}
    {new : Option V} (writes : Writes (t.cells nd) cs k new) : ∀ c ∈ cs, Within (g.lo nd) (g.hi nd) c.1 := by
  rintro ⟨x, w⟩ member
  have old := (writes x w).mp member
  split_ifs at old with same
  · exact same ▸ here
  · exact leafy.within _ old

theorem btreeDel_holds (holds : Holds t g m) (k : K) :
    (btreeDel t k).1 = m k ∧ Holds (btreeDel t k).2 g (update m k none) := by
  have rests := holds.rests
  have got := btreeGet_iff rests k
  obtain ⟨member, within⟩ := btreeFindLeaf_spec rests k
  obtain ⟨l₁, l₂, split⟩ := append_of_mem member
  have leafy := rests.chain.leafy _ member
  unfold btreeDel
  unfold btreeGet at got
  generalize btreeFindLeaf t k = nd at *
  cases found : cellAt t nd k with
  | none =>
    have absent : m k = none := by
      cases value : m k with
      | none => rfl
      | some v =>
        have there := (got v).mpr ((holds.entries k v).mpr value)
        simp [found] at there
    simp only [found]
    have same : update m k none = m := by rw [← absent, Function.update_eq_self]
    rw [same]
    exact ⟨absent.symm, holds⟩
  | some c =>
    obtain ⟨x, v⟩ := c
    obtain ⟨rfl, here⟩ := cellAt_here found
    have value : m x = some v := by
      rw [← holds.entries, ← got v, found]
      rfl
    obtain ⟨inside, _⟩ := List.getElem?_eq_some_iff.mp here
    have writes := erase_writes leafy.sorted here
    have length := length_eraseIdx_of_lt inside
    simp only [found]
    refine ⟨value.symm, ?_⟩
    generalize btreeLower (t.keyArray nd) x = i at *
    have few : ((t.cells nd).eraseIdx i).length < btreeOrder := by
      have := (rests.few nd ((rests.leaves nd).mp member).1).resolve_right (by simp)
      rw [leafy.n_eq] at this
      omega
    have shape := setCells_shape rests member (erase_sorted leafy.sorted i) (leafy.within_set within writes)
      few.le ((t.count + (2 ^ 32 - 1)) % 2 ^ 32)
    refine ⟨shape.settle ?_, setCells_entries holds split within writes _, ?_⟩
    · rw [setCells_n leafy.leaf]
      omega
    · have whole := setCells_length ((t.cells nd).eraseIdx i) rests split ((t.count + (2 ^ 32 - 1)) % 2 ^ 32)
      have count := holds.count
      unfold setCells at whole
      simp only
      omega

omit [LinearOrder K] in
theorem setCells_undo {nd i c : Nat} (inside : i ≤ (t.cells nd).length) (small : t.count < 2 ^ 32) (e : K × V)
    (back : c = ((t.count + 1) % 2 ^ 32 + (2 ^ 32 - 1)) % 2 ^ 32) :
    setCells (setCells t nd ((t.cells nd).take i ++ e :: (t.cells nd).drop i) ((t.count + 1) % 2 ^ 32)) nd
      (((t.cells nd).take i ++ e :: (t.cells nd).drop i).eraseIdx i) c = t := by
  have length : ((t.cells nd).take i).length = i := by
    rw [length_take]
    omega
  have erased : ((t.cells nd).take i ++ e :: (t.cells nd).drop i).eraseIdx i = t.cells nd := by
    rw [eraseIdx_append_of_length_le (by omega), length, Nat.sub_self, eraseIdx_cons_zero, take_append_drop]
  have same : c = t.count := by omega
  simp only [setCells, erased, Function.update_idem, Function.update_eq_self, same]

theorem btreeSet_holds [Inhabited K] (holds : Holds t g m) (k : K) (v : V) (ok : Nat → Bool) :
    ((btreeSet t k v ok).1 = 0 ∧ ∃ g', Holds (btreeSet t k v ok).2.2 g' (update m k (some v)) ∧
      g'.leaves.length ≤ g.leaves.length + 1) ∨
    ((btreeSet t k v ok).1 = -1 ∧ (btreeSet t k v ok).2.2 = t ∧
      ((∃ j, ok j = false) ∨ 2 ^ 60 ≤ g.leaves.length)) := by
  have rests := holds.rests
  obtain ⟨member, within⟩ := btreeFindLeaf_spec rests k
  obtain ⟨l₁, l₂, split⟩ := append_of_mem member
  have leafy := rests.chain.leafy _ member
  have cut := leafy.cut k
  have count := holds.count
  unfold btreeSet
  generalize btreeFindLeaf t k = nd at *
  have live := (rests.leaves nd).mp member
  have few := (rests.few nd live.1).resolve_right (by simp)
  rw [leafy.n_eq] at few
  cases found : cellAt t nd k with
  | some c =>
    obtain ⟨x, old⟩ := c
    obtain ⟨rfl, here⟩ := cellAt_here found
    simp only [found]
    generalize btreeLower (t.keyArray nd) x = i at *
    have writes := set_writes leafy.sorted here v
    have shape := setCells_shape rests member (set_sorted leafy.sorted here v) (leafy.within_set within writes)
      (by rw [length_set]; exact few.le) t.count
    refine .inl ⟨trivial, g, ⟨shape.settle ?_, setCells_entries holds split within writes _, ?_⟩, Nat.le_succ _⟩
    · rw [setCells_n leafy.leaf, length_set]
      omega
    · have whole := setCells_length ((t.cells nd).set i (x, v)) rests split t.count
      rw [length_set] at whole
      unfold setCells at whole
      simp only
      omega
  | none =>
    simp only [found]
    have absent := cellAt_none leafy found
    generalize btreeLower (t.keyArray nd) k = i at *
    have inside : i ≤ (t.cells nd).length := by simpa using cut.inside
    have writes := insert_writes absent v i
    have length : ((t.cells nd).take i ++ (k, v) :: (t.cells nd).drop i).length = (t.cells nd).length + 1 := by
      simp only [length_append, length_cons, length_take, length_drop]
      omega
    have shape := setCells_shape rests member (insert_sorted leafy.sorted cut absent v)
      (leafy.within_set within writes) (by omega) ((t.count + 1) % 2 ^ 32)
    have entries := setCells_entries holds split within writes ((t.count + 1) % 2 ^ 32)
    have whole := setCells_length ((t.cells nd).take i ++ (k, v) :: (t.cells nd).drop i) rests split
      ((t.count + 1) % 2 ^ 32)
    have undo := setCells_undo inside (by omega) (k, v) rfl
    rcases btreeSplit_spec shape live.1 leafy.leaf ok with
      ⟨t', g', done, rests', same, grown, counted⟩ | ⟨failed, reason⟩
    · rw [setCells] at done
      simp only [done]
      refine .inl ⟨trivial, g', ⟨rests', fun x w => ?_, ?_⟩, grown⟩
      · rw [same]
        exact entries x w
      · rw [counted, same]
        simp only [setCells] at whole ⊢
        omega
    · rw [setCells] at failed
      simp only [failed]
      simp only [setCells, update_self, Function.update_idem] at undo ⊢
      exact .inr ⟨trivial, undo, reason⟩

end Steps

section Queries

section

variable (holds : Holds t g m)
include holds

theorem Holds.live_iff (x : K) : x ∈ (content t g.leaves).map fst ↔ (m x).isSome := by
  rw [mem_map, Option.isSome_iff_exists]
  constructor
  · rintro ⟨⟨y, v⟩, member, rfl⟩
    exact ⟨v, (holds.entries y v).mp member⟩
  · rintro ⟨v, value⟩
    exact ⟨(x, v), (holds.entries x v).mpr value, rfl⟩

theorem Holds.sorted : Sorted (content t g.leaves) := pairwise_map.mpr holds.rests.chain.content_sorted

theorem Holds.get (k : K) : btreeGet t k = m k := by
  refine Option.ext fun v => ?_
  exact (btreeGet_iff holds.rests k v).trans (holds.entries k v)

theorem part_keys {part rest : List (K × V)} {P : K → Prop} (whole : (content t g.leaves).Perm (part ++ rest))
    (fits : ∀ c ∈ part, P c.1) (other : ∀ c ∈ rest, ¬ P c.1) :
    {x | x ∈ part.map fst} = {x | (m x).isSome ∧ P x} := by
  ext x
  rw [Set.mem_ofPred_eq, Set.mem_ofPred_eq, ← holds.live_iff, (whole.map _).mem_iff, map_append, mem_append]
  constructor
  · intro member
    obtain ⟨c, inside, rfl⟩ := mem_map.mp member
    exact ⟨.inl member, fits c inside⟩
  · rintro ⟨here | there, fit⟩
    · exact here
    · obtain ⟨c, inside, rfl⟩ := mem_map.mp there
      exact absurd fit (other c inside)

theorem Holds.ceil (k y : K) : btreeCeil t k = some y ↔ IsLeast {x | (m x).isSome ∧ k ≤ x} y := by
  obtain ⟨low, high, whole, below, above, answer⟩ := btreeCeil_eq holds.rests k
  have sorted := holds.sorted
  rw [whole, Sorted, map_append] at sorted
  have part : Sorted high := (pairwise_append.mp sorted).2.1
  rw [answer, part.head_isLeast,
    part_keys holds (whole ▸ perm_append_comm) above fun c inside => not_le_of_gt (below c inside)]

theorem Holds.floor (k y : K) : btreeFloor t k = some y ↔ IsGreatest {x | (m x).isSome ∧ x ≤ k} y := by
  obtain ⟨low, high, whole, below, above, answer⟩ := btreeFloor_eq holds.rests k
  have sorted := holds.sorted
  rw [whole, Sorted, map_append] at sorted
  have part : Sorted low := (pairwise_append.mp sorted).1
  rw [answer, part.last_isGreatest,
    part_keys (P := (· ≤ k)) holds (whole ▸ Perm.refl _) below fun c inside => not_le_of_gt (above c inside)]

theorem Holds.first (y : K) : btreeFirst t = some y ↔ IsLeast {x | (m x).isSome} y := by
  rw [btreeFirst_eq holds.rests, holds.sorted.head_isLeast]
  simp only [holds.live_iff]

theorem Holds.last (y : K) : btreeLast t = some y ↔ IsGreatest {x | (m x).isSome} y := by
  rw [btreeLast_eq holds.rests, holds.sorted.last_isGreatest]
  simp only [holds.live_iff]

theorem Holds.iterate (fuel : Nat) (enough : (content t g.leaves).length ≤ fuel) :
    btreeIterRead t fuel (btreeIterBegin t) = content t g.leaves ∧
    ∀ k, btreeIterRead t fuel (btreeIterSeek t k) = (content t g.leaves).filter fun c => k ≤ c.1 := by
  have chain := holds.rests.chain
  refine ⟨(btreeIterBegin_at holds.rests).read chain fuel enough, fun k => ?_⟩
  obtain ⟨low, high, whole, below, above, here⟩ := btreeIterSeek_at holds.rests k
  rw [whole, length_append] at enough
  have none : low.filter (fun c => decide (k ≤ c.1)) = [] :=
    filter_eq_nil_iff.mpr fun c inside => by simpa using below c inside
  have all : high.filter (fun c => decide (k ≤ c.1)) = high :=
    filter_eq_self.mpr fun c inside => by simpa using above c inside
  rw [here.read chain fuel (by omega), whole, filter_append, none, all, nil_append]

/-- The size and the list of the keys are right as long as a `uint32_t` holds the size. -/
theorem Holds.size_iff : (btreeSize t = (content t g.leaves).length ∧
      btreeGetKeys t = ((content t g.leaves).length, fun j => ((content t g.leaves).map fst)[j]?)) ↔
    (content t g.leaves).length < 2 ^ 32 := by
  have count := holds.count
  constructor
  · rintro ⟨size, _⟩
    rw [btreeSize, count] at size
    omega
  · intro fits
    refine ⟨?_, btreeGetKeys_eq holds.rests fits⟩
    rw [btreeSize, count]
    omega

end

end Queries

section Run

variable [Inhabited K]

inductive BtreeOp (K V : Type) where
  | set (k : K) (v : V) (ok : Nat → Bool)
  | del (k : K)

/-- The call on the tree, and on the map it should stand for: a `set` that returned
-1 is none. -/
def BtreeOp.exec (s : Btree K V × (K → Option V)) : BtreeOp K V → Btree K V × (K → Option V)
  | .set k v ok =>
    let r := btreeSet s.1 k v ok
    (r.2.2, if r.1 = 0 then update s.2 k (some v) else s.2)
  | .del k => ((btreeDel s.1 k).2, update s.2 k none)

variable (ops : List (BtreeOp K V))

def btreeRun : Btree K V × (K → Option V) := ops.foldl BtreeOp.exec (btreeNew, fun _ => none)

omit [Inhabited K] in
def BtreeOp.apply (m : K → Option V) : BtreeOp K V → K → Option V
  | .set k v _ => update m k (some v)
  | .del k => update m k none

def BtreeOp.Granted : BtreeOp K V → Prop
  | .set _ _ ok => ∀ j, ok j = true
  | .del _ => True

omit [Inhabited K] in
theorem btreeNew_holds : ∃ g : Ghost K, Holds (btreeNew : Btree K V) g (fun _ => none) ∧ g.leaves.length = 1 := by
  refine ⟨⟨{0}, fun _ => 0, fun _ => none, fun _ => none, [0]⟩, ⟨⟨⟨⟨by simp, ?_⟩, ?_, ?_, ?_, ?_, ?_⟩,
    ?_, ?_, ?_, ?_, ?_, ?_, ?_, ?_, ?_⟩, ?_, ?_⟩, rfl⟩
  · simp [Seg, btreeNew]
  · intro a _
    exact ⟨rfl, by simp [btreeNew], by simp [btreeNew], by simp⟩
  all_goals simp [btreeNew, content, btreeOrder, Btree.n, Btree.keyArray]

variable {s : Btree K V × (K → Option V)}

theorem exec_holds (holds : Holds s.1 g s.2) (op : BtreeOp K V) :
    ∃ g', Holds (op.exec s).1 g' (op.exec s).2 ∧ g'.leaves.length ≤ g.leaves.length + 1 ∧
      (op.Granted → g.leaves.length < 2 ^ 60 → (op.exec s).2 = op.apply s.2) := by
  cases op with
  | set k v ok =>
    simp only [BtreeOp.exec, BtreeOp.Granted, BtreeOp.apply]
    rcases btreeSet_holds holds k v ok with ⟨code, g', held, grown⟩ | ⟨code, same, reason⟩
    · rw [if_pos code]
      exact ⟨g', held, grown, fun _ _ => rfl⟩
    · rw [code, same]
      refine ⟨g, holds, Nat.le_succ _, fun granted few => ?_⟩
      rcases reason with ⟨j, refused⟩ | tall
      · rw [granted j] at refused
        contradiction
      · omega
  | del k => exact ⟨g, (btreeDel_holds holds k).2, Nat.le_succ _, fun _ _ => rfl⟩

theorem foldl_holds (holds : Holds s.1 g s.2) :
    ∃ g', Holds (ops.foldl BtreeOp.exec s).1 g' (ops.foldl BtreeOp.exec s).2 ∧
      ((∀ op ∈ ops, op.Granted) → g.leaves.length + ops.length ≤ 2 ^ 60 →
        (ops.foldl BtreeOp.exec s).2 = ops.foldl BtreeOp.apply s.2) := by
  induction ops generalizing s g with
  | nil => exact ⟨g, holds, fun _ _ => rfl⟩
  | cons op ops ih =>
    obtain ⟨g₁, held, grown, step⟩ := exec_holds holds op
    obtain ⟨g₂, final, rest⟩ := ih held
    refine ⟨g₂, final, fun granted few => ?_⟩
    rw [length_cons] at few
    obtain ⟨first, later⟩ := forall_mem_cons.mp granted
    rw [foldl_cons, foldl_cons, rest later (by omega), step first (by omega)]

theorem btreeRun_holds : ∃ g, Holds (btreeRun ops).1 g (btreeRun ops).2 ∧
      ((∀ op ∈ ops, op.Granted) → ops.length < 2 ^ 60 →
        (btreeRun ops).2 = ops.foldl BtreeOp.apply fun _ => none) := by
  obtain ⟨g, start, one⟩ := btreeNew_holds (K := K)
  obtain ⟨g', held, map⟩ := foldl_holds ops (s := (btreeNew, fun _ => none)) start
  exact ⟨g', held, fun granted few => map granted (by omega)⟩

/-- The tree refines an ordered map over every run of calls: lookups, iterators and
neighbours are those of the map, and a call that had its memory wrote its entry. The
size and the listing of the keys are right exactly while there are fewer than 2^32. -/
theorem btree_refines_map_iff (ops : List (BtreeOp K V)) :
    let t := (btreeRun ops).1
    let m := (btreeRun ops).2
    ((∀ op ∈ ops, op.Granted) → ops.length < 2 ^ 60 → m = ops.foldl BtreeOp.apply fun _ => none) ∧
    (∀ k, btreeGet t k = m k) ∧
    (∀ k y, btreeCeil t k = some y ↔ IsLeast {x | (m x).isSome ∧ k ≤ x} y) ∧
    (∀ k y, btreeFloor t k = some y ↔ IsGreatest {x | (m x).isSome ∧ x ≤ k} y) ∧
    (∀ y, btreeFirst t = some y ↔ IsLeast {x | (m x).isSome} y) ∧
    (∀ y, btreeLast t = some y ↔ IsGreatest {x | (m x).isSome} y) ∧
    ∃ entries : List (K × V), Sorted entries ∧ (∀ k v, (k, v) ∈ entries ↔ m k = some v) ∧
      (∀ fuel, entries.length ≤ fuel → btreeIterRead t fuel (btreeIterBegin t) = entries ∧
        ∀ k, btreeIterRead t fuel (btreeIterSeek t k) = entries.filter fun c => k ≤ c.1) ∧
      ((btreeSize t = entries.length ∧ btreeGetKeys t = (entries.length, fun j => (entries.map fst)[j]?)) ↔
        entries.length < 2 ^ 32) := by
  intro t m
  obtain ⟨g, holds, map⟩ := btreeRun_holds ops
  exact ⟨map, holds.get, holds.ceil, holds.floor, holds.first, holds.last, content t g.leaves, holds.sorted,
    holds.entries, holds.iterate, holds.size_iff⟩

end Run

section Wrap

def countUp (n : Nat) : List (BtreeOp Nat Unit) := (List.range n).map fun k => .set k () fun _ => true

theorem countUp_map (n : Nat) :
    (countUp n).foldl BtreeOp.apply (fun _ => none) = fun k => if k < n then some () else none := by
  induction n with
  | zero => rfl
  | succ n ih =>
    rw [countUp, range_succ, map_append, foldl_append]
    unfold countUp at ih
    rw [ih]
    funext k
    simp only [map_cons, map_nil, foldl_cons, foldl_nil, BtreeOp.apply]
    by_cases same : k = n
    · rw [same, update_self, if_pos (Nat.lt_succ_self n)]
    · rw [update_of_ne same]
      congr 1
      exact propext ⟨fun lt => by omega, fun lt => by omega⟩

theorem countUp_size (n : Nat) (few : n < 2 ^ 60) : (∀ k, k < n → btreeGet (btreeRun (countUp n)).1 k = some ()) ∧
      btreeSize (btreeRun (countUp n)).1 = n % 2 ^ 32 := by
  obtain ⟨g, holds, map⟩ := btreeRun_holds (countUp n)
  have values := (map (by simp [countUp, BtreeOp.Granted]) (by simpa [countUp] using few)).trans (countUp_map n)
  refine ⟨fun k lt => (holds.get k).trans (by rw [values]; exact if_pos lt), ?_⟩
  have keys : ((content (btreeRun (countUp n)).1 g.leaves).map fst).toFinset = Finset.range n := by
    ext k
    rw [mem_toFinset, holds.live_iff, values]
    by_cases lt : k < n <;> simp [lt]
  have nodup : ((content (btreeRun (countUp n)).1 g.leaves).map fst).Nodup := holds.sorted.imp ne_of_lt
  rw [btreeSize, holds.count, ← length_map fst, ← toFinset_card_of_nodup nodup, keys, Finset.card_range]

/-- After 2^32 keys the size of the tree is zero, with all of them in it. -/
theorem btree_size_wraps : (∀ k, k < 2 ^ 32 → btreeGet (btreeRun (countUp (2 ^ 32))).1 k = some ()) ∧
      btreeSize (btreeRun (countUp (2 ^ 32))).1 = 0 := by
  obtain ⟨values, size⟩ := countUp_size (2 ^ 32) (by decide)
  exact ⟨values, size.trans (by decide)⟩

end Wrap

end DynaJS.Ds
