import DynaJS.Ds.BtreeRead

/-! Splitting a full node: the node is cut in two, and its new right half is hooked
into the parent or under a new root. -/
namespace DynaJS.Ds

open List Option

open Function (update update_of_ne update_self)
open DynaJS.Chain DynaJS.Search

variable {K V : Type} [LinearOrder K] {t t' : Btree K V} {g g' : Ghost K} {nd right : Nat} {up : K}

/-- A node has been cut at `up`, and its right half is not in the parent yet, which
still sees the range of the whole. -/
structure Pending (t : Btree K V) (g : Ghost K) (nd right : Nat) (up : K) : Prop where
  shape : Shape t g (update g.hi nd (g.hi right)) (some right) none
  live : nd ∈ g.live ∧ right ∈ g.live
  ne : right ≠ nd
  lvl : g.lvl right = g.lvl nd
  cut : g.hi nd = some up ∧ g.lo right = some up
  below : ∀ s ∈ g.lo nd, s < up
  above : ∀ s ∈ g.hi right, up < s
  unhooked : ∀ a ∈ g.live, t.leaf a = false → right ∉ t.kids a
  half : t.leaf nd = false → btreeMid - 1 ≤ (t.keys nd).length

def Ghost.split (g : Ghost K) (nd right : Nat) (up : K) (leaves : List Nat) : Ghost K where
  live := insert right g.live
  lvl := update g.lvl right (g.lvl nd)
  lo := update g.lo right (some up)
  hi := update (update g.hi right (g.hi nd)) nd (some up)
  leaves := leaves

section Ghost

omit [LinearOrder K]

variable {leaves : List Nat} {a : Nat}

theorem split_top (ne : right ≠ nd) (other : a ≠ right) :
    update (g.split nd right up leaves).hi nd ((g.split nd right up leaves).hi right) a = g.hi a := by
  simp only [Ghost.split, update_of_ne ne, update_self]
  by_cases same : a = nd
  · rw [same, update_self]
  · rw [update_of_ne same, update_of_ne same, update_of_ne other]

theorem split_hi (ne : right ≠ nd) : (g.split nd right up leaves).hi right = g.hi nd := by
  simp only [Ghost.split, update_of_ne ne, update_self]

theorem split_hi_other (other : a ≠ right) (same : a ≠ nd) : (g.split nd right up leaves).hi a = g.hi a := by
  simp only [Ghost.split, update_of_ne same, update_of_ne other]

theorem split_lo : (g.split nd right up leaves).lo right = some up := update_self ..

theorem split_cut : (g.split nd right up leaves).hi nd = some up := update_self ..

theorem split_lo_other (other : a ≠ right) : (g.split nd right up leaves).lo a = g.lo a := by
  simp only [Ghost.split, update_of_ne other]

theorem split_lvl_other (other : a ≠ right) : (g.split nd right up leaves).lvl a = g.lvl a := by
  simp only [Ghost.split, update_of_ne other]

end Ghost

variable {top : Nat → Option K} {a : Nat}

theorem Inner.congr {top' : Nat → Option K} (inner : Inner t g top a)
    (keys : t'.keys a = t.keys a) (kids : t'.kids a = t.kids a) (lvl : g'.lvl a = g.lvl a)
    (lo : g'.lo a = g.lo a) (hi : g'.hi a = g.hi a)
    (same : ∀ b ∈ t.kids a, (b ∈ g.live → b ∈ g'.live) ∧ (t.parent b = some a → t'.parent b = some a) ∧
      g'.lvl b = g.lvl b ∧ g'.lo b = g.lo b ∧ top' b = top b) : Inner t' g' top' a := by
  refine ⟨keys ▸ inner.sorted, ?_, ?_, ?_, fun i b here => ?_⟩
  · rw [keys, lo]
    exact inner.below
  · rw [keys, hi]
    exact inner.above
  · rw [keys, kids]
    exact inner.size
  · rw [kids] at here
    obtain ⟨live, parent, lvl', lo', top'⟩ := same b (mem_of_getElem? here)
    have kid := inner.kid i b here
    refine ⟨live kid.live, parent kid.parent, ?_, ?_, ?_⟩
    · rw [lvl', lvl]
      exact kid.lvl
    · rw [lo', keys, lo]
      exact kid.lo
    · rw [top', keys, hi]
      exact kid.top

theorem Shape.few_none {loose : Option Nat} (shape : Shape t g top loose none)
    (live : a ∈ g.live) : t.n a < btreeOrder :=
  (shape.few a live).resolve_right fun full => absurd full.1 (by simp)

omit [LinearOrder K] in
theorem n_congr (leaf : t'.leaf a = t.leaf a) (cells : t'.cells a = t.cells a)
    (keys : t'.keys a = t.keys a) : t'.n a = t.n a := by
  simp only [Btree.n, Btree.keyArray, leaf, cells, keys]

theorem Inner.kid_live {b : Nat} (inner : Inner t g top a) (hooked : b ∈ t.kids a) : b ∈ g.live := by
  obtain ⟨i, here⟩ := getElem?_of_mem hooked
  exact (inner.kid i b here).live

theorem nodup_bounded {l : List Nat} {n : Nat} (nodup : l.Nodup) (small : ∀ a ∈ l, a < n) : l.length ≤ n := by
  rw [← toFinset_card_of_nodup nodup, ← Finset.card_range n]
  exact Finset.card_le_card fun a member => Finset.mem_range.mpr (small a (mem_toFinset.mp member))

theorem Leafy.congr (leafy : Leafy t g a) (leaf : t'.leaf a = t.leaf a) (cells : t'.cells a = t.cells a)
    (lo : g'.lo a = g.lo a) (hi : g'.hi a = g.hi a) : Leafy t' g' a := by
  obtain ⟨kind, sorted, within, proper⟩ := leafy
  exact ⟨leaf.trans kind, cells ▸ sorted, cells ▸ lo ▸ hi ▸ within, lo ▸ hi ▸ proper⟩

theorem LeafChain.congr (chain : LeafChain t g) (leaves : g'.leaves = g.leaves)
    (frame : t'.cells = t.cells ∧ t'.next = t.next ∧ t'.prev = t.prev ∧ t'.used = t.used)
    (same : ∀ a ∈ g.leaves, t'.leaf a = t.leaf a ∧ g'.lo a = g.lo a ∧ g'.hi a = g.hi a) : LeafChain t' g' := by
  obtain ⟨cells, next, prev, used⟩ := frame
  refine ⟨?_, ?_, ?_, ?_, ?_, ?_⟩ <;> rw [leaves]
  · rw [next, prev]
    exact chain.linked
  · intro a inside
    obtain ⟨leaf, lo, hi⟩ := same a inside
    exact (chain.leafy a inside).congr leaf (congrFun cells a) lo hi
  · exact chain.adjacent.imp_of_mem_imp fun a b one two meets => by rwa [(same a one).2.2, (same b two).2.1]
  · intro a head
    rw [(same a (mem_of_mem_head? head)).2.1]
    exact chain.first a head
  · intro a final
    rw [(same a (mem_of_mem_getLast? final)).2.2]
    exact chain.last a final
  · rw [used]
    exact chain.few

/-- The memory after the cut of the full node `nd` at `up`, for a leaf and for an inner node. -/
structure Halved (t t' : Btree K V) (g : Ghost K) (nd right : Nat) (up : K) (leaves : List Nat) : Prop where
  chain : LeafChain t' (g.split nd right up leaves)
  listed : ∀ a, a ∈ leaves ↔ a ∈ g.leaves ∨ a = right ∧ t.leaf nd = true
  frame : t'.used = t.used ∧ t'.root = t.root
  half : ∀ a, a = nd ∨ a = right → t'.leaf a = t.leaf nd ∧ t'.n a < btreeOrder
  other : ∀ a, a ≠ nd → a ≠ right →
    t'.leaf a = t.leaf a ∧ t'.n a = t.n a ∧ t'.keys a = t.keys a ∧ t'.kids a = t.kids a
  parent : ∀ b, t.parent b ≠ some nd → t'.parent b = t.parent b
  inner : t.leaf nd = false → ∀ a, a = nd ∨ a = right → btreeMid - 1 ≤ (t'.keys a).length ∧
    t'.kids a ⊆ t.kids nd ∧ Inner t' (g.split nd right up leaves)
      (update (g.split nd right up leaves).hi nd ((g.split nd right up leaves).hi right)) a
  hooked : t.leaf nd = false → ∀ b ∈ t.kids nd, ∃ a, (a = nd ∨ a = right) ∧ t'.parent b = some a ∧ b ∈ t'.kids a
  below : ∀ s ∈ g.lo nd, s < up
  above : ∀ s ∈ g.hi nd, up < s

theorem Halved.pending {leaves : List Nat} (cut : Halved t t' g nd right up leaves)
    (shape : Shape t g g.hi none (some nd)) (live : nd ∈ g.live) (new : right ∉ g.live) (free : right < t.used) :
    Pending t' (g.split nd right up leaves) nd right up := by
  have ne : right ≠ nd := fun same => new (same ▸ live)
  have others : ∀ a ∈ g.live, a ≠ right := fun a inside same => new (same ▸ inside)
  obtain ⟨used, root⟩ := cut.frame
  have nodes : ∀ a ∈ insert right g.live, (a = nd ∨ a = right) ∨ a ∈ g.live ∧ a ≠ nd ∧ a ≠ right := fun a inside => by
    rw [Finset.mem_insert] at inside
    tauto
  have kinds : ∀ a ∈ g.live, t'.leaf a = t.leaf a := fun a inside => by
    by_cases same : a = nd
    · exact same ▸ (cut.half nd (.inl rfl)).1
    · exact (cut.other a same (others a inside)).1
  refine ⟨⟨cut.chain, fun a => ?_, ?_, ?_, ?_, ?_, fun a inside notLeaf => ?_, fun a inside notRoot loose => ?_,
    fun a inside => .inl ?_, fun a inside notLeaf => ?_⟩, ⟨Finset.mem_insert_of_mem live, Finset.mem_insert_self _ _⟩,
    ne, ?_, ⟨update_self .., update_self ..⟩, ?_, ?_, fun a inside notLeaf hooked => ?_, fun notLeaf => ?_⟩
  · refine (cut.listed a).trans ?_
    rw [Ghost.split, shape.leaves a]
    by_cases same : a = right
    · simp [same, new, (cut.half right (.inr rfl)).1]
    · by_cases old : a ∈ g.live
      · simp [same, kinds a old]
      · simp [same, old]
  · obtain ⟨here, parent, low, high⟩ := shape.root
    rw [root]
    exact ⟨Finset.mem_insert_of_mem here, (cut.parent _ (by simp [parent])).trans parent,
      (split_lo_other (others _ here)).trans low, (split_top ne (others _ here)).trans high⟩
  · rw [used]
    exact Finset.forall_mem_insert _ _ _ |>.mpr ⟨free, shape.fresh⟩
  · rw [used, root]
    exact lt_of_eq_of_lt (split_lvl_other (others _ shape.root.1)) shape.depth
  · refine Finset.forall_mem_insert _ _ _ |>.mpr ⟨?_, fun a old => ?_⟩
    · rw [(cut.half right (.inr rfl)).1]
      simpa [Ghost.split] using shape.ground nd live
    · rw [kinds a old, split_lvl_other (others a old)]
      exact shape.ground a old
  · rcases nodes a inside with half | ⟨old, one, two⟩
    · rw [(cut.half a half).1] at notLeaf
      exact (cut.inner notLeaf a half).2.2
    · obtain ⟨kind, _, keys, kids⟩ := cut.other a one two
      have whole := shape.inner a old (kind ▸ notLeaf)
      refine whole.congr keys kids (split_lvl_other two) (split_lo_other two)
        (split_hi_other two one) fun b member => ?_
      have apart := others b (whole.kid_live member)
      exact ⟨Finset.mem_insert_of_mem, fun parent => (cut.parent b (by simpa [parent] using one)).trans parent,
        split_lvl_other apart, split_lo_other apart, split_top ne apart⟩
  · rcases Finset.mem_insert.mp inside with rfl | old
    · contradiction
    · obtain ⟨p, here, notLeaf, parent, kid⟩ := shape.up a old (root ▸ notRoot) (by simp)
      by_cases same : p = nd
      · subst same
        -- A kid of the node that was cut is in one of its halves.
        obtain ⟨q, half, parent, kid⟩ := cut.hooked notLeaf a kid
        refine ⟨q, ?_, (cut.half q half).1.trans notLeaf, parent, kid⟩
        rcases half with rfl | rfl
        · exact Finset.mem_insert_of_mem here
        · exact Finset.mem_insert_self _ _
      · exact ⟨p, Finset.mem_insert_of_mem here, (kinds p here).trans notLeaf,
          (cut.parent a (by simpa [parent] using same)).trans parent,
          (cut.other p same (others p here)).2.2.2.symm ▸ kid⟩
  · rcases nodes a inside with half | ⟨old, one, two⟩
    · exact (cut.half a half).2
    · rw [(cut.other a one two).2.1]
      exact (shape.few a old).resolve_right fun full => one (some.inj full.1).symm
  · rw [root]
    rcases nodes a inside with half | ⟨old, one, two⟩
    · rw [(cut.half a half).1] at notLeaf
      have many := (cut.inner notLeaf a half).1
      exact ⟨le_trans (by decide) many, fun _ => many⟩
    · obtain ⟨kind, _, keys, _⟩ := cut.other a one two
      rw [keys]
      exact shape.many a old (kind ▸ notLeaf)
  · rw [split_lvl_other ne.symm]
    exact update_self ..
  · rw [split_lo_other ne.symm]
    exact cut.below
  · rw [split_hi ne]
    exact cut.above
  · rcases nodes a inside with half | ⟨old, one, two⟩
    · rw [(cut.half a half).1] at notLeaf
      exact new ((shape.inner nd live notLeaf).kid_live ((cut.inner notLeaf a half).2.1 hooked))
    · obtain ⟨kind, _, _, kids⟩ := cut.other a one two
      exact new ((shape.inner a old (kind ▸ notLeaf)).kid_live (kids ▸ hooked))
  · rw [kinds nd live] at notLeaf
    exact (cut.inner notLeaf nd (.inl rfl)).1

section Leaf

variable [Inhabited K]

theorem leaf_halves (right : Nat) (leafy : Leafy t g nd) (full : t.n nd = btreeOrder) :
    ∃ c rest, (t.cells nd).drop btreeMid = c :: rest ∧ (splitLeaf t nd right).2 = c.1 ∧
      (∀ d ∈ (t.cells nd).take btreeMid, d.1 < c.1) ∧ (∀ d ∈ (t.cells nd).drop btreeMid, c.1 ≤ d.1) ∧
      (∀ s ∈ g.lo nd, s < c.1) ∧ ∀ s ∈ g.hi nd, c.1 < s := by
  have length : (t.cells nd).length = 32 := by
    rw [leafy.n_eq] at full
    exact full
  have sorted := pairwise_map.mp leafy.sorted
  rw [← take_append_drop btreeMid (t.cells nd)] at sorted
  obtain ⟨_, later, cross⟩ := pairwise_append.mp sorted
  have some_ : (t.cells nd).drop btreeMid ≠ [] := by
    intro none
    have := congrArg List.length none
    rw [length_drop, length] at this
    simp [btreeMid, btreeOrder] at this
  obtain ⟨c, rest, parts⟩ := exists_cons_of_ne_nil some_
  have here : c ∈ t.cells nd := mem_of_mem_drop (parts ▸ mem_cons_self)
  have first : ∀ d ∈ (t.cells nd).take btreeMid, d.1 < c.1 := fun d member =>
    cross d member c (parts ▸ mem_cons_self)
  refine ⟨c, rest, parts, by simp [splitLeaf, parts], first, fun d member => ?_, fun s low => ?_,
    (leafy.within c here).2⟩
  · rw [parts] at member later
    rcases mem_cons.mp member with rfl | tail
    · exact le_rfl
    · exact ((pairwise_cons.mp later).1 d tail).le
  · -- The lower half is not empty, so its keys stand between the bound and `c`.
    obtain ⟨d, member⟩ : ∃ d, d ∈ (t.cells nd).take btreeMid :=
      exists_mem_of_length_pos (by rw [length_take, length]; decide)
    exact ((leafy.within d (mem_of_mem_take member)).1 s low).trans_lt (first d member)

theorem splitLeaf_chain (chain : LeafChain t g) {l₁ l₂ : List Nat} (split : g.leaves = l₁ ++ nd :: l₂)
    (full : t.n nd = btreeOrder) (new : right ∉ g.leaves) (small : ∀ a ∈ g.leaves, a < t.used)
    (free : right < t.used) :
    LeafChain (splitLeaf t nd right).1 (g.split nd right (splitLeaf t nd right).2 (l₁ ++ nd :: right :: l₂)) := by
  have member : nd ∈ g.leaves := by simp [split]
  have leafy := chain.leafy nd member
  have ne : right ≠ nd := fun same => new (same ▸ member)
  have linked := chain.linked
  rw [split] at linked
  have after := linked.next_eq
  obtain ⟨c, rest, parts, key, first, second, low, high⟩ := leaf_halves right leafy full
  have others : ∀ a ∈ g.leaves, a ≠ right := fun a inside same => new (same ▸ inside)
  have nodup := linked.nodup
  have left : ∀ a ∈ l₁, a ≠ nd := fun a inside same =>
    (nodup_append.mp nodup).2.2 a inside nd mem_cons_self same
  have later : ∀ a ∈ l₂, a ≠ nd := fun a inside same =>
    (nodup_cons.mp (nodup_append.mp nodup).2.1).1 (same ▸ inside)
  have links : Linked (splitLeaf t nd right).1.next (splitLeaf t nd right).1.prev (l₁ ++ nd :: right :: l₂) := by
    refine linked.insert (split ▸ new) (by simp [splitLeaf]) (fun b head => ?_) fun b other head => ?_
    · have inside : b ∈ g.leaves := by
        rw [split]
        exact mem_append_right _ (mem_cons_of_mem _ (mem_of_mem_head? head))
      simp only [splitLeaf, after, head, update_of_ne (others b inside), update_self]
    · simp only [splitLeaf, after, update_of_ne other]
      cases start : l₂.head? with
      | none => rfl
      | some x =>
        rw [start] at head
        simp only
        rw [update_of_ne fun same => head (by rw [same])]
  have cells : ∀ a ∈ g.leaves, a ≠ nd → (splitLeaf t nd right).1.cells a = t.cells a := fun a inside other => by
    simp only [splitLeaf, update_of_ne other, update_of_ne (others a inside)]
  have kept : (splitLeaf t nd right).1.cells nd = (t.cells nd).take btreeMid := by
    simp only [splitLeaf, update_self]
  have moved : (splitLeaf t nd right).1.cells right = (t.cells nd).drop btreeMid := by
    simp only [splitLeaf, update_of_ne ne, update_self]
  have kind : ∀ a ∈ g.leaves, (splitLeaf t nd right).1.leaf a = true := fun a inside => by
    simp only [splitLeaf, update_of_ne (others a inside)]
    exact (chain.leafy a inside).leaf
  have inLeaves : ∀ a, a ∈ l₁ ++ nd :: right :: l₂ → a = right ∨ a ∈ g.leaves := fun a inside => by
    rw [split]
    simp only [mem_append, mem_cons] at inside ⊢
    tauto
  rw [key]
  refine ⟨links, fun a inside => ?_, ?_, ?_, ?_, ?_⟩
  · rcases inLeaves a inside with rfl | old
    · -- The new leaf.
      refine ⟨by simp [splitLeaf], ?_, fun d here => ?_, ?_⟩
      · rw [moved, map_drop]
        exact leafy.sorted.sublist (drop_sublist _ _)
      · rw [moved] at here
        rw [split_lo, split_hi ne]
        exact ⟨by simpa using second d here, (leafy.within d (mem_of_mem_drop here)).2⟩
      · rw [split_lo, split_hi ne]
        simpa using high
    · by_cases same : a = nd
      · subst same
        refine ⟨kind a old, ?_, fun d here => ?_, ?_⟩
        · rw [kept, map_take]
          exact leafy.sorted.sublist (take_sublist _ _)
        · rw [kept] at here
          rw [split_lo_other (others a old), split_cut]
          exact ⟨(leafy.within d (mem_of_mem_take here)).1, by simpa using first d here⟩
        · rw [split_lo_other (others a old), split_cut]
          simpa using low
      · exact (chain.leafy a old).congr (update_of_ne (others a old) ..) (cells a old same)
          (split_lo_other (others a old))
          (split_hi_other (others a old) same)
  · -- The ranges still meet.
    have adjacent := chain.adjacent
    rw [split] at adjacent
    obtain ⟨before, behind, cross⟩ := isChain_append.mp adjacent
    have same : ∀ a ∈ l₁ ++ l₂, (g.split nd right c.1 (l₁ ++ nd :: right :: l₂)).hi a = g.hi a ∧
        (g.split nd right c.1 (l₁ ++ nd :: right :: l₂)).lo a = g.lo a := fun a inside => by
      have old : a ∈ g.leaves := by
        rw [split]
        simp only [mem_append, mem_cons] at inside ⊢
        tauto
      refine ⟨split_hi_other (others a old) ?_, split_lo_other (others a old)⟩
      rcases mem_append.mp inside with inside | inside
      · exact left a inside
      · exact later a inside
    refine isChain_append.mpr ⟨?_, isChain_cons_cons.mpr ⟨?_, ?_⟩, fun x last y head => ?_⟩
    · refine before.imp_of_mem_imp fun a b one two meets => ?_
      rwa [(same a (by simp [one])).1, (same b (by simp [two])).2]
    · exact ⟨c.1, split_cut, split_lo⟩
    · cases l₂ with
      | nil => exact isChain_singleton _
      | cons y l₂ =>
        obtain ⟨meets, behind⟩ := isChain_cons_cons.mp behind
        refine isChain_cons_cons.mpr ⟨?_, behind.imp_of_mem_imp fun a b one two meets => ?_⟩
        · rwa [split_hi ne, (same y (by simp)).2]
        · rwa [(same a (mem_append_right _ one)).1, (same b (mem_append_right _ two)).2]
    · cases head
      have meets := cross x last nd rfl
      rwa [(same x (mem_append_left _ (mem_of_mem_getLast? last))).1, split_lo_other ne.symm]
  · intro a head
    have old : a ∈ g.leaves.head? := by
      rw [split]
      cases l₁ <;> exact head
    rw [split_lo_other (others a (mem_of_mem_head? old))]
    exact chain.first a old
  · intro a final
    cases l₂ with
    | nil =>
      have same : right = a := by simpa [Ghost.split, getLast?_append] using final
      rw [← same, split_hi ne]
      exact chain.last nd (by simp [split])
    | cons y l₂ =>
      have inside : a ∈ (y :: l₂).getLast? := by
        simpa [Ghost.split, getLast?_append, getLast?_cons_cons] using final
      have old : a ∈ g.leaves := by
        rw [split]
        exact mem_append_right _ (mem_cons_of_mem _ (mem_of_mem_getLast? inside))
      rw [split_hi_other (others a old) (later a (mem_of_mem_getLast? inside))]
      exact chain.last a (by simpa [split, getLast?_append, getLast?_cons_cons] using inside)
  · refine nodup_bounded links.nodup fun a inside => ?_
    rcases inLeaves a inside with rfl | old
    · exact free
    · exact small a old

omit [LinearOrder K] in
theorem splitLeaf_content {l₁ l₂ : List Nat} (split : g.leaves = l₁ ++ nd :: l₂) (nodup : g.leaves.Nodup)
    (new : right ∉ g.leaves) :
    content (splitLeaf t nd right).1 (l₁ ++ nd :: right :: l₂) = content t g.leaves := by
  rw [split] at nodup new
  simp only [mem_append, mem_cons, not_or] at new
  obtain ⟨_, behind, apart⟩ := nodup_append.mp nodup
  have same : ∀ l, nd ∉ l → right ∉ l → content (splitLeaf t nd right).1 l = content t l :=
    fun l here there => flatMap_congr fun a member => by
      have one : a ≠ nd := fun same => here (same ▸ member)
      have two : a ≠ right := fun same => there (same ▸ member)
      simp only [splitLeaf, update_of_ne one, update_of_ne two]
  have left : nd ∉ l₁ := fun inside => apart nd inside nd mem_cons_self rfl
  have tail : nd ∉ l₂ := (nodup_cons.mp behind).1
  have cells : (splitLeaf t nd right).1.cells nd ++ (splitLeaf t nd right).1.cells right = t.cells nd := by
    simp only [splitLeaf, update_self, update_of_ne new.2.1]
    exact take_append_drop _ _
  rw [content_split split, ← cells]
  simp only [content, flatMap_append, flatMap_cons]
  have first := same l₁ left new.1
  have second := same l₂ tail new.2.2
  unfold content at first second
  rw [first, second]
  simp

theorem splitLeaf_pending (shape : Shape t g g.hi none (some nd)) (live : nd ∈ g.live)
    (kind : t.leaf nd = true) (full : t.n nd = btreeOrder) (new : right ∉ g.live) (free : right < t.used) :
    ∃ g', Pending (splitLeaf t nd right).1 g' nd right (splitLeaf t nd right).2 ∧
      content (splitLeaf t nd right).1 g'.leaves = content t g.leaves ∧
      g'.leaves.length = g.leaves.length + 1 ∧ g'.live = insert right g.live ∧
      ∀ a ∈ g.live, g'.lvl a = g.lvl a := by
  have member : nd ∈ g.leaves := (shape.leaves nd).mpr ⟨live, kind⟩
  obtain ⟨l₁, l₂, split⟩ := append_of_mem member
  have leafy := shape.chain.leafy nd member
  have unlisted : right ∉ g.leaves := fun inside => new ((shape.leaves right).mp inside).1
  have ne : right ≠ nd := fun same => new (same ▸ live)
  obtain ⟨c, rest, parts, key, first, second, low, high⟩ := leaf_halves right leafy full
  have length : (t.cells nd).length = 32 := by
    rw [leafy.n_eq] at full
    exact full
  have cut : Halved t (splitLeaf t nd right).1 g nd right (splitLeaf t nd right).2 (l₁ ++ nd :: right :: l₂) := by
    refine ⟨splitLeaf_chain shape.chain split full unlisted
      (fun a inside => shape.fresh a ((shape.leaves a).mp inside).1) free, fun a => ?_, ⟨rfl, rfl⟩, ?_,
      fun a one two => ⟨update_of_ne two .., n_congr (update_of_ne two ..) ?_ rfl, rfl, rfl⟩, fun _ _ => rfl,
      fun notLeaf => ?_, fun notLeaf => ?_, key ▸ low, key ▸ high⟩
    · rw [split, kind]
      simp only [mem_append, mem_cons]
      tauto
    · rintro a (rfl | rfl)
      · simp [Btree.n, Btree.keyArray, splitLeaf, update_of_ne ne.symm, kind, length, btreeMid, btreeOrder]
      · simp [Btree.n, Btree.keyArray, splitLeaf, update_of_ne ne, kind, length, btreeMid, btreeOrder]
    · simp only [splitLeaf, update_of_ne one, update_of_ne two]
    all_goals simp [kind] at notLeaf
  refine ⟨_, cut.pending shape live new free, splitLeaf_content split shape.chain.linked.nodup unlisted, ?_, rfl,
    fun a inside => split_lvl_other fun same => new (same ▸ inside)⟩
  simp [Ghost.split, split]
  omega

end Leaf

section InnerNode

theorem Inner.kid_inj {top : Nat → Option K} {a b i j : Nat} (inner : Inner t g top a)
    (first : (t.kids a)[i]? = some b) (second : (t.kids a)[j]? = some b) : i = j := by
  have less : ∀ {i j : Nat}, (t.kids a)[i]? = some b → (t.kids a)[j]? = some b → ¬ i < j := by
    intro i j first second lt
    have same := (inner.kid i b first).lo.symm.trans (inner.kid j b second).lo
    obtain ⟨bound, _⟩ := List.getElem?_eq_some_iff.mp second
    rw [inner.size] at bound
    obtain ⟨x, here⟩ : ∃ x, (t.keys a)[j - 1]? = some x := ⟨_, getElem?_eq_getElem (by omega)⟩
    rw [lowSep, lowSep, if_neg (by omega : ¬ j = 0), here] at same
    split_ifs at same with zero
    · exact absurd (inner.below x (mem_of_getElem? here) x same) (lt_irrefl x)
    · obtain ⟨one, eq⟩ := List.getElem?_eq_some_iff.mp same
      obtain ⟨two, eq'⟩ := List.getElem?_eq_some_iff.mp here
      have less := pairwise_iff_getElem.mp inner.sorted (i - 1) (j - 1) one two (by omega)
      rw [eq, eq'] at less
      exact lt_irrefl x less
  exact Nat.le_antisymm (Nat.le_of_not_lt (less second first)) (Nat.le_of_not_lt (less first second))

/-- The memory after the cut of the full inner node `nd` at its middle key. -/
structure InnerCut (t t' : Btree K V) (nd right : Nat) (up : K) : Prop where
  middle : (t.keys nd)[16]? = some up
  moved : ∀ b, b ∈ (t.kids nd).drop 17 → t'.parent b = some right
  stays : ∀ b, b ∉ (t.kids nd).drop 17 → t'.parent b = t.parent b
  keysNd : t'.keys nd = (t.keys nd).take 16
  kidsNd : t'.kids nd = (t.kids nd).take 17
  keysRight : t'.keys right = (t.keys nd).drop 17
  kidsRight : t'.kids right = (t.kids nd).drop 17
  others : ∀ a, a ≠ nd → a ≠ right → t'.keys a = t.keys a ∧ t'.kids a = t.kids a
  leafRight : t'.leaf right = false
  leaf : ∀ a, a ≠ right → t'.leaf a = t.leaf a
  frame : t'.cells = t.cells ∧ t'.next = t.next ∧ t'.prev = t.prev ∧ t'.used = t.used ∧ t'.root = t.root

omit [LinearOrder K] in
theorem splitInner_cut [Inhabited K] (ne : right ≠ nd) (length : (t.keys nd).length = 32) :
    InnerCut t (splitInner t nd right).1 nd right (splitInner t nd right).2 where
  middle := (getElem?_eq_getElem (by omega : 16 < _)).trans (by simp [splitInner, btreeMid, btreeOrder, length])
  moved _ inside := if_pos inside
  stays _ outside := if_neg outside
  keysNd := update_self ..
  kidsNd := update_self ..
  keysRight := (update_of_ne ne ..).trans (update_self ..)
  kidsRight := (update_of_ne ne ..).trans (update_self ..)
  others _ one two := ⟨(update_of_ne one ..).trans (update_of_ne two ..),
    (update_of_ne one ..).trans (update_of_ne two ..)⟩
  leafRight := update_self ..
  leaf _ other := update_of_ne other ..
  frame := ⟨rfl, rfl, rfl, rfl, rfl⟩

section Cut

variable {leaves : List Nat}

variable (cut : InnerCut t t' nd right up)
include cut

theorem InnerCut.innerLeft (inner : Inner t g g.hi nd)
    (length : (t.keys nd).length = 32) (new : right ∉ g.live) (live : nd ∈ g.live) :
    Inner t' (g.split nd right up leaves)
      (update (g.split nd right up leaves).hi nd ((g.split nd right up leaves).hi right)) nd := by
  have ne : right ≠ nd := fun same => new (same ▸ live)
  have size : (t.kids nd).length = 33 := by rw [inner.size, length]
  obtain ⟨inside, middle⟩ := List.getElem?_eq_some_iff.mp cut.middle
  refine ⟨?_, ?_, ?_, ?_, fun i b here => ?_⟩
  · rw [cut.keysNd]
    exact inner.sorted.sublist (take_sublist _ _)
  · rw [cut.keysNd, split_lo_other ne.symm]
    exact fun k member => inner.below k (mem_of_mem_take member)
  · rw [cut.keysNd, split_cut]
    intro k member s top
    cases top
    obtain ⟨j, lt, rfl⟩ := mem_take_iff_getElem.mp member
    rw [← middle]
    exact pairwise_iff_getElem.mp inner.sorted j 16 (by omega) inside (by omega)
  · rw [cut.keysNd, cut.kidsNd, length_take, length_take, length, size]
    rfl
  · rw [cut.kidsNd, getElem?_take] at here
    split_ifs at here with short
    have kid := inner.kid i b here
    have other : b ≠ right := fun same => new (same ▸ kid.live)
    have low : b ∉ (t.kids nd).drop 17 := fun there => by
      obtain ⟨j, there⟩ := getElem?_of_mem there
      rw [getElem?_drop] at there
      have := inner.kid_inj here there
      omega
    refine ⟨Finset.mem_insert_of_mem kid.live, (cut.stays b low).trans kid.parent, ?_, ?_, ?_⟩
    · rw [split_lvl_other other, split_lvl_other ne.symm]
      exact kid.lvl
    · rw [split_lo_other other, kid.lo, split_lo_other ne.symm, cut.keysNd, lowSep, lowSep]
      split_ifs with zero
      · rfl
      · rw [getElem?_take_of_lt (by omega)]
    · rw [split_top ne other, kid.top, split_cut, cut.keysNd, highSep, highSep]
      by_cases last : i = 16
      · subst last
        rw [cut.middle, getElem?_eq_none (by rw [length_take]; omega)]
        rfl
      · have short : i < 16 := by omega
        rw [getElem?_take_of_lt short, getElem?_eq_getElem (by omega)]
        rfl

theorem InnerCut.innerRight (inner : Inner t g g.hi nd)
    (length : (t.keys nd).length = 32) (new : right ∉ g.live) (live : nd ∈ g.live) :
    Inner t' (g.split nd right up leaves)
      (update (g.split nd right up leaves).hi nd ((g.split nd right up leaves).hi right)) right := by
  have ne : right ≠ nd := fun same => new (same ▸ live)
  have size : (t.kids nd).length = 33 := by rw [inner.size, length]
  have lvl : (g.split nd right up leaves).lvl right = g.lvl nd := update_self ..
  obtain ⟨inside, middle⟩ := List.getElem?_eq_some_iff.mp cut.middle
  refine ⟨?_, ?_, ?_, ?_, fun i b here => ?_⟩
  · rw [cut.keysRight]
    exact inner.sorted.sublist (drop_sublist _ _)
  · rw [cut.keysRight, split_lo]
    intro k member s bottom
    cases bottom
    obtain ⟨j, lt, rfl⟩ := mem_drop_iff_getElem.mp member
    rw [← middle]
    exact pairwise_iff_getElem.mp inner.sorted 16 (17 + j) inside (by omega) (by omega)
  · rw [cut.keysRight, split_hi ne]
    exact fun k member => inner.above k (mem_of_mem_drop member)
  · rw [cut.keysRight, cut.kidsRight, length_drop, length_drop, length, size]
  · rw [cut.kidsRight] at here
    have there := mem_of_getElem? here
    rw [getElem?_drop] at here
    have kid := inner.kid (17 + i) b here
    have other : b ≠ right := fun same => new (same ▸ kid.live)
    refine ⟨Finset.mem_insert_of_mem kid.live, cut.moved b there, ?_, ?_, ?_⟩
    · rw [split_lvl_other other, lvl]
      exact kid.lvl
    · rw [split_lo_other other, kid.lo, split_lo, cut.keysRight, lowSep, lowSep, if_neg (by omega)]
      split_ifs with zero
      · rw [zero]
        exact cut.middle
      · rw [getElem?_drop]
        congr 1
        omega
    · rw [split_top ne other, kid.top, split_hi ne, cut.keysRight, highSep, highSep, getElem?_drop]

theorem InnerCut.chain (chain : LeafChain t g) (outside : nd ∉ g.leaves)
    (new : right ∉ g.leaves) : LeafChain t' (g.split nd right up g.leaves) := by
  obtain ⟨cells, next, prev, used, _⟩ := cut.frame
  refine chain.congr rfl ⟨cells, next, prev, used⟩ fun a inside => ?_
  have other : a ≠ right := fun same => new (same ▸ inside)
  exact ⟨cut.leaf a other, split_lo_other other, split_hi_other other fun same => outside (same ▸ inside)⟩

end Cut

theorem InnerCut.pending (cut : InnerCut t t' nd right up) (shape : Shape t g g.hi none (some nd))
    (live : nd ∈ g.live) (kind : t.leaf nd = false) (length : (t.keys nd).length = 32)
    (new : right ∉ g.live) (free : right < t.used) :
    Pending t' (g.split nd right up g.leaves) nd right up := by
  have inner := shape.inner nd live kind
  have ne : right ≠ nd := fun same => new (same ▸ live)
  have outside : nd ∉ g.leaves := fun inside => by
    rw [((shape.leaves nd).mp inside).2] at kind
    contradiction
  have unlisted : right ∉ g.leaves := fun inside => new ((shape.leaves right).mp inside).1
  obtain ⟨cells, _, _, used, root⟩ := cut.frame
  have middle := mem_of_getElem? cut.middle
  have halved : Halved t t' g nd right up g.leaves := by
    refine ⟨cut.chain shape.chain outside unlisted, fun a => by simp [kind], ⟨used, root⟩, ?_, fun a one two => ?_,
      fun b elsewhere => cut.stays b fun there => ?_, fun _ => ?_, fun _ b member => ?_, inner.below up middle,
      inner.above up middle⟩
    · rintro a (rfl | rfl)
      · simp [Btree.n, Btree.keyArray, cut.leaf _ ne.symm, kind, cut.keysNd, length, btreeOrder]
      · simp [Btree.n, Btree.keyArray, cut.leafRight, kind, cut.keysRight, length, btreeOrder]
    · obtain ⟨keys, kids⟩ := cut.others a one two
      exact ⟨cut.leaf a two, n_congr (cut.leaf a two) (by rw [cells]) keys, keys, kids⟩
    · obtain ⟨j, there⟩ := getElem?_of_mem (mem_of_mem_drop there)
      exact elsewhere (inner.kid j b there).parent
    · rintro a (rfl | rfl)
      · refine ⟨?_, cut.kidsNd ▸ take_subset _ _, cut.innerLeft inner length new live⟩
        rw [cut.keysNd, length_take, length]
        decide
      · refine ⟨?_, cut.kidsRight ▸ drop_subset _ _, cut.innerRight inner length new live⟩
        rw [cut.keysRight, length_drop, length]
        decide
    · by_cases there : b ∈ (t.kids nd).drop 17
      · exact ⟨right, .inr rfl, cut.moved b there, cut.kidsRight ▸ there⟩
      · obtain ⟨j, at_⟩ := getElem?_of_mem member
        refine ⟨nd, .inl rfl, (cut.stays b there).trans (inner.kid j b at_).parent, ?_⟩
        rw [← take_append_drop 17 (t.kids nd)] at member
        rw [cut.kidsNd]
        exact (mem_append.mp member).resolve_right there
  exact halved.pending shape live new free

end InnerNode

end DynaJS.Ds
