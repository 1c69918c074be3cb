import DynaJS.Lib.Links
import DynaJS.Ds.BtreeShape

/-! Reading a B+tree along the chain of its leaves: lookups, iterators, and the
neighbours of a key, all against the list of the entries in order. -/
namespace DynaJS.Ds

open DynaJS.Chain DynaJS.Search List Option Prod

variable {K V : Type} [LinearOrder K] {t : Btree K V} {g : Ghost K}

def Before (g : Ghost K) (a b : Nat) : Prop := ∃ x y, g.hi a = some x ∧ g.lo b = some y ∧ x ≤ y

section Order

variable {l₁ l₂ : List Nat} {a : Nat} {k : K}

theorem pairwise_before {l : List Nat} (adjacent : l.IsChain fun a b => ∃ s, g.hi a = some s ∧ g.lo b = some s)
    (proper : ∀ a ∈ l, ∀ x ∈ g.lo a, ∀ y ∈ g.hi a, x < y) : l.Pairwise (Before g) := by
  induction l with
  | nil => exact .nil
  | cons a l ih =>
    cases l with
    | nil => exact pairwise_singleton _ _
    | cons b l =>
      obtain ⟨⟨s, high, low⟩, rest⟩ := isChain_cons_cons.mp adjacent
      have later := ih rest fun c member => proper c (mem_cons_of_mem _ member)
      refine pairwise_cons.mpr ⟨fun c member => ?_, later⟩
      rcases mem_cons.mp member with rfl | tail
      · exact ⟨s, s, high, low, le_rfl⟩
      · obtain ⟨x, y, ends, starts, le⟩ := (pairwise_cons.mp later).1 c tail
        have lt := proper b (by simp) s low x ends
        exact ⟨s, y, high, starts, lt.le.trans le⟩

theorem LeafChain.ordered (chain : LeafChain t g) : g.leaves.Pairwise (Before g) :=
  pairwise_before chain.adjacent fun a member => (chain.leafy a member).proper

theorem before_lt {b : Nat} (before : Before g a b) (left : Leafy t g a) (right : Leafy t g b) :
    ∀ c ∈ t.cells a, ∀ d ∈ t.cells b, c.1 < d.1 := by
  obtain ⟨x, y, high, low, le⟩ := before
  intro c first d second
  exact ((left.within c first).2 x high).trans_le (le.trans ((right.within d second).1 y low))

theorem LeafChain.content_sorted (chain : LeafChain t g) : (content t g.leaves).Pairwise fun c d => c.1 < d.1 := by
  refine pairwise_flatMap.mpr ⟨fun a member => ?_, ?_⟩
  · exact pairwise_map.mp (chain.leafy a member).sorted
  · refine List.Pairwise.imp_of_mem (fun {a b} first second before => ?_) chain.ordered
    exact before_lt before (chain.leafy a first) (chain.leafy b second)

/-- A key in the range of a leaf lies between the entries of the leaves around it. -/
theorem LeafChain.around (chain : LeafChain t g) (split : g.leaves = l₁ ++ a :: l₂)
    (within : Within (g.lo a) (g.hi a) k) :
    (∀ c ∈ content t l₁, c.1 < k) ∧ ∀ c ∈ content t l₂, k < c.1 := by
  have ordered := chain.ordered
  rw [split] at ordered
  obtain ⟨_, later, cross⟩ := pairwise_append.mp ordered
  constructor
  · intro c member
    obtain ⟨b, here, inside⟩ := mem_flatMap.mp member
    obtain ⟨x, y, high, low, le⟩ := cross b here a mem_cons_self
    have leafy := chain.leafy b (by simp [split, here])
    exact ((leafy.within c inside).2 x high).trans_le (le.trans (within.1 y low))
  · intro c member
    obtain ⟨b, here, inside⟩ := mem_flatMap.mp member
    obtain ⟨x, y, high, low, le⟩ := (pairwise_cons.mp later).1 b here
    have leafy := chain.leafy b (by simp [split, here])
    exact (within.2 x high).trans_le (le.trans ((leafy.within c inside).1 y low))

omit [LinearOrder K] in
theorem content_split (split : g.leaves = l₁ ++ a :: l₂) :
    content t g.leaves = content t l₁ ++ (t.cells a ++ content t l₂) := by
  simp [content, split]

theorem mem_content_here (chain : LeafChain t g) (split : g.leaves = l₁ ++ a :: l₂)
    (within : Within (g.lo a) (g.hi a) k) (cs : List (K × V)) (v : V) :
    (k, v) ∈ content t l₁ ++ (cs ++ content t l₂) ↔ (k, v) ∈ cs := by
  obtain ⟨below, above⟩ := chain.around split within
  rw [mem_append, mem_append]
  constructor
  · rintro (low | here | high)
    · exact absurd (below _ low) (lt_irrefl k)
    · exact here
    · exact absurd (above _ high) (lt_irrefl k)
  · exact fun here => .inr (.inl here)

end Order

section Cells

variable {a : Nat} {k : K}

section

variable (leafy : Leafy t g a)
include leafy

theorem Leafy.keyArray : t.keyArray a = (t.cells a).map fst := by
  simp [Btree.keyArray, leafy.leaf]

theorem Leafy.n_eq : t.n a = (t.cells a).length := by
  simp [Btree.n, leafy.keyArray]

theorem Leafy.cut (k : K) : Cut ((t.cells a).map fst) k (btreeLower (t.keyArray a) k) := by
  rw [leafy.keyArray]
  exact btreeLower_cut leafy.sorted k

theorem Leafy.unique {c d : K × V} (first : c ∈ t.cells a) (second : d ∈ t.cells a) (same : c.1 = d.1) : c = d :=
  inj_on_of_nodup_map (leafy.sorted.imp ne_of_lt) first second same

theorem Leafy.cellAt_iff (c : K × V) : cellAt t a k = some c ↔ c ∈ t.cells a ∧ c.1 = k := by
  have cut := leafy.cut k
  unfold cellAt
  rw [filter_eq_some_iff, decide_eq_true_eq]
  constructor
  · rintro ⟨here, key⟩
    exact ⟨mem_of_getElem? here, key⟩
  · rintro ⟨member, key⟩
    have found := (cut.getElem?_iff leafy.sorted).mpr (mem_map.mpr ⟨c, member, key⟩)
    rw [getElem?_map] at found
    obtain ⟨d, here, same⟩ := map_eq_some_iff.mp found
    rw [leafy.unique member (mem_of_getElem? here) (key.trans same.symm)]
    exact ⟨here, same⟩

end

theorem btreeGet_iff {full : Option Nat} (shape : Shape t g g.hi none full) (k : K) (v : V) :
    btreeGet t k = some v ↔ (k, v) ∈ content t g.leaves := by
  obtain ⟨member, within⟩ := btreeFindLeaf_spec shape k
  obtain ⟨l₁, l₂, split⟩ := append_of_mem member
  have leafy := shape.chain.leafy _ member
  rw [content_split split, mem_content_here shape.chain split within, btreeGet, map_eq_some_iff]
  constructor
  · rintro ⟨⟨x, w⟩, found, rfl⟩
    obtain ⟨here, rfl⟩ := (leafy.cellAt_iff _).mp found
    exact here
  · intro here
    exact ⟨(k, v), (leafy.cellAt_iff _).mpr ⟨here, rfl⟩, rfl⟩

end Cells

section Iterators

inductive At (t : Btree K V) (g : Ghost K) : BtreeIter → List (K × V) → Prop where
  | done (i : Nat) : At t g ⟨none, i⟩ []
  | cell {l₁ l₂ : List Nat} {nd i : Nat} (split : g.leaves = l₁ ++ nd :: l₂) (inside : i < (t.cells nd).length) :
      At t g ⟨some nd, i⟩ ((t.cells nd).drop i ++ content t l₂)

variable {rest : List (K × V)}

omit [LinearOrder K] in
theorem At.get {it : BtreeIter} (here : At t g it rest) : btreeIterGet t it = rest.head? := by
  cases here with
  | done i => rfl
  | cell split inside =>
    rw [drop_eq_getElem_cons inside]
    exact getElem?_eq_getElem inside

variable {l₁ l₂ : List Nat}

section

variable (chain : LeafChain t g)
include chain

theorem nextLoop_at (fuel i : Nat) {nd : Nat} (split : g.leaves = l₁ ++ nd :: l₂) (enough : l₂.length + 1 < fuel) :
    At t g (nextLoop t fuel (some nd) i) ((t.cells nd).drop i ++ content t l₂) := by
  induction fuel generalizing l₁ l₂ nd i with
  | zero => omega
  | succ fuel ih =>
    rw [nextLoop, (chain.leafy nd (by simp [split])).n_eq]
    by_cases past : (t.cells nd).length ≤ i
    · have linked := chain.linked
      rw [split] at linked
      rw [if_pos past, linked.next_eq, drop_of_length_le past]
      cases l₂ with
      | nil =>
        obtain ⟨fuel, rfl⟩ := Nat.exists_eq_succ_of_ne_zero (by simp at enough; omega : fuel ≠ 0)
        exact .done 0
      | cons b l₂ =>
        have rest := ih 0 (show g.leaves = (l₁ ++ [nd]) ++ b :: l₂ by simp [split]) (by simpa using enough)
        simpa [content] using rest
    · rw [if_neg past]
      exact .cell split (by omega)

theorem LeafChain.fuel {nd : Nat} (split : g.leaves = l₁ ++ nd :: l₂) : l₁.length + l₂.length + 1 ≤ t.used := by
  have few := chain.few
  rw [split] at few
  simp only [length_append, length_cons] at few
  omega

theorem At.next {it : BtreeIter} (here : At t g it rest) : At t g (btreeIterNext t it) rest.tail := by
  cases here with
  | done i => exact .done i
  | @cell l₁ l₂ nd i split inside =>
    rw [drop_eq_getElem_cons inside]
    exact nextLoop_at chain (t.used + 1) (i + 1) split (by have := chain.fuel split; omega)

theorem At.read {it : BtreeIter} (here : At t g it rest)
    (fuel : Nat) (enough : rest.length ≤ fuel) : btreeIterRead t fuel it = rest := by
  induction fuel generalizing it rest with
  | zero =>
    rw [length_eq_zero_iff.mp (Nat.le_zero.mp enough)]
    rfl
  | succ fuel ih =>
    rw [btreeIterRead, here.get]
    cases rest with
    | nil => rfl
    | cons c rest =>
      have tail := ih (here.next chain) (by simpa using enough)
      simpa using tail

omit [LinearOrder K] chain in
theorem content_nil {l : List Nat} (empty : ∀ a ∈ l, t.cells a = []) : content t l = [] :=
  flatMap_eq_nil_iff.mpr empty

theorem LeafChain.suffix (split : g.leaves = l₁ ++ l₂) : Seg t.next t.prev (l₁.getLast?.or none) l₂ none := by
  have links := chain.linked.links
  rw [split] at links
  exact ((seg_append ..).mp links).2

/-- The search for a leaf that is not empty passes no entry. -/
theorem find_filled {l : List Nat} (inside : l ⊆ g.leaves) :
    (l.find? (fun a => decide (t.n a ≠ 0)) = none ∧ ∀ a ∈ l, t.cells a = []) ∨
    ∃ nd m₁ m₂, l.find? (fun a => decide (t.n a ≠ 0)) = some nd ∧ l = m₁ ++ nd :: m₂ ∧ 0 < t.n nd ∧
      ∀ a ∈ m₁, t.cells a = [] := by
  have empty : ∀ a ∈ l, t.n a = 0 → t.cells a = [] := fun a member zero => by
    rw [(chain.leafy a (inside member)).n_eq] at zero
    exact length_eq_zero_iff.mp zero
  cases found : l.find? fun a => decide (t.n a ≠ 0) with
  | none => exact .inl ⟨rfl, fun a member => empty a member (by simpa using find?_eq_none.mp found a member)⟩
  | some nd =>
    obtain ⟨hit, m₁, m₂, rfl, skipped⟩ := find?_eq_some_iff_append.mp found
    exact .inr ⟨nd, m₁, m₂, rfl, rfl, Nat.pos_of_ne_zero (by simpa using hit), fun a member =>
      empty a (mem_append_left _ member) (by simpa using skipped a member)⟩

theorem skipEmpty_at (split : g.leaves = l₁ ++ l₂) :
    At t g ⟨skipEmpty t l₂.head?, 0⟩ (content t l₂) ∧ ∀ nd, skipEmpty t l₂.head? = some nd → 0 < t.n nd := by
  have few : l₂.length < t.used + 1 := by
    have := chain.few
    rw [split, length_append] at this
    omega
  rw [skipEmpty, Links.seg_walk _ (Links.seg_chain (chain.suffix split)) _ few]
  rcases find_filled chain (by simp [split] : l₂ ⊆ g.leaves) with ⟨found, empty⟩ | ⟨nd, m₁, m₂, found, rfl, size, empty⟩
  · rw [found, content_nil empty]
    exact ⟨.done 0, by simp⟩
  · rw [found]
    refine ⟨?_, fun b same => some.inj same ▸ size⟩
    rw [(chain.leafy nd (by simp [split])).n_eq] at size
    have here : At t g ⟨some nd, 0⟩ ((t.cells nd).drop 0 ++ content t m₂) :=
      .cell (show g.leaves = (l₁ ++ m₁) ++ nd :: m₂ by simp [split]) size
    have same : content t (m₁ ++ nd :: m₂) = (t.cells nd).drop 0 ++ content t m₂ := by
      simp only [content, flatMap_append, flatMap_cons, drop_zero]
      rw [flatMap_eq_nil_iff.mpr empty, nil_append]
    rwa [same]

end

end Iterators

section Ends

variable {full : Option Nat}

theorem LeafChain.head_eq (chain : LeafChain t g) {a : Nat} (member : a ∈ g.leaves) (low : g.lo a = none) :
    g.leaves.head? = some a := by
  obtain ⟨l₁, l₂, split⟩ := append_of_mem member
  cases l₁ with
  | nil => rw [split]; rfl
  | cons b l₁ =>
    have ordered := chain.ordered
    rw [split] at ordered
    obtain ⟨_, y, _, starts, _⟩ := (pairwise_append.mp ordered).2.2 b mem_cons_self a mem_cons_self
    rw [low] at starts
    contradiction

theorem LeafChain.last_eq (chain : LeafChain t g) {a : Nat} (member : a ∈ g.leaves) (high : g.hi a = none) :
    ∃ l, g.leaves = l ++ [a] := by
  obtain ⟨l₁, l₂, split⟩ := append_of_mem member
  cases l₂ with
  | nil => exact ⟨l₁, split⟩
  | cons b l₂ =>
    have ordered := chain.ordered
    rw [split] at ordered
    obtain ⟨x, _, ends, _⟩ := (pairwise_cons.mp (pairwise_append.mp ordered).2.1).1 b mem_cons_self
    rw [high] at ends
    contradiction

/-- The place of a key in its leaf divides all entries. -/
theorem LeafChain.divided (chain : LeafChain t g) {l₁ l₂ : List Nat} {nd : Nat} {k : K}
    (split : g.leaves = l₁ ++ nd :: l₂) (within : Within (g.lo nd) (g.hi nd) k) :
    (∀ i, content t g.leaves = (content t l₁ ++ (t.cells nd).take i) ++ ((t.cells nd).drop i ++ content t l₂)) ∧
    (∀ c ∈ content t l₁ ++ (t.cells nd).take (btreeLower (t.keyArray nd) k), c.1 < k) ∧
    (∀ c ∈ (t.cells nd).drop (btreeLower (t.keyArray nd) k), k ≤ c.1) ∧ ∀ c ∈ content t l₂, k < c.1 := by
  obtain ⟨below, above⟩ := chain.around split within
  have cut := (chain.leafy nd (by simp [split])).cut k
  refine ⟨fun i => ?_, fun c here => ?_, fun c here => ?_, above⟩
  · rw [content_split split, append_assoc, ← append_assoc (List.take _ _), take_append_drop]
  · rcases mem_append.mp here with low | low
    · exact below c low
    · exact cut.below c.1 (by rw [← map_take]; exact mem_map_of_mem low)
  · exact cut.above c.1 (by rw [← map_drop]; exact mem_map_of_mem here)

section

variable (shape : Shape t g g.hi none full)
include shape

theorem btreeLeftmost_eq : some (btreeLeftmost t) = g.leaves.head? := by
  obtain ⟨member, first⟩ := btreeLeftmost_spec shape
  exact (shape.chain.head_eq member first).symm

theorem btreeIterBegin_at : At t g (btreeIterBegin t) (content t g.leaves) := by
  rw [btreeIterBegin, btreeLeftmost_eq shape]
  exact (skipEmpty_at shape.chain (nil_append _).symm).1

theorem btreeFirst_eq : btreeFirst t = (content t g.leaves).head?.map fst := by
  rw [btreeFirst, (btreeIterBegin_at shape).get]

theorem btreeIterSeek_at (k : K) :
    ∃ low high, content t g.leaves = low ++ high ∧ (∀ c ∈ low, c.1 < k) ∧ (∀ c ∈ high, k ≤ c.1) ∧
      At t g (btreeIterSeek t k) high := by
  have chain := shape.chain
  obtain ⟨member, within⟩ := btreeFindLeaf_spec shape k
  obtain ⟨l₁, l₂, split⟩ := append_of_mem member
  have leafy := chain.leafy _ member
  obtain ⟨whole, below, above, later⟩ := chain.divided split within
  have enough := chain.fuel split
  rw [btreeIterSeek]
  generalize btreeFindLeaf t k = nd at *
  generalize btreeLower (t.keyArray nd) k = i at *
  refine ⟨_, _, whole i, below, fun c here => ?_, ?_⟩
  · rcases mem_append.mp here with high | high
    · exact above c high
    · exact (later c high).le
  · obtain ⟨fuel, same⟩ : ∃ f, t.used + 1 = f + 2 := ⟨t.used - 1, by omega⟩
    rw [same, seekLoop, leafy.n_eq]
    by_cases past : (t.cells nd).length ≤ i
    · have linked := chain.linked
      rw [split] at linked
      rw [if_pos past, linked.next_eq, drop_of_length_le past]
      obtain ⟨rest, size⟩ := skipEmpty_at chain (show g.leaves = (l₁ ++ [nd]) ++ l₂ by simp [split])
      cases skipped : skipEmpty t l₂.head? with
      | none =>
        rw [skipped] at rest
        exact rest
      | some b =>
        rw [skipped] at rest
        rw [seekLoop, if_neg (by have := size b skipped; omega)]
        exact rest
    · rw [if_neg past]
      exact .cell split (by omega)

theorem btreeCeil_eq (k : K) :
    ∃ low high, content t g.leaves = low ++ high ∧ (∀ c ∈ low, c.1 < k) ∧ (∀ c ∈ high, k ≤ c.1) ∧
      btreeCeil t k = high.head?.map fst := by
  obtain ⟨low, high, whole, below, above, here⟩ := btreeIterSeek_at shape k
  exact ⟨low, high, whole, below, above, by rw [btreeCeil, here.get]⟩

theorem btreeLast_eq : btreeLast t = (content t g.leaves).getLast?.map fst := by
  have chain := shape.chain
  obtain ⟨member, final⟩ := rightmost_spec shape
  obtain ⟨l, split⟩ := chain.last_eq member final
  have back := chain.linked.reverse
  have start : some (rightmostLoop t t.used t.root) = g.leaves.reverse.head? := by
    rw [split, reverse_append]
    rfl
  have few := chain.few
  rw [btreeLast, start, Links.seg_walk _ (Links.seg_chain back.links) _ (by rw [length_reverse]; omega)]
  rcases find_filled chain (reverse_subset.mpr (Subset.refl _)) with
    ⟨found, empty⟩ | ⟨nd, m₁, m₂, found, whole, size, empty⟩
  · rw [found, content_nil fun a inside => empty a (mem_reverse.mpr inside)]
    rfl
  · have split : g.leaves = m₂.reverse ++ nd :: m₁.reverse := by
      rw [← reverse_reverse g.leaves, whole]
      simp
    have leafy := chain.leafy nd (by simp [split])
    have some_ : t.cells nd ≠ [] := by
      intro none
      simp [leafy.n_eq, none] at size
    rw [found, content_split split, content_nil fun a inside => empty a (mem_reverse.mp inside), append_nil,
      getLast?_append_of_ne_nil _ some_,
      bind_some, leafy.keyArray, leafy.n_eq, getElem?_map, getLast?_eq_getElem?]

omit shape in
/-- The loop of `dyn_btree_floor` ends behind the last entry before a position. -/
theorem floorLoop_eq (chain : LeafChain t g) (fuel nd i : Nat) {l₁ l₂ : List Nat}
    (split : g.leaves = l₁ ++ nd :: l₂) (inside : i ≤ (t.cells nd).length) (enough : l₁.length + 1 < fuel) :
    ((floorLoop t fuel (some nd) i).leaf.bind fun a =>
        if (floorLoop t fuel (some nd) i).i = 0 then none
        else (t.keyArray a)[(floorLoop t fuel (some nd) i).i - 1]?) =
      (content t l₁ ++ (t.cells nd).take i).getLast?.map fst := by
  induction fuel generalizing l₁ l₂ nd i with
  | zero => omega
  | succ fuel ih =>
    by_cases zero : i = 0
    · have back := chain.linked
      rw [split] at back
      have back := back.prev_eq
      rcases eq_nil_or_concat' l₁ with rfl | ⟨l₁, b, rfl⟩
      · obtain ⟨fuel, rfl⟩ := Nat.exists_eq_succ_of_ne_zero (by simp at enough; omega : fuel ≠ 0)
        simp [floorLoop, zero, back, content]
      · rw [getLast?_concat] at back
        have leafy := chain.leafy b (by simp [split])
        have rest := ih b (t.n b) (show g.leaves = l₁ ++ b :: nd :: l₂ by simp [split])
          (by rw [leafy.n_eq]) (by simpa using enough)
        simp only [floorLoop, zero, if_true, back, map_some, getD_some]
        rw [rest, leafy.n_eq, take_length]
        simp [content]
    · have leafy := chain.leafy nd (by simp [split])
      have some_ : (t.cells nd).take i ≠ [] := by
        intro none
        have := congrArg List.length none
        simp only [length_take, length_nil] at this
        omega
      simp only [floorLoop, if_neg zero, bind_some, leafy.keyArray, getElem?_map]
      rw [getLast?_append_of_ne_nil _ some_, getLast?_eq_getElem?, length_take,
        Nat.min_eq_left inside, getElem?_take_of_lt (by omega)]

theorem btreeFloor_eq (k : K) :
    ∃ low high, content t g.leaves = low ++ high ∧ (∀ c ∈ low, c.1 ≤ k) ∧ (∀ c ∈ high, k < c.1) ∧
      btreeFloor t k = low.getLast?.map fst := by
  have chain := shape.chain
  obtain ⟨member, within⟩ := btreeFindLeaf_spec shape k
  obtain ⟨l₁, l₂, split⟩ := append_of_mem member
  have leafy := chain.leafy _ member
  have cut := leafy.cut k
  obtain ⟨whole, lower, upper, above⟩ := chain.divided split within
  have enough := chain.fuel split
  rw [btreeFloor]
  generalize btreeFindLeaf t k = nd at *
  have keys := leafy.keyArray
  generalize btreeLower (t.keyArray nd) k = i at *
  by_cases hit : (t.keyArray nd)[i]? = some k
  · -- The entry of `k` itself is the last one not above it.
    rw [if_pos hit]
    rw [keys, getElem?_map] at hit
    obtain ⟨c, here, rfl⟩ := map_eq_some_iff.mp hit
    obtain ⟨inside, same⟩ := List.getElem?_eq_some_iff.mp here
    have sorted := pairwise_map.mp leafy.sorted
    have parts : (t.cells nd).take (i + 1) = (t.cells nd).take i ++ [c] := by
      rw [take_succ_eq_append_getElem inside, same]
    refine ⟨_, _, whole (i + 1), fun d low => ?_, fun d high => ?_, ?_⟩
    · rw [parts, ← append_assoc] at low
      rcases mem_append.mp low with low | last
      · exact (lower d low).le
      · rw [mem_singleton.mp last]
    · rcases mem_append.mp high with high | high
      · have later := sorted.sublist (drop_sublist i (t.cells nd))
        rw [drop_eq_getElem_cons inside, same] at later
        exact (pairwise_cons.mp later).1 d high
      · exact above d high
    · rw [parts, ← append_assoc, getLast?_concat]
      rfl
  · rw [if_neg hit]
    have new : ∀ c ∈ (t.cells nd).drop i, k < c.1 := fun c here => by
      refine lt_of_le_of_ne (upper c here) fun same => hit ?_
      rw [keys, cut.getElem?_iff leafy.sorted, same]
      exact mem_map_of_mem (mem_of_mem_drop here)
    refine ⟨_, _, whole i, fun c low => (lower c low).le, fun c high => ?_, ?_⟩
    · rcases mem_append.mp high with high | high
      · exact new c high
      · exact above c high
    · have inside := cut.inside
      rw [length_map] at inside
      exact floorLoop_eq chain (t.used + 1) nd i split inside (by omega)

end

end Ends

section Keys

omit [LinearOrder K] in
theorem writeKeys_append (out : Nat → Option K) (n : Nat) (l m : List K) :
    writeKeys (writeKeys out n l) (n + l.length) m = writeKeys out n (l ++ m) := by
  funext j
  unfold writeKeys
  rw [length_append]
  by_cases first : n ≤ j ∧ j < n + l.length
  · rw [if_neg (by omega), if_pos first, if_pos (by omega), getElem?_append_left (by omega)]
  · by_cases second : n + l.length ≤ j ∧ j < n + l.length + m.length
    · rw [if_pos second, if_pos (by omega), getElem?_append_right (by omega)]
      congr 1
      omega
    · rw [if_neg second, if_neg first, if_neg (by omega)]

/-- The loop of `dyn_btree_get_keys` writes the keys of the leaves ahead, as long as
their number fits in a `uint32_t`. -/
theorem keysLoop_eq (chain : LeafChain t g) (fuel n : Nat) (out : Nat → Option K) {l₁ l₂ : List Nat}
    (split : g.leaves = l₁ ++ l₂) (enough : l₂.length < fuel)
    (fits : n + (content t l₂).length < 2 ^ 32) :
    keysLoop t fuel l₂.head? n out = (n + (content t l₂).length, writeKeys out n ((content t l₂).map fst)) := by
  induction l₂ generalizing fuel n out l₁ with
  | nil =>
    have same : writeKeys out n [] = out := by
      funext j
      exact if_neg (by simp)
    cases fuel with
    | zero => omega
    | succ fuel => simp [keysLoop, content, same]
  | cons a l₂ ih =>
    obtain ⟨fuel, rfl⟩ : ∃ f, fuel = f + 1 := ⟨fuel - 1, by omega⟩
    have leafy := chain.leafy a (by simp [split])
    have linked := chain.linked
    rw [split] at linked
    have later : g.leaves = (l₁ ++ [a]) ++ l₂ := by simp [split]
    have size : (content t (a :: l₂)).length = t.n a + (content t l₂).length := by
      rw [leafy.n_eq]
      simp [content]
    have keys : (content t (a :: l₂)).map fst = t.keyArray a ++ (content t l₂).map fst := by
      rw [leafy.keyArray]
      simp [content]
    rw [size] at fits ⊢
    rw [length_cons] at enough
    rw [head?_cons, keysLoop, linked.next_eq, keys]
    by_cases empty : t.n a ≠ 0
    · rw [if_pos empty, Nat.mod_eq_of_lt (by omega),
        ih fuel _ _ later (by omega) (by omega), ← writeKeys_append, ← Nat.add_assoc]
      rfl
    · have none : t.keyArray a = [] := length_eq_zero_iff.mp (not_not.mp empty)
      rw [if_neg empty, ih fuel _ _ later (by omega) (by omega), none, not_not.mp empty]
      simp

theorem btreeGetKeys_eq {full : Option Nat} (shape : Shape t g g.hi none full)
    (fits : (content t g.leaves).length < 2 ^ 32) :
    btreeGetKeys t = ((content t g.leaves).length, fun j => ((content t g.leaves).map fst)[j]?) := by
  have few := shape.chain.few
  rw [btreeGetKeys, btreeLeftmost_eq shape,
    keysLoop_eq shape.chain _ 0 _ (nil_append _).symm (by omega) (by omega), Nat.zero_add]
  congr 1
  funext j
  unfold writeKeys
  split_ifs with inside
  · rfl
  · rw [getElem?_eq_none (by omega)]

end Keys

end DynaJS.Ds
