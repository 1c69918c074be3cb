import DynaJS.Lib.Search
import DynaJS.Ds.Btree

/-! The shape of a B+tree in memory: every live node has a range of keys, the ranges
of the kids tile that of their parent, and the leaves tile the line in chain order. -/
namespace DynaJS.Ds

open DynaJS.Chain DynaJS.Search List Option

variable {K V : Type} [LinearOrder K]

/-- What the memory does not say about its nodes: which are live, their height above
the leaves, the bounds of their ranges (`none` is unbounded), and the leaves in order. -/
structure Ghost (K : Type) where
  live : Finset Nat
  lvl : Nat → Nat
  lo : Nat → Option K
  hi : Nat → Option K
  leaves : List Nat

def Within (lo hi : Option K) (k : K) : Prop := (∀ s ∈ lo, s ≤ k) ∧ ∀ s ∈ hi, k < s

def lowSep (keys : List K) (lo : Option K) (i : Nat) : Option K := if i = 0 then lo else keys[i - 1]?

def highSep (keys : List K) (hi : Option K) (i : Nat) : Option K := keys[i]?.or hi

structure Kid (t : Btree K V) (g : Ghost K) (top : Nat → Option K) (a i b : Nat) : Prop where
  live : b ∈ g.live
  parent : t.parent b = some a
  lvl : g.lvl b + 1 = g.lvl a
  lo : g.lo b = lowSep (t.keys a) (g.lo a) i
  top : top b = highSep (t.keys a) (g.hi a) i

structure Inner (t : Btree K V) (g : Ghost K) (top : Nat → Option K) (a : Nat) : Prop where
  sorted : (t.keys a).Pairwise (· < ·)
  below : ∀ k ∈ t.keys a, ∀ s ∈ g.lo a, s < k
  above : ∀ k ∈ t.keys a, ∀ s ∈ g.hi a, k < s
  size : (t.kids a).length = (t.keys a).length + 1
  kid : ∀ i b, (t.kids a)[i]? = some b → Kid t g top a i b

structure Leafy (t : Btree K V) (g : Ghost K) (a : Nat) : Prop where
  leaf : t.leaf a = true
  sorted : ((t.cells a).map Prod.fst).Pairwise (· < ·)
  within : ∀ c ∈ t.cells a, Within (g.lo a) (g.hi a) c.1
  proper : ∀ x ∈ g.lo a, ∀ y ∈ g.hi a, x < y

structure LeafChain (t : Btree K V) (g : Ghost K) : Prop where
  linked : Linked t.next t.prev g.leaves
  leafy : ∀ a ∈ g.leaves, Leafy t g a
  adjacent : g.leaves.IsChain fun a b => ∃ s, g.hi a = some s ∧ g.lo b = some s
  first : ∀ a ∈ g.leaves.head?, g.lo a = none
  last : ∀ a ∈ g.leaves.getLast?, g.hi a = none
  few : g.leaves.length ≤ t.used

/-- The shape of a tree. While `btree_split` runs, the node `full` may be full, and
the new node `loose` may not be hooked into its parent yet. -/
structure Shape (t : Btree K V) (g : Ghost K) (top : Nat → Option K) (loose full : Option Nat) : Prop where
  chain : LeafChain t g
  leaves : ∀ a, a ∈ g.leaves ↔ a ∈ g.live ∧ t.leaf a = true
  root : t.root ∈ g.live ∧ t.parent t.root = none ∧ g.lo t.root = none ∧ top t.root = none
  fresh : ∀ a ∈ g.live, a < t.used
  depth : g.lvl t.root < t.used
  ground : ∀ a ∈ g.live, t.leaf a = true ↔ g.lvl a = 0
  inner : ∀ a ∈ g.live, t.leaf a = false → Inner t g top a
  up : ∀ a ∈ g.live, a ≠ t.root → loose ≠ some a → ∃ p ∈ g.live, t.leaf p = false ∧ t.parent a = some p ∧ a ∈ t.kids p
  few : ∀ a ∈ g.live, t.n a < btreeOrder ∨ (full = some a ∧ t.n a = btreeOrder)
  many : ∀ a ∈ g.live, t.leaf a = false → 1 ≤ (t.keys a).length ∧ (a ≠ t.root → btreeMid - 1 ≤ (t.keys a).length)

abbrev Rests (t : Btree K V) (g : Ghost K) : Prop := Shape t g g.hi none none

def content (t : Btree K V) (l : List Nat) : List (K × V) := l.flatMap t.cells

theorem btreeLower_cut {l : List K} (sorted : l.Pairwise (· < ·)) (k : K) : Cut l k (btreeLower l k) := by
  induction l with
  | nil => exact ⟨Nat.le_refl _, by simp, by simp⟩
  | cons x xs ih =>
    obtain ⟨above, sorted⟩ := pairwise_cons.mp sorted
    by_cases less : x < k
    · obtain ⟨inside, below, rest⟩ := ih sorted
      simp only [btreeLower, if_pos less]
      refine ⟨Nat.succ_le_succ inside, ?_, by simpa using rest⟩
      simpa [less] using below
    · simp only [btreeLower, if_neg less]
      refine ⟨Nat.zero_le _, by simp, fun v member => ?_⟩
      rcases mem_cons.mp member with rfl | later
      · exact le_of_not_gt less
      · exact (le_of_not_gt less).trans (above v later).le

section Routing

variable {t : Btree K V} {g : Ghost K} {full : Option Nat}

theorem Inner.kid_exists {top : Nat → Option K} {a i : Nat} (inner : Inner t g top a)
    (inside : i ≤ (t.keys a).length) :
    (t.kids a)[i]? = some ((t.kids a).getD i 0) := by
  have lt : i < (t.kids a).length := by
    rw [inner.size]
    omega
  rw [getD_eq_getElem?_getD, getElem?_eq_getElem lt]
  rfl

theorem Inner.route {a : Nat} {k : K} (inner : Inner t g g.hi a) (within : Within (g.lo a) (g.hi a) k) :
    ∃ i b : Nat, (t.kids a)[i]? = some b ∧ Within (g.lo b) (g.hi b) k ∧
      b = (t.kids a).getD (if (t.keys a)[btreeLower (t.keys a) k]? = some k
        then btreeLower (t.keys a) k + 1 else btreeLower (t.keys a) k) 0 := by
  have cut := btreeLower_cut inner.sorted k
  generalize btreeLower (t.keys a) k = i at cut ⊢
  by_cases hit : (t.keys a)[i]? = some k
  · obtain ⟨inside, same⟩ := List.getElem?_eq_some_iff.mp hit
    rw [if_pos hit]
    have here := inner.kid_exists (show i + 1 ≤ _ by omega)
    have kid := inner.kid _ _ here
    refine ⟨i + 1, _, here, ⟨fun s low => ?_, fun s high => ?_⟩, rfl⟩
    · simp only [kid.lo, lowSep, Nat.succ_ne_zero, if_false, Nat.add_sub_cancel, hit,
        mem_def, some.injEq] at low
      exact le_of_eq low.symm
    · rw [kid.top] at high
      unfold highSep at high
      cases next : (t.keys a)[i + 1]? with
      | none =>
        rw [next] at high
        exact within.2 s high
      | some x =>
        rw [next] at high
        cases high
        obtain ⟨inside', rfl⟩ := List.getElem?_eq_some_iff.mp next
        rw [← same]
        exact pairwise_iff_getElem.mp inner.sorted i (i + 1) inside inside' (Nat.lt_succ_self i)
  · rw [if_neg hit]
    have here := inner.kid_exists cut.inside
    have kid := inner.kid _ _ here
    refine ⟨i, _, here, ⟨fun s low => ?_, fun s high => ?_⟩, rfl⟩
    · rw [kid.lo, lowSep] at low
      split_ifs at low with zero
      · exact within.1 s low
      · refine (cut.below s ?_).le
        obtain ⟨inside, rfl⟩ := List.getElem?_eq_some_iff.mp low
        exact mem_take_iff_getElem.mpr ⟨i - 1, by omega, rfl⟩
    · rw [kid.top] at high
      unfold highSep at high
      cases next : (t.keys a)[i]? with
      | none =>
        rw [next] at high
        exact within.2 s high
      | some x =>
        rw [next] at high hit
        cases high
        have member : s ∈ (t.keys a).drop i := by
          rw [← head?_drop] at next
          exact mem_of_mem_head? next
        refine lt_of_le_of_ne (cut.above s member) fun same => hit (by rw [same])

section

variable (shape : Shape t g g.hi none full)
include shape

/-- A loop from the root down to a leaf, given what one step down keeps. -/
theorem Shape.descend {loop : Nat → Nat → Nat} {next : Nat → Nat} {P : Nat → Prop}
    (eq : ∀ fuel a, loop (fuel + 1) a = if t.leaf a then a else loop fuel (next a))
    (step : ∀ a, t.leaf a = false → Inner t g g.hi a → P a → ∃ i : Nat, (t.kids a)[i]? = some (next a) ∧ P (next a))
    (top : P t.root) : loop t.used t.root ∈ g.leaves ∧ P (loop t.used t.root) := by
  have down fuel a (live : a ∈ g.live) (here : P a) (enough : g.lvl a < fuel) :
      loop fuel a ∈ g.leaves ∧ P (loop fuel a) := by
    induction fuel generalizing a with
    | zero => omega
    | succ fuel ih =>
      cases kind : t.leaf a with
      | true =>
        rw [eq, if_pos kind]
        exact ⟨(shape.leaves a).mpr ⟨live, kind⟩, here⟩
      | false =>
        have inner := shape.inner a live kind
        obtain ⟨i, there, lower⟩ := step a kind inner here
        have kid := inner.kid i _ there
        rw [eq, if_neg (by simp [kind])]
        exact ih _ kid.live lower (by have := kid.lvl; omega)
  exact down t.used t.root shape.root.1 top shape.depth

theorem btreeFindLeaf_spec (k : K) : btreeFindLeaf t k ∈ g.leaves ∧
      Within (g.lo (btreeFindLeaf t k)) (g.hi (btreeFindLeaf t k)) k := by
  refine shape.descend (P := fun a => Within (g.lo a) (g.hi a) k) (fun _ _ => rfl) (fun a _ inner within => ?_) ?_
  · obtain ⟨i, b, here, inside, rfl⟩ := inner.route within
    exact ⟨i, here, inside⟩
  · obtain ⟨_, _, low, high⟩ := shape.root
    simp [Within, low, high]

theorem btreeLeftmost_spec : btreeLeftmost t ∈ g.leaves ∧ g.lo (btreeLeftmost t) = none := by
  refine shape.descend (P := fun a => g.lo a = none) (fun _ _ => rfl) (fun a _ inner low => ?_) shape.root.2.2.1
  have here := inner.kid_exists (Nat.zero_le _)
  exact ⟨0, here, by rw [(inner.kid 0 _ here).lo, lowSep, if_pos rfl, low]⟩

theorem rightmost_spec : rightmostLoop t t.used t.root ∈ g.leaves ∧ g.hi (rightmostLoop t t.used t.root) = none := by
  refine shape.descend (P := fun a => g.hi a = none) (fun _ _ => rfl) (fun a kind inner high => ?_) shape.root.2.2.2
  have last : t.n a = (t.keys a).length := by simp [Btree.n, Btree.keyArray, kind]
  have here := inner.kid_exists last.le
  refine ⟨t.n a, here, ?_⟩
  rw [(inner.kid _ _ here).top, highSep, high, or_none, getElem?_eq_none last.ge]

end

end Routing

end DynaJS.Ds
