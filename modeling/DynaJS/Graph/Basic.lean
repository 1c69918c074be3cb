import DynaJS.Lib.Heap
import DynaJS.Lib.Walk
import DynaJS.Engine.Strings

/-! The graph of `dyna-graph.c` and its binary heap of keyed nodes. Weights are exact numbers. -/
namespace DynaJS.Graph

open Function Engine Heap Walks List

/-- `dyn_graph_t`: for each node its edges in the order they were added. -/
structure DynGraph (K : Type) where
  directed : Bool
  weighted : Bool
  n : Nat
  m : Nat
  adj : Nat → List (Nat × K)
  inside : ∀ u, ∀ e ∈ adj u, u < n ∧ e.1 < n

section Build

variable {K : Type}

def graphCtor (directed weighted : Bool) : DynGraph K where
  directed := directed
  weighted := weighted
  n := 0
  m := 0
  adj := fun _ => []
  inside := fun _ _ member => absurd member not_mem_nil

variable (g : DynGraph K)

def graphEnsure (id : Nat) : DynGraph K := { g with
    n := max g.n (id + 1)
    inside := fun u e member => by
      have old := g.inside u e member
      omega }

def DynGraph.Edge (u v : Nat) (w : K) : Prop := (v, w) ∈ g.adj u

theorem DynGraph.Edge.ends {g : DynGraph K} {u v : Nat} {w : K} (edge : g.Edge u v w) : u < g.n ∧ v < g.n :=
  g.inside u (v, w) edge

def graphHasNegative [Zero K] [LT K] [DecidableLT K] : Bool :=
  (List.range g.n).any fun u => (g.adj u).any fun e => e.2 < 0

theorem graphHasNegative_iff [Zero K] [LinearOrder K] :
    graphHasNegative g = false ↔ ∀ u v w, g.Edge u v w → 0 ≤ w := by
  rw [graphHasNegative, any_eq_false]
  constructor
  · intro all u v w edge
    have none := all u (mem_range.mpr edge.ends.1)
    rw [Bool.not_eq_true, any_eq_false] at none
    simpa using none (v, w) edge
  · intro all u _
    rw [Bool.not_eq_true, any_eq_false]
    intro e member
    simpa using all u e.1 e.2 member

end Build

section Queue

variable {K : Type}

structure Item (K : Type) where
  key : K
  node : Nat
  deriving DecidableEq

structure Queue (K : Type) where
  a : Nat → Item K
  n : Nat

variable (a : Nat → Item K)

def swapItems (i j : Nat) : Nat → Item K := update (update a j (a i)) i (a j)

def Held (n : Nat) (x : Item K) : Prop := ∃ i, i < n ∧ a i = x

def Queue.Has (h : Queue K) (x : Item K) : Prop := Held h.a h.n x

variable {a} {n i : Nat} {h : Queue K}

theorem swapItems_held {j : Nat} (hi : i < n) (hj : j < n) (x : Item K) :
    Held (swapItems a i j) n x ↔ Held a n x := by
  have once : ∀ a, Held (swapItems a i j) n x → Held a n x := by
    rintro a ⟨k, hk, found⟩
    rw [swapItems] at found
    by_cases first : k = i
    · rw [first, update_self] at found
      exact ⟨j, hj, found⟩
    · rw [update_of_ne first] at found
      by_cases second : k = j
      · rw [second, update_self] at found
        exact ⟨i, hi, found⟩
      · rw [update_of_ne second] at found
        exact ⟨k, hk, found⟩
  have back : swapItems (swapItems a i j) i j = a := by
    funext k
    by_cases same : i = j
    · simp [swapItems, same]
    by_cases first : k = i
    · subst first
      simp [swapItems, Ne.symm same]
    · by_cases second : k = j
      · subst second
        simp [swapItems, first]
      · simp [swapItems, first, second]
  refine ⟨once a, fun held => once (swapItems a i j) ?_⟩
  rwa [back]

variable [LinearOrder K]

def pushUp : Nat → (Nat → Item K) → Nat → Nat → Item K
  | 0, a, _ => a
  | fuel + 1, a, i =>
    if 0 < i then
      if (a (parent i)).key ≤ (a i).key then a else pushUp fuel (swapItems a (parent i) i) (parent i)
    else a

def heapPush (h : Queue K) (key : K) (node : Nat) : Queue K :=
  ⟨pushUp (h.n + 1) (update h.a h.n ⟨key, node⟩) h.n, h.n + 1⟩

def popChild (a : Nat → Item K) (n i : Nat) : Nat :=
  let l := 2 * i + 1
  let r := 2 * i + 2
  let s := if l < n ∧ (a l).key < (a i).key then l else i
  if r < n ∧ (a r).key < (a s).key then r else s

def popDown (n : Nat) : Nat → (Nat → Item K) → Nat → Nat → Item K
  | 0, a, _ => a
  | fuel + 1, a, i => if popChild a n i = i then a else popDown n fuel (swapItems a (popChild a n i) i) (popChild a n i)

def heapPop (h : Queue K) : Option (Item K × Queue K) :=
  if h.n = 0 then none
  else some (h.a 0, ⟨popDown (h.n - 1) h.n (update h.a 0 (h.a (h.n - 1))) 0, h.n - 1⟩)

theorem pushUp_spec (fuel : Nat) (up : Up Item.key a n i (a i)) (inside : i < n) (enough : i < fuel) :
    Ordered Item.key (pushUp fuel a i) n ∧ ∀ x, Held (pushUp fuel a i) n x ↔ Held a n x := by
  induction fuel generalizing a i with
  | zero => omega
  | succ fuel ih =>
    rw [pushUp]
    by_cases top : 0 < i
    · have above := parent_lt top
      split_ifs with stop
      · exact ⟨up.rest fun _ => stop, fun x => Iff.rfl⟩
      · have moved := (up.move top inside (not_le.mp stop)).fill
        have value : swapItems a (parent i) i (parent i) = a i := by rw [swapItems, update_self]
        rw [show update (update a i (a (parent i))) (parent i) (a i) = swapItems a (parent i) i from rfl,
          ← value] at moved
        obtain ⟨ordered, same⟩ := ih moved (by omega) (by omega)
        exact ⟨ordered, fun x => (same x).trans (swapItems_held (by omega) inside x)⟩
    · rw [if_neg top]
      exact ⟨up.rest fun pos => absurd pos top, fun x => Iff.rfl⟩

theorem heapPush_spec (ordered : Ordered Item.key h.a h.n) (key : K) (node : Nat) :
    Ordered Item.key (heapPush h key node).a (heapPush h key node).n ∧
      ∀ x, (heapPush h key node).Has x ↔ x = ⟨key, node⟩ ∨ h.Has x := by
  have grown := (ordered.grow ⟨key, node⟩).fill
  have value : update h.a h.n (⟨key, node⟩ : Item K) h.n = ⟨key, node⟩ := update_self ..
  have up : Up Item.key (update h.a h.n ⟨key, node⟩) (h.n + 1) h.n
      (update h.a h.n (⟨key, node⟩ : Item K) h.n) := by rwa [value]
  obtain ⟨order, same⟩ := pushUp_spec (h.n + 1) up (Nat.lt_succ_self _) (Nat.lt_succ_self _)
  refine ⟨order, fun x => (same x).trans ⟨?_, ?_⟩⟩
  · rintro ⟨i, hi, found⟩
    by_cases last : i = h.n
    · rw [last, value] at found
      exact .inl found.symm
    · rw [update_of_ne last] at found
      exact .inr ⟨i, by omega, found⟩
  · rintro (rfl | ⟨i, hi, found⟩)
    · exact ⟨h.n, Nat.lt_succ_self _, value⟩
    · exact ⟨i, by omega, by rw [update_of_ne (by omega), found]⟩

theorem popChild_eq n i : popChild a n i = child Item.key a n i (a i) := (child_self ..).symm

theorem popDown_spec (fuel : Nat) (hole : Holed Item.key a n i)
    (above : 0 < i → (a (parent i)).key ≤ (a i).key) (enough : n ≤ i + fuel) :
    Ordered Item.key (popDown n fuel a i) n ∧ ∀ x, Held (popDown n fuel a i) n x ↔ Held a n x := by
  induction fuel generalizing a i with
  | zero =>
    refine ⟨Up.rest ⟨hole, fun c pos bound child => ?_⟩ above, fun x => Iff.rfl⟩
    have lower := parent_lt pos
    omega
  | succ fuel ih =>
    rw [popDown, popChild_eq]
    rcases child_spec Item.key a n i (a i) with ⟨stays, below⟩ | ⟨pos, inside, child, less, least⟩
    · rw [if_pos stays]
      exact ⟨Up.rest ⟨hole, below⟩ above, fun x => Iff.rfl⟩
    · have lower := parent_lt pos
      rw [if_neg (by omega)]
      generalize Heap.child Item.key a n i (a i) = m at *
      have moved := (hole.move pos inside child least).refill (a i)
      rw [show update (update a i (a m)) m (a i) = swapItems a m i from rfl] at moved
      have value : swapItems a m i m = a i := by rw [swapItems, update_self]
      have up : swapItems a m i i = a m := by rw [swapItems, update_of_ne (by omega), update_self]
      obtain ⟨ordered, same⟩ := ih moved (fun _ => by rw [child, value, up]; exact less.le) (by omega)
      exact ⟨ordered, fun x => (same x).trans (swapItems_held inside (by omega) x)⟩

structure Popped (h : Queue K) (it : Item K) (h' : Queue K) : Prop where
  ordered : Ordered Item.key h'.a h'.n
  size : h'.n + 1 = h.n
  was : h.Has it
  least : ∀ x, h.Has x → it.key ≤ x.key
  rest : ∀ x, h.Has x → x = it ∨ h'.Has x
  old : ∀ x, h'.Has x → h.Has x

theorem heapPop_none (empty : heapPop h = none) (x : Item K) : ¬h.Has x := by
  rw [heapPop] at empty
  split at empty
  · rename_i zero
    rintro ⟨i, hi, -⟩
    omega
  · contradiction

theorem heapPop_spec {h' : Queue K} {it : Item K} (ordered : Ordered Item.key h.a h.n)
    (pop : heapPop h = some (it, h')) : Popped h it h' := by
  rw [heapPop] at pop
  split at pop
  · contradiction
  rename_i some
  obtain ⟨rfl, rfl⟩ := Prod.mk.inj (Option.some.inj pop)
  have hole : Holed Item.key (update h.a 0 (h.a (h.n - 1))) (h.n - 1) 0 := by
    refine ⟨fun i pos bound other far => ?_, fun pos => absurd pos (lt_irrefl 0)⟩
    rw [update_of_ne other, update_of_ne far]
    exact ordered i pos (by omega)
  obtain ⟨order, same⟩ := popDown_spec h.n hole (fun pos => absurd pos (lt_irrefl 0)) (by omega)
  refine ⟨order, Nat.sub_add_cancel (Nat.pos_of_ne_zero some), ⟨0, Nat.pos_of_ne_zero some, rfl⟩, ?_, ?_, ?_⟩
  · rintro x ⟨i, hi, rfl⟩
    exact ordered.root i hi
  · rintro x ⟨i, hi, rfl⟩
    by_cases first : i = 0
    · exact .inl (by rw [first])
    · refine .inr ((same _).mpr ?_)
      by_cases last : i = h.n - 1
      · exact ⟨0, by omega, by rw [update_self, last]⟩
      · exact ⟨i, by omega, update_of_ne first ..⟩
  · intro x held
    obtain ⟨i, hi, found⟩ := (same x).mp held
    by_cases first : i = 0
    · rw [first] at found
      exact ⟨h.n - 1, by omega, found⟩
    · rw [update_of_ne first] at found
      exact ⟨i, by omega, found⟩

end Queue

end DynaJS.Graph
