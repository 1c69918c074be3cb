import DynaJS.Lib.Heap
import DynaJS.Ds.MmHeapTrickle

/-! Runs of the min-max heap as a double-ended priority queue: what is stored is
what was pushed less what was popped, and both ends are extremal. -/
namespace DynaJS.Ds

open Multiset

variable {P V : Type}

section Nodes

variable (h : Mmheap P V)

theorem mmSwap_nodes {i j : Nat} (hi : i < h.len) (hj : j < h.len) : (mmSwap h i j).nodes = h.nodes := by
  have same : (mmSwap h i j).v = h.v ∘ Equiv.swap i j := by
    funext k
    simp only [mmSwap, Function.comp_apply, Equiv.swap_apply_def]
    split_ifs <;> rfl
  unfold Mmheap.nodes
  rw [same, mmSwap_len, Heap.map_swap h.v hi hj]

theorem nodes_grow (node : MmNode P V) (cap : Nat) :
    Mmheap.nodes ⟨fun k => if k = h.len then node else h.v k, h.len + 1, cap⟩ = node ::ₘ h.nodes := by
  unfold Mmheap.nodes
  simp only [range_succ, map_cons, if_true]
  congr 1
  refine map_congr rfl fun k hk => ?_
  rw [if_neg (Nat.ne_of_lt (mem_range.mp hk))]

theorem nodes_shrink {i n : Nat} (len : h.len = n + 1) (hi : i ≤ n) : h.nodes = h.v i ::ₘ
      Mmheap.nodes ⟨fun k => if k = i then h.v n else h.v k, n, h.cap⟩ := by
  rw [← mmSwap_nodes h (i := i) (j := n) (by omega) (by omega)]
  unfold Mmheap.nodes
  rw [mmSwap_len, len, range_succ, map_cons, mmSwap_right]
  congr 1
  refine map_congr rfl fun k hk => ?_
  have before : k ≠ n := Nat.ne_of_lt (mem_range.mp hk)
  by_cases same : k = i
  · subst same
    rw [mmSwap_left]
    exact (if_pos rfl).symm
  · rw [mmSwap_other h same before]
    exact (if_neg same).symm

theorem nodes_empty : h.nodes = 0 ↔ h.len = 0 := by
  rw [← card_eq_zero]
  simp [Mmheap.nodes]

theorem mem_nodes {h : Mmheap P V} {node : MmNode P V} : node ∈ h.nodes ↔ ∃ i, i < h.len ∧ h.v i = node := by
  simp [Mmheap.nodes]

structure SameNodes (h h' : Mmheap P V) : Prop where
  len : h'.len = h.len
  cap : h'.cap = h.cap
  nodes : h'.nodes = h.nodes

theorem SameNodes.refl : SameNodes h h := ⟨rfl, rfl, rfl⟩

theorem SameNodes.trans {h₁ h₂ h₃ : Mmheap P V} (s : SameNodes h₁ h₂) (t : SameNodes h₂ h₃) : SameNodes h₁ h₃ :=
  ⟨t.len.trans s.len, t.cap.trans s.cap, t.nodes.trans s.nodes⟩

theorem sameNodes_swap {i j : Nat} (hi : i < h.len) (hj : j < h.len) : SameNodes h (mmSwap h i j) :=
  ⟨rfl, rfl, mmSwap_nodes h hi hj⟩

variable [Preorder P] [DecidableLT P]

theorem bubbleUpDir_same (fuel : Nat) (h : Mmheap P V) (i : Nat) (d : Bool) (hi : i < h.len) :
    SameNodes h (mmBubbleUpDir fuel h i d) := by
  induction fuel generalizing h i with
  | zero => exact .refl h
  | succ fuel ih =>
    simp only [mmBubbleUpDir]
    split_ifs
    · have swap := sameNodes_swap h (j := (i - 3) / 4) hi (by omega)
      exact swap.trans (ih _ _ (by rw [swap.len]; omega))
    · exact .refl h
    · exact .refl h

theorem bubbleUp_same {i : Nat} (hi : i < h.len) : SameNodes h (mmBubbleUp h i) := by
  rcases Nat.eq_zero_or_pos i with rfl | pos
  · exact .refl h
  · rw [mmBubbleUp_eq h pos]
    split_ifs
    · have swap := sameNodes_swap h (j := (i - 1) / 2) hi (by omega)
      exact swap.trans (bubbleUpDir_same _ _ _ _ (by rw [swap.len]; omega))
    · exact bubbleUpDir_same _ _ _ _ hi

variable [@Std.Total P (· ≤ ·)]

theorem trickleDownDir_same (fuel : Nat) (h : Mmheap P V) (i : Nat) (d : Bool) (hi : i < h.len) :
    SameNodes h (mmTrickleDownDir fuel h i d) := by
  induction fuel generalizing h i with
  | zero => exact .refl h
  | succ fuel ih =>
    rcases mmTrickleDownDir_cases fuel h i d with
      ⟨done, _⟩ | ⟨m, inside, _, _, ⟨done, _⟩ | ⟨h', done, deep, _, _, swaps⟩⟩
    · rw [done]
      exact .refl h
    · rw [done]
      exact sameNodes_swap h inside hi
    · have swap := sameNodes_swap h inside hi
      have again : SameNodes h h' := by
        rcases swaps with rfl | rfl
        · exact swap
        · exact swap.trans (sameNodes_swap _ (by rw [swap.len]; exact inside) (by rw [swap.len]; omega))
      rw [done]
      exact again.trans (ih _ _ (by rw [again.len]; exact inside))

theorem trickleDown_same {i : Nat} (hi : i < h.len) : SameNodes h (mmTrickleDown h i) :=
  trickleDownDir_same _ _ _ _ hi

end Nodes

variable [Preorder P] [DecidableLT P]

structure Mmheap.Wf (h : Mmheap P V) : Prop where
  ordered : Ordered h
  room : h.len ≤ h.cap
  capacity : Capacity h.cap

variable (memory : Nat → MmNode P V)

omit [DecidableLT P] in
theorem mmheapNew_wf : (mmheapNew memory).Wf :=
  ⟨fun _ _ inside => absurd inside (Nat.not_lt_zero _), Nat.le_refl _, .inl rfl⟩

variable [@Std.Total P (· ≤ ·)]

variable {h : Mmheap P V}

/-- A push that returns 0 stores its node; one that returns -1 changes nothing,
and is refused only for want of memory or of a slot. -/
theorem mmheapPush_spec (wf : h.Wf) (pri : P) (val : V) (ok : Bool) :
    let r := mmheapPush h pri val ok
    (r.1 = 0 ∧ r.2.Wf ∧ r.2.nodes = ⟨pri, val⟩ ::ₘ h.nodes) ∨ (r = (-1, h) ∧ (ok = false ∨ h.len = 2 ^ 31)) := by
  unfold mmheapPush
  cases reserved : dsReserve h.cap (h.len + 1) mmnodeSize ok with
  | none =>
    refine .inr ⟨rfl, ?_⟩
    have most := capacity_le wf.capacity
    have room := wf.room
    by_contra refused
    simp only [not_or, Bool.not_eq_false] at refused
    have granted : (dsReserve _ (h.len + 1) _ true).isSome :=
      dsReserve_succeeds wf.capacity (by omega) (by decide : 0 < mmnodeSize) (by decide)
    rw [refused.1] at reserved
    rw [reserved] at granted
    contradiction
  | some cap =>
    have sound := dsReserve_sound wf.capacity reserved
    have same := bubbleUp_same (h := ⟨fun k => if k = h.len then ⟨pri, val⟩ else h.v k, h.len + 1, cap⟩)
      (Nat.lt_succ_self _)
    refine .inl ⟨rfl, ⟨bubbleUp_ordered rfl fun u j hj above => ?_, ?_, ?_⟩, ?_⟩
    · have up : u < h.len := by unfold Above at above; omega
      simp only [if_neg (Nat.ne_of_lt hj), if_neg (Nat.ne_of_lt up)]
      exact wf.ordered u j hj above
    · simp only [same.len, same.cap]
      exact sound.1
    · simp only [same.cap]
      exact sound.2.2
    · simp only [same.nodes]
      exact nodes_grow h _ cap

omit [DecidableLT P] [@Std.Total P (· ≤ ·)] in
/-- Replacing one of the first three nodes by the last leaves a heap that is
ordered but for that node. -/
theorem popAt_falling (o : Ordered h) {i n : Nat} (len : h.len = n + 1) (hi : i < n) (top : i ≤ 2) :
    Falling ⟨fun k => if k = i then h.v n else h.v k, n, h.cap⟩ i := by
  constructor
  · intro u j hj above away
    simp only [if_neg away]
    by_cases same : j = i
    · subst same
      obtain rfl : u = 0 := by unfold Above at above; omega
      simp only [if_true, maxLevel_zero]
      exact ordered_root o n (by omega)
    · simp only [if_neg same]
      exact o u j (by simp only at hj; omega) above
  · intro three
    omega

theorem mmPopAt_spec (wf : h.Wf) {i : Nat} (top : i ≤ 2) (hi : h.len ≠ 0 → i < h.len) :
    (h.len = 0 ∧ mmPopAt h i = none) ∨
    (i < h.len ∧ ∃ h', mmPopAt h i = some (h.v i, h') ∧ h'.Wf ∧ h.nodes = h.v i ::ₘ h'.nodes) := by
  rcases Nat.eq_zero_or_pos h.len with empty | pos
  · exact .inl ⟨empty, by simp [mmPopAt, empty]⟩
  · refine .inr ⟨hi (by omega), ?_⟩
    obtain ⟨n, len⟩ : ∃ n, h.len = n + 1 := ⟨h.len - 1, by omega⟩
    have room := wf.room
    have shrink := nodes_shrink h len (by omega : i ≤ n)
    simp only [mmPopAt, len, Nat.succ_ne_zero, if_false, Nat.add_sub_cancel]
    by_cases last : i = n
    · rw [if_neg (by simpa using last)]
      refine ⟨_, rfl, ⟨fun u j hj above => ?_, ?_, wf.capacity⟩, ?_⟩
      · exact wf.ordered u j (by simp only at hj; omega) above
      · simp only
        omega
      · rw [shrink]
        congr 1
        refine map_congr rfl fun k hk => ?_
        have : k ≠ i := by have := mem_range.mp hk; simp only at this; omega
        simp only [if_neg this]
    · rw [if_pos last]
      have same := trickleDown_same (h := ⟨fun k => if k = i then h.v n else h.v k, n, h.cap⟩)
        (i := i) (by simp only; omega)
      refine ⟨_, rfl, ⟨?_, ?_, ?_⟩, ?_⟩
      · exact trickleDownDir_ordered n _ i (popAt_falling wf.ordered len (by omega) top) (Nat.le_add_right _ _)
      · rw [same.len, same.cap]
        simp only
        omega
      · rw [same.cap]
        exact wf.capacity
      · rw [same.nodes]
        exact shrink

variable [DecidableLE P]

omit [DecidableLT P] in
theorem mmMaxIndex_spec (o : Ordered h) (some : h.len ≠ 0) :
    mmMaxIndex h < h.len ∧ ∀ k, k < h.len → (h.v k).pri ≤ (h.v (mmMaxIndex h)).pri := by
  have root : ∀ j, j < h.len → (h.v 0).pri ≤ (h.v j).pri := ordered_root o
  have most : ∀ k, k < h.len → 1 < h.len → (h.v k).pri ≤ (h.v 1).pri ∨
      (2 < h.len ∧ (h.v k).pri ≤ (h.v 2).pri) := fun k hk two => by
    rcases Nat.eq_zero_or_pos k with rfl | pos
    · exact .inl (root 1 two)
    · exact ordered_top o k pos hk
  unfold mmMaxIndex
  split_ifs with one two left
  · refine ⟨by omega, fun k hk => ?_⟩
    obtain rfl : k = 0 := by omega
    exact le_refl _
  · refine ⟨by omega, fun k hk => ?_⟩
    exact (most k hk (by omega)).elim id fun bad => by omega
  · refine ⟨by omega, fun k hk => ?_⟩
    exact (most k hk (by omega)).elim id fun right => right.2.trans left
  · refine ⟨by omega, fun k hk => ?_⟩
    have right := (total_of (· ≤ ·) (h.v 1).pri (h.v 2).pri).resolve_right left
    exact (most k hk (by omega)).elim (·.trans right) And.right

inductive MmOp (P V : Type) where
  | push (pri : P) (val : V) (ok : Bool)
  | popMin
  | popMax

/-- The heap together with what its callers have put in and got out. -/
structure MmLedger (P V : Type) where
  heap : Mmheap P V
  pushed : Multiset (MmNode P V)
  popped : Multiset (MmNode P V)

def mmStep (s : MmLedger P V) : MmOp P V → MmLedger P V
  | .push pri val ok =>
    let r := mmheapPush s.heap pri val ok
    ⟨r.2, if r.1 = 0 then ⟨pri, val⟩ ::ₘ s.pushed else s.pushed, s.popped⟩
  | .popMin =>
    match mmheapPopMin s.heap with
    | none => s
    | some (node, heap) => ⟨heap, s.pushed, node ::ₘ s.popped⟩
  | .popMax =>
    match mmheapPopMax s.heap with
    | none => s
    | some (node, heap) => ⟨heap, s.pushed, node ::ₘ s.popped⟩

def mmRun (ops : List (MmOp P V)) : MmLedger P V :=
  ops.foldl mmStep ⟨mmheapNew memory, 0, 0⟩

def Balanced (s : MmLedger P V) : Prop := s.heap.Wf ∧ s.heap.nodes + s.popped = s.pushed

omit [DecidableLT P] [@Std.Total P (· ≤ ·)] [DecidableLE P] in
theorem balanced_pop {s : MmLedger P V} (b : Balanced s) {node : MmNode P V} {heap : Mmheap P V}
    (wf : heap.Wf) (taken : s.heap.nodes = node ::ₘ heap.nodes) :
    Balanced ⟨heap, s.pushed, node ::ₘ s.popped⟩ := by
  refine ⟨wf, ?_⟩
  rw [← b.2, taken, add_cons, cons_add]

theorem mmStep_balanced {s : MmLedger P V} (b : Balanced s) (op : MmOp P V) : Balanced (mmStep s op) := by
  cases op with
  | push pri val ok =>
    simp only [mmStep]
    rcases mmheapPush_spec b.1 pri val ok with ⟨done, wf, nodes⟩ | ⟨refused, _⟩
    · refine ⟨wf, ?_⟩
      simp only [done, if_true, nodes, ← b.2, cons_add]
    · rw [refused]
      exact b
  | popMin =>
    simp only [mmStep, mmheapPopMin]
    rcases mmPopAt_spec b.1 (i := 0) (by omega) (by omega) with ⟨_, none⟩ | ⟨_, h', done, wf, taken⟩
    · rw [none]
      exact b
    · rw [done]
      exact balanced_pop b wf taken
  | popMax =>
    have low : mmMaxIndex s.heap ≤ 2 := by unfold mmMaxIndex; split_ifs <;> omega
    simp only [mmStep, mmheapPopMax]
    rcases mmPopAt_spec b.1 low fun some => (mmMaxIndex_spec b.1.ordered some).1 with
      ⟨_, none⟩ | ⟨_, h', done, wf, taken⟩
    · rw [none]
      exact b
    · rw [done]
      exact balanced_pop b wf taken

theorem mmRun_balanced (ops : List (MmOp P V)) : Balanced (mmRun memory ops) := by
  refine List.foldlRecOn ops mmStep
    ⟨mmheapNew_wf memory, rfl⟩ fun s b op _ => mmStep_balanced b op

/-- An end of the queue: the node both its pop and its peek report, or nothing
when no node is stored. -/
def EndsAt (stored : Multiset (MmNode P V)) (leads : P → P → Prop)
    (pop : Option (MmNode P V × Mmheap P V)) (peek : Option (MmNode P V)) : Prop :=
  peek = pop.map Prod.fst ∧ (pop = none ↔ stored = 0) ∧ ∀ node heap, pop = some (node, heap) →
      node ∈ stored ∧ (∀ other ∈ stored, leads node.pri other.pri) ∧ stored = node ::ₘ heap.nodes

omit [DecidableLE P] in
theorem endsAt_popAt (wf : h.Wf) {i : Nat} (top : i ≤ 2) (inside : h.len ≠ 0 → i < h.len) (leads : P → P → Prop)
    (best : ∀ k, k < h.len → leads (h.v i).pri (h.v k).pri) :
    EndsAt h.nodes leads (mmPopAt h i) (if h.len = 0 then none else some (h.v i)) := by
  rcases mmPopAt_spec wf top inside with ⟨empty, none⟩ | ⟨hi, h', done, _, taken⟩
  · rw [none, if_pos empty]
    refine ⟨rfl, ?_, fun _ _ bad => by contradiction⟩
    simp [nodes_empty, empty]
  · have nonempty : h.len ≠ 0 := by omega
    rw [done, if_neg nonempty]
    refine ⟨rfl, ?_, fun node heap eq => ?_⟩
    · simp [nodes_empty, nonempty]
    · cases Option.some.inj eq
      refine ⟨mem_nodes.mpr ⟨i, hi, rfl⟩, fun other member => ?_, taken⟩
      obtain ⟨k, hk, rfl⟩ := mem_nodes.mp member
      exact best k hk

end DynaJS.Ds
