import DynaJS.Graph.Dijkstra

/-! `dyn_graph_bellman_ford` and `dyn_graph_floyd`: shortest paths by relaxing edges in place,
with negative cycles found by an improvement that comes too late, or on the diagonal. -/
namespace DynaJS.Graph

open Engine Walks List
open Function (forall_update_iff update update_self)
open WithTop (coe_add coe_inj coe_zero)

variable {K : Type} [AddCommGroup K] [LinearOrder K]

/-- The edges of `u` in one round of `dyn_graph_bellman_ford`, with the flag `changed`. Exact
sums are never `-Infinity`. -/
def bellmanEdges (last : Bool) (u : Nat) : List (Nat × K) → (Nat → WithTop K) → Bool →
    Except Thrown ((Nat → WithTop K) × Bool)
  | [], dist, changed => .ok (dist, changed)
  | (v, w) :: es, dist, changed =>
    if dist u + w < dist v then
      if last then .error (.rangeError "bellmanFord: negative cycle")
      else bellmanEdges last u es (update dist v (dist u + w)) true
    else bellmanEdges last u es dist changed

def bellmanNodes (g : DynGraph K) (last : Bool) : List Nat → (Nat → WithTop K) → Bool →
    Except Thrown ((Nat → WithTop K) × Bool)
  | [], dist, changed => .ok (dist, changed)
  | u :: us, dist, changed =>
    if dist u = ⊤ then bellmanNodes g last us dist changed
    else
      match bellmanEdges last u (g.adj u) dist changed with
      | .error e => .error e
      | .ok (dist, changed) => bellmanNodes g last us dist changed

def bellmanRounds (g : DynGraph K) : Nat → (Nat → WithTop K) → Except Thrown (Nat → WithTop K)
  | 0, dist => .ok dist
  | left + 1, dist =>
    match bellmanNodes g (left == 0) (List.range g.n) dist false with
    | .error e => .error e
    | .ok (dist, changed) => if changed then bellmanRounds g left dist else .ok dist

def graphBellmanFord (g : DynGraph K) (src : Nat) : Except Thrown (Nat → WithTop K) :=
  if g.n ≤ src then .error (.rangeError "source out of range")
  else bellmanRounds g g.n (update (fun _ => ⊤) src 0)

def floydMaxN : Nat := 1024

def setCell (d : Nat → Nat → WithTop K) (i j : Nat) (x : WithTop K) : Nat → Nat → WithTop K :=
  update d i (update (d i) j x)

def floydEdge (i : Nat) (d : Nat → Nat → WithTop K) (e : Nat × K) : Nat → Nat → WithTop K :=
  if (e.2 : WithTop K) < d i e.1 then setCell d i e.1 e.2 else d

def floydCell (k i : Nat) (d : Nat → Nat → WithTop K) (j : Nat) : Nat → Nat → WithTop K :=
  if d i k + d k j < d i j then setCell d i j (d i k + d k j) else d

def floydRow (n k : Nat) (d : Nat → Nat → WithTop K) (i : Nat) : Nat → Nat → WithTop K :=
  if d i k = ⊤ then d else (List.range n).foldl (floydCell k i) d

def floydPhase (n : Nat) (d : Nat → Nat → WithTop K) (k : Nat) : Nat → Nat → WithTop K :=
  (List.range n).foldl (floydRow n k) d

def floydStart (g : DynGraph K) : Nat → Nat → WithTop K :=
  (List.range g.n).foldl (fun d i => (g.adj i).foldl (floydEdge i) d) fun i j => if i = j then 0 else ⊤

def graphFloyd (g : DynGraph K) : Except Thrown (Nat → Nat → WithTop K) :=
  if floydMaxN < g.n then
    .error (.rangeError "floydWarshall: graph too large (n > 1024); the algorithm is O(n^3)")
  else
    let d := (List.range g.n).foldl (floydPhase g.n) (floydStart g)
    if (List.range g.n).any fun i => d i i < 0 then .error (.rangeError "floydWarshall: negative cycle") else .ok d

section Folds

variable {D X : Type} [Preorder D]

omit [AddCommGroup K] [LinearOrder K]

theorem foldl_le {f : D → X → D} (lowers : ∀ d x, f d x ≤ d) (l : List X) (d : D) : l.foldl f d ≤ d := by
  induction l generalizing d with
  | nil => exact le_rfl
  | cons x l ih => exact (ih (f d x)).trans (lowers d x)

/-- The result is below what any of the steps made of some earlier, lower state. -/
theorem foldl_reaches {f : D → X → D} (lowers : ∀ d x, f d x ≤ d) {l : List X} {x : X} (member : x ∈ l) (d : D) :
    ∃ d', d' ≤ d ∧ l.foldl f d ≤ f d' x := by
  induction l generalizing d with
  | nil => exact absurd member not_mem_nil
  | cons y l ih =>
    rcases mem_cons.mp member with rfl | later
    · exact ⟨d, le_rfl, foldl_le lowers l (f d x)⟩
    · obtain ⟨d', below, result⟩ := ih later (f d y)
      exact ⟨d', below.trans (lowers d y), result⟩

end Folds

section Cells

def Walked (g : DynGraph K) (d : Nat → Nat → WithTop K) : Prop := ∀ i j (c : K), d i j = c → ∃ l, Walk g.Edge i j l c

variable {g : DynGraph K} {d : Nat → Nat → WithTop K}

omit [AddCommGroup K] [LinearOrder K] in
theorem setCell_self (d : Nat → Nat → WithTop K) (i j : Nat) (x : WithTop K) : setCell d i j x i j = x := by
  rw [setCell, update_self, update_self]

omit [AddCommGroup K] in
theorem setCell_le {i j : Nat} {x : WithTop K} (less : x < d i j) : setCell d i j x ≤ d :=
  update_le_self_iff.mpr (update_le_self_iff.mpr less.le)

omit [LinearOrder K] in
theorem setCell_walked (walked : Walked g d) {i j : Nat} {x : WithTop K}
    (new : ∀ c : K, x = c → ∃ l, Walk g.Edge i j l c) : Walked g (setCell d i j x) := by
  refine (forall_update_iff d fun a row => ∀ b (c : K), row b = c → ∃ l, Walk g.Edge a b l c).mpr
    ⟨?_, fun a _ => walked a⟩
  exact (forall_update_iff (d i) fun b y => ∀ c : K, y = c → ∃ l, Walk g.Edge i b l c).mpr ⟨new, fun b _ => walked i b⟩

theorem floydCell_le (k i : Nat) (d : Nat → Nat → WithTop K) (j : Nat) : floydCell k i d j ≤ d := by
  rw [floydCell]
  split
  · exact setCell_le ‹_›
  · exact le_rfl

theorem floydCell_reaches (k i : Nat) (d : Nat → Nat → WithTop K) (j : Nat) :
    floydCell k i d j i j ≤ d i k + d k j := by
  rw [floydCell]
  split
  · rw [setCell_self]
  · exact not_lt.mp ‹_›

theorem floydCell_walked (k i j : Nat) (walked : Walked g d) : Walked g (floydCell k i d j) := by
  rw [floydCell]
  split
  · refine setCell_walked walked fun c value => ?_
    obtain ⟨a, b, left, right, rfl⟩ := WithTop.add_eq_coe.mp value
    obtain ⟨l, first⟩ := walked i k a left.symm
    obtain ⟨l', second⟩ := walked k j b right.symm
    exact ⟨l ++ l', first.append second⟩
  · exact walked

theorem floydRow_le (n k : Nat) (d : Nat → Nat → WithTop K) (i : Nat) : floydRow n k d i ≤ d := by
  rw [floydRow]
  split
  · exact le_rfl
  · exact foldl_le (floydCell_le k i) _ d

theorem floydPhase_le (n : Nat) (d : Nat → Nat → WithTop K) (k : Nat) : floydPhase n d k ≤ d :=
  foldl_le (floydRow_le n k) _ d

theorem floydPhase_walked (n k : Nat) (walked : Walked g d) : Walked g (floydPhase n d k) := by
  refine List.foldlRecOn _ _ walked fun d walked i _ => ?_
  rw [floydRow]
  split
  · exact walked
  · exact List.foldlRecOn _ _ walked fun d walked j _ => floydCell_walked k i j walked

omit [AddCommGroup K] in
theorem floydEdge_le (i : Nat) (d : Nat → Nat → WithTop K) (e : Nat × K) : floydEdge i d e ≤ d := by
  rw [floydEdge]
  split
  · exact setCell_le ‹_›
  · exact le_rfl

theorem floydStart_walked (g : DynGraph K) : Walked g (floydStart g) := by
  refine List.foldlRecOn _ _ (fun i j c value => ?_) fun d walked i _ =>
    List.foldlRecOn _ _ walked fun d walked e member => ?_
  · split at value
    · rename_i same
      rw [← coe_zero, coe_inj] at value
      rw [same, ← value]
      exact ⟨[], .nil j⟩
    · contradiction
  · rw [floydEdge]
    split
    · refine setCell_walked walked fun c value => ?_
      rw [coe_inj] at value
      rw [← value]
      exact ⟨[e.1], .single (member : g.Edge i e.1 e.2)⟩
    · exact walked

end Cells

variable {g : DynGraph K} {src : Nat}

section BellmanFord

def Reached (g : DynGraph K) (src : Nat) (dist : Nat → WithTop K) : Prop :=
  ∀ v (c : K), dist v = c → ∃ l, Walk g.Edge src v l c

/-- What relaxing some edges does: distances only fall, and without a change nothing moved. -/
structure Relaxed (g : DynGraph K) (src : Nat) (dist dist' : Nat → WithTop K) (changed changed' : Bool) : Prop where
  sound : Reached g src dist'
  lower : ∀ x, dist' x ≤ dist x
  raised : changed = true → changed' = true
  still : changed' = false → dist' = dist

theorem Relaxed.trans {d d₁ d₂ : Nat → WithTop K} {c c₁ c₂ : Bool} (first : Relaxed g src d d₁ c c₁)
    (second : Relaxed g src d₁ d₂ c₁ c₂) : Relaxed g src d d₂ c c₂ where
  sound := second.sound
  lower := fun x => (second.lower x).trans (first.lower x)
  raised := fun on => second.raised (first.raised on)
  still := fun off => by
    have before : c₁ = false := by
      cases flag : c₁ with
      | false => rfl
      | true => exact absurd (second.raised flag) (by rw [off]; exact Bool.false_ne_true)
    rw [second.still off, first.still before]

/-- The outcome of relaxing the edges of the nodes in `us`: all of them hold afterwards, or the
last round met an edge that would improve. -/
def Outcome (g : DynGraph K) (src : Nat) (last : Bool) (edges : Nat → Nat → K → Prop) (dist : Nat → WithTop K)
    (changed : Bool)
    (result : Except Thrown ((Nat → WithTop K) × Bool)) : Prop :=
  (∃ dist' changed', result = .ok (dist', changed') ∧ Relaxed g src dist dist' changed changed' ∧
      (∀ u v w, edges u v w → dist' v ≤ dist u + w) ∧ (last = true → dist' = dist ∧ changed' = changed)) ∨
    (last = true ∧ result = .error (.rangeError "bellmanFord: negative cycle") ∧
      ∃ u v w, edges u v w ∧ dist u + w < dist v)

variable {dist : Nat → WithTop K}

omit [LinearOrder K] in
theorem Reached.improve (sound : Reached g src dist) {u v : Nat} {w : K}
    (edge : g.Edge u v w) : Reached g src (update dist v (dist u + w)) := by
  refine (forall_update_iff dist fun x d => ∀ c : K, d = c → ∃ l, Walk g.Edge src x l c).mpr ⟨fun c value => ?_,
    fun x _ => sound x⟩
  obtain ⟨a, b, from_u, weight, rfl⟩ := WithTop.add_eq_coe.mp value
  obtain rfl := coe_inj.mp weight
  obtain ⟨l, walk⟩ := sound u a from_u.symm
  exact ⟨_, walk.snoc edge⟩

omit [LinearOrder K] in
/-- A walk that visits no node twice is shorter than the number of nodes. -/
theorem simple_length (inside : src < g.n) {v : Nat} {l : List Nat} {c : K} (walk : Walk g.Edge src v l c)
    (simple : (src :: l).Nodup) : l.length + 1 ≤ g.n := by
  have subset : src :: l ⊆ List.range g.n := by
    intro x member
    rcases mem_cons.mp member with rfl | later
    · exact mem_range.mpr inside
    · exact mem_range.mpr (walk.inside (fun u v w edge => edge.ends.2) x later)
  have short := (subperm_of_subset simple subset).length_le
  rwa [length_range] at short

variable [IsOrderedAddMonoid K]

/-- One step and then the rest. -/
theorem Outcome.after {last changed c : Bool} {edges here there : Nat → Nat → K → Prop} {d : Nat → WithTop K}
    {result : Except Thrown ((Nat → WithTop K) × Bool)} (step : Relaxed g src dist d changed c)
    (holds : ∀ u v w, here u v w → d v ≤ dist u + w) (kept : last = true → d = dist ∧ c = changed)
    (parts : ∀ u v w, edges u v w ↔ here u v w ∨ there u v w) (rest : Outcome g src last there d c result) :
    Outcome g src last edges dist changed result := by
  rcases rest with ⟨dist', changed', ran, relaxed, satisfied, same⟩ | ⟨end_round, ran, u, v, w, member, improves⟩
  · refine .inl ⟨dist', changed', ran, step.trans relaxed, fun u v w edge => ?_, fun on => ?_⟩
    · rcases (parts u v w).mp edge with first | later
      · exact (relaxed.lower v).trans (holds u v w first)
      · exact (satisfied u v w later).trans (add_le_add_left (step.lower u) _)
    · rw [(same on).1, (same on).2, (kept on).1, (kept on).2]
      exact ⟨rfl, rfl⟩
  · rw [(kept end_round).1] at improves
    exact .inr ⟨end_round, ran, u, v, w, (parts u v w).mpr (.inr member), improves⟩

theorem bellmanEdges_outcome (last : Bool) (u : Nat) (es : List (Nat × K)) (edges : ∀ e ∈ es, g.Edge u e.1 e.2)
    (changed : Bool) (sound : Reached g src dist) :
    Outcome g src last (fun x v w => x = u ∧ (v, w) ∈ es) dist changed (bellmanEdges last u es dist changed) := by
  induction es generalizing dist changed with
  | nil =>
    exact .inl ⟨dist, changed, rfl, ⟨sound, fun _ => le_rfl, id, fun _ => rfl⟩,
      fun _ _ _ member => absurd member.2 not_mem_nil, fun _ => ⟨rfl, rfl⟩⟩
  | cons e es ih =>
    obtain ⟨v, w⟩ := e
    obtain ⟨edge, others⟩ := forall_mem_cons.mp edges
    have parts : ∀ x y z, x = u ∧ (y, z) ∈ (v, w) :: es ↔ (x = u ∧ (y, z) = (v, w)) ∨ x = u ∧ (y, z) ∈ es :=
      fun x y z => by rw [mem_cons, and_or_left]
    rw [bellmanEdges]
    by_cases better : dist u + w < dist v
    · rw [if_pos better]
      cases last with
      | true => exact .inr ⟨rfl, rfl, u, v, w, ⟨rfl, mem_cons_self⟩, better⟩
      | false =>
        refine .after ⟨sound.improve edge, update_le_self_iff.mpr better.le, fun _ => rfl,
          fun off => by contradiction⟩ ?_
          (fun never => by contradiction) parts (ih others true (sound.improve edge))
        rintro x y z ⟨rfl, here⟩
        obtain ⟨rfl, rfl⟩ := Prod.mk.inj here
        exact (update_self ..).le
    · rw [if_neg better]
      refine .after ⟨sound, fun _ => le_rfl, id, fun _ => rfl⟩ ?_ (fun _ => ⟨rfl, rfl⟩) parts (ih others changed sound)
      rintro x y z ⟨rfl, here⟩
      obtain ⟨rfl, rfl⟩ := Prod.mk.inj here
      exact not_lt.mp better

theorem bellmanNodes_outcome (last : Bool) (us : List Nat) (changed : Bool) (sound : Reached g src dist) :
    Outcome g src last (fun u v w => u ∈ us ∧ g.Edge u v w) dist changed (bellmanNodes g last us dist changed) := by
  induction us generalizing dist changed with
  | nil =>
    exact .inl ⟨dist, changed, rfl, ⟨sound, fun _ => le_rfl, id, fun _ => rfl⟩,
      fun _ _ _ member => absurd member.1 not_mem_nil, fun _ => ⟨rfl, rfl⟩⟩
  | cons u us ih =>
    have parts : ∀ x y z, x ∈ u :: us ∧ g.Edge x y z ↔ (x = u ∧ g.Edge x y z) ∨ x ∈ us ∧ g.Edge x y z :=
      fun x y z => by rw [mem_cons, or_and_right]
    rw [bellmanNodes]
    split_ifs with far
    · refine .after ⟨sound, fun _ => le_rfl, id, fun _ => rfl⟩ ?_ (fun _ => ⟨rfl, rfl⟩) parts (ih changed sound)
      rintro x y z ⟨rfl, -⟩
      rw [far]
      exact le_top
    · rcases bellmanEdges_outcome last u (g.adj u) (fun e member => member) changed sound with
        ⟨d, c, ran, relaxed, satisfied, kept⟩ | ⟨end_round, ran, x, y, z, ⟨rfl, member⟩, improves⟩
      · rw [ran]
        refine .after relaxed ?_ kept parts (ih c relaxed.sound)
        rintro x y z ⟨rfl, edge⟩
        exact satisfied x y z ⟨rfl, edge⟩
      · rw [ran]
        exact .inr ⟨end_round, rfl, x, y, z, ⟨mem_cons_self, member⟩, improves⟩

theorem bellmanRounds_spec (inside : src < g.n) (left : Nat) {r : Nat} (count : r + left = g.n) (some : 0 < left)
    (sound : Reached g src dist)
    (short : ∀ v l c, Walk g.Edge src v l c → l.length ≤ r → dist v ≤ c) :
    (∃ dist', bellmanRounds g left dist = .ok dist' ∧ NoNegative g.Edge src ∧ ∀ v, Shortest g.Edge src v (dist' v)) ∨
      (bellmanRounds g left dist = .error (.rangeError "bellmanFord: negative cycle") ∧ ¬NoNegative g.Edge src) := by
  induction left generalizing r dist with
  | zero => omega
  | succ left ih =>
    have start : dist src ≤ 0 := short src [] 0 (.nil src) (r.zero_le)
    rw [bellmanRounds]
    rcases bellmanNodes_outcome (left == 0) (List.range g.n) false sound with
      ⟨dist', changed', ran, relaxed, satisfied, kept⟩ | ⟨end_round, ran, u, v, w, ⟨-, edge⟩, improves⟩
    · rw [ran]
      have holds : ∀ u v w, g.Edge u v w → dist' v ≤ dist u + w :=
        fun u v w edge => satisfied u v w ⟨mem_range.mpr edge.ends.1, edge⟩
      cases changed' with
      | true =>
        dsimp only
        rw [if_pos rfl]
        have more : left ≠ 0 := by
          intro zero
          have off := (kept (by rw [zero]; rfl)).2
          contradiction
        refine ih (r := r + 1) (by omega) (by omega) relaxed.sound fun v l c walk length => ?_
        rcases eq_nil_or_concat l with rfl | ⟨l', x, rfl⟩
        · exact (relaxed.lower v).trans (short v [] c walk (r.zero_le))
        · rw [concat_eq_append] at walk length
          obtain ⟨y, c₁, w, first, edge, rfl⟩ := walk.snoc_inv
          rw [length_append, length_singleton] at length
          rw [coe_add]
          exact (holds y v w edge).trans (add_le_add_left (short y l' c₁ first (by omega)) _)
      | false =>
        dsimp only
        rw [if_neg Bool.false_ne_true]
        have same : dist' = dist := relaxed.still rfl
        have stable : ∀ u v w, g.Edge u v w → dist v ≤ dist u + w := fun u v w edge => by
          rw [← same]
          exact (holds u v w edge).trans (by rw [same])
        rw [same]
        refine .inl ⟨dist, rfl, noNegative_of_stable stable (ne_top_of_le_ne_top WithTop.zero_ne_top start), fun v =>
          ⟨fun l c walk => ?_, sound v⟩⟩
        refine (walk.bounded stable).trans ?_
        have total := add_le_add_left start c
        rwa [zero_add] at total
    · rw [ran]
      refine .inr ⟨rfl, fun none => absurd improves (not_lt.mpr ?_)⟩
      have final : left = 0 := beq_iff_eq.mp end_round
      cases from_u : dist u with
      | top => exact le_top
      | coe a =>
        obtain ⟨l, walk⟩ := sound u a from_u
        obtain ⟨l', c', direct, simple, -, less⟩ := (walk.snoc edge).simple none
        have length := simple_length inside direct simple
        rw [← coe_add]
        exact (short v l' c' direct (by omega)).trans (WithTop.coe_le_coe.mpr less)

theorem graphBellmanFord_spec (g : DynGraph K) {src : Nat} (inside : src < g.n) :
    (∃ dist, graphBellmanFord g src = .ok dist ∧ NoNegative g.Edge src ∧ ∀ v, Shortest g.Edge src v (dist v)) ∨
      (graphBellmanFord g src = .error (.rangeError "bellmanFord: negative cycle") ∧ ¬NoNegative g.Edge src) := by
  rw [graphBellmanFord, if_neg (by omega)]
  refine bellmanRounds_spec inside g.n (zero_add _) (by omega) (fun v c value => ?_) fun v l c walk length => ?_
  · obtain ⟨rfl, rfl⟩ := start_only value
    exact ⟨[], .nil v⟩
  · obtain rfl := length_eq_zero_iff.mp (Nat.le_zero.mp length)
    obtain ⟨rfl, rfl⟩ := walk.nil_eq
    rw [update_self]
    exact le_rfl

end BellmanFord

section Floyd

/-- Paths whose inner nodes are different and below `k` are accounted for. -/
def Covers (g : DynGraph K) (k : Nat) (d : Nat → Nat → WithTop K) : Prop :=
  ∀ i j l c, i < g.n → Walk g.Edge i j l c → l.dropLast.Nodup → (∀ x ∈ l.dropLast, x < k) → d i j ≤ c

omit [LinearOrder K] in
theorem end_inside {i j : Nat} {l : List Nat} {c : K} (hi : i < g.n) (walk : Walk g.Edge i j l c) : j < g.n := by
  rcases eq_nil_or_concat l with rfl | ⟨l', x, rfl⟩
  · rwa [← walk.nil_eq.1]
  · rw [concat_eq_append] at walk
    rw [walk.last]
    exact walk.inside (fun u v w edge => edge.ends.2) x (mem_append_right _ (mem_singleton_self x))

theorem floydStart_covers (g : DynGraph K) : Covers g 0 (floydStart g) := by
  have lowers : ∀ (d : Nat → Nat → WithTop K) i, (g.adj i).foldl (floydEdge i) d ≤ d :=
    fun d i => foldl_le (floydEdge_le i) _ d
  intro i j l c hi walk distinct inner
  rcases eq_nil_or_concat l with rfl | ⟨l', x, rfl⟩
  · obtain ⟨rfl, rfl⟩ := walk.nil_eq
    refine (foldl_le lowers _ _ i i).trans ?_
    rw [if_pos rfl]
    exact le_rfl
  · rw [concat_eq_append, dropLast_concat] at inner
    have none : l' = [] := eq_nil_iff_forall_not_mem.mpr fun y member => absurd (inner y member) (y.not_lt_zero)
    rw [concat_eq_append, none] at walk
    obtain ⟨y, c₁, w, first, edge, rfl⟩ := walk.snoc_inv
    obtain ⟨rfl, rfl⟩ := first.nil_eq
    obtain ⟨d', below, result⟩ := foldl_reaches lowers (mem_range.mpr hi) fun i j => if i = j then 0 else ⊤
    obtain ⟨d'', below', result'⟩ := foldl_reaches (floydEdge_le i) (edge) d'
    rw [zero_add]
    refine (result i j).trans ((result' i j).trans ?_)
    rw [floydEdge]
    split
    · rw [setCell_self]
    · exact not_lt.mp ‹_›

variable [IsOrderedAddMonoid K]

theorem floydRow_reaches (n k : Nat) (d : Nat → Nat → WithTop K) (i : Nat) {j : Nat} (hj : j < n) :
    floydRow n k d i i j ≤ d i k + d k j := by
  rw [floydRow]
  split
  · rename_i far
    rw [far]
    exact le_top
  · obtain ⟨d', below, result⟩ := foldl_reaches (floydCell_le k i) (mem_range.mpr hj) d
    exact (result i j).trans ((floydCell_reaches k i d' j).trans (add_le_add (below i k) (below k j)))

theorem floydPhase_reaches (n : Nat) (d : Nat → Nat → WithTop K) (k : Nat) {i j : Nat} (hi : i < n) (hj : j < n) :
    floydPhase n d k i j ≤ d i k + d k j := by
  obtain ⟨d', below, result⟩ := foldl_reaches (floydRow_le n k) (mem_range.mpr hi) d
  exact (result i j).trans ((floydRow_reaches n k d' i hj).trans (add_le_add (below i k) (below k j)))

/-- A path through `k` is cut there, and visits `k` in neither part. -/
theorem floydPhase_covers {d : Nat → Nat → WithTop K} {k : Nat} (hk : k < g.n) (covers : Covers g k d) :
    Covers g (k + 1) (floydPhase g.n d k) := by
  intro i j l c hi walk distinct inner
  by_cases through : k ∈ l.dropLast
  · obtain ⟨p, q, cut⟩ := append_of_mem through
    rcases eq_nil_or_concat l with rfl | ⟨l', x, rfl⟩
    · rw [dropLast_nil] at through
      exact absurd through not_mem_nil
    rw [concat_eq_append, dropLast_concat] at cut distinct inner
    rw [concat_eq_append, cut, append_assoc, cons_append] at walk
    obtain ⟨c₁, c₂, first, second, rfl⟩ := walk.split_at
    rw [cut, nodup_append'] at distinct
    obtain ⟨nodup_p, nodup_q, apart⟩ := distinct
    rw [nodup_cons] at nodup_q
    rw [cut, forall_mem_append, forall_mem_cons] at inner
    have inner_p : ∀ x ∈ p, x < k := fun y member =>
      Nat.lt_of_le_of_ne (Nat.lt_succ_iff.mp (inner.1 y member)) fun same => apart member (same ▸ mem_cons_self)
    have inner_q : ∀ x ∈ q, x < k := fun y member =>
      Nat.lt_of_le_of_ne (Nat.lt_succ_iff.mp (inner.2.2 y member)) fun same => nodup_q.1 (same ▸ member)
    have one := covers i k _ c₁ hi first (by rwa [dropLast_concat]) (by rwa [dropLast_concat])
    have two := covers k j _ c₂ hk second (by rw [dropLast_concat]; exact nodup_q.2) (by rwa [dropLast_concat])
    exact (floydPhase_reaches g.n d k hi (end_inside hi walk)).trans (add_le_add one two)
  · refine (floydPhase_le g.n d k i j).trans (covers i j l c hi walk distinct fun x member => ?_)
    exact Nat.lt_of_le_of_ne (Nat.lt_succ_iff.mp (inner x member)) fun same => through (same ▸ member)

theorem floydPhases_covers (g : DynGraph K) (k : Nat) (inside : k ≤ g.n) :
    Covers g k ((List.range k).foldl (floydPhase g.n) (floydStart g)) := by
  induction k with
  | zero => exact floydStart_covers g
  | succ k ih =>
    rw [range_succ, foldl_append]
    exact floydPhase_covers inside (ih (by omega))

def NegativeCycle (g : DynGraph K) : Prop := ∃ x l c, Walk g.Edge x x l c ∧ c < 0

theorem graphFloyd_spec (g : DynGraph K) (small : g.n ≤ floydMaxN) :
    (∃ d, graphFloyd g = .ok d ∧ ¬NegativeCycle g ∧ ∀ i j, i < g.n → Shortest g.Edge i j (d i j)) ∨
      (graphFloyd g = .error (.rangeError "floydWarshall: negative cycle") ∧ NegativeCycle g) := by
  have covers := floydPhases_covers g g.n le_rfl
  have walked : Walked g ((List.range g.n).foldl (floydPhase g.n) (floydStart g)) :=
    List.foldlRecOn _ _ (floydStart_walked g) fun d walked k _ => floydPhase_walked g.n k walked
  rw [graphFloyd, if_neg (by omega)]
  generalize (List.range g.n).foldl (floydPhase g.n) (floydStart g) = d at covers walked
  cases diagonal : (List.range g.n).any fun i => d i i < 0 with
  | true =>
    dsimp only
    rw [diagonal]
    refine .inr ⟨rfl, ?_⟩
    obtain ⟨i, -, negative⟩ := any_eq_true.mp diagonal
    rw [decide_eq_true_eq] at negative
    cases value : d i i with
    | top =>
      rw [value] at negative
      exact absurd negative not_top_lt
    | coe c =>
      obtain ⟨l, walk⟩ := walked i i c value
      rw [value, ← coe_zero, WithTop.coe_lt_coe] at negative
      exact ⟨i, l, c, walk, negative⟩
  | false =>
    dsimp only
    rw [diagonal]
    have clean : ¬NegativeCycle g := by
      rintro ⟨x, l, c, walk, negative⟩
      obtain ⟨y, l', c', closed, simple, below⟩ := walk.negative_simple negative
      have inside : y < g.n := by
        cases closed with
        | nil => exact absurd below (lt_irrefl 0)
        | cons edge _ => exact edge.ends.1
      have entry := covers y y l' c' inside closed (simple.sublist (dropLast_sublist l')) fun x member =>
        closed.inside (fun u v w edge => edge.ends.2) x (mem_of_mem_dropLast member)
      rw [any_eq_false] at diagonal
      have none := diagonal y (mem_range.mpr inside)
      rw [decide_eq_true_eq, not_lt] at none
      exact absurd (none.trans entry) (not_le.mpr (WithTop.coe_lt_coe.mpr below))
    refine .inl ⟨d, rfl, clean, fun i j hi => ⟨fun l c walk => ?_, walked i j⟩⟩
    have none : NoNegative g.Edge i :=
      fun x l c l' c' _ closed => not_lt.mp fun below => clean ⟨x, l', c', closed, below⟩
    obtain ⟨l', c', direct, simple, -, less⟩ := walk.simple none
    refine (covers i j l' c' hi direct ((nodup_cons.mp simple).2.sublist (dropLast_sublist l'))
      fun x member => ?_).trans (WithTop.coe_le_coe.mpr less)
    exact direct.inside (fun u v w edge => edge.ends.2) x (mem_of_mem_dropLast member)

end Floyd

section Agree

def NegativeCycleFrom (g : DynGraph K) (src : Nat) : Prop :=
  ∃ x l c l' c', Walk g.Edge src x l c ∧ Walk g.Edge x x l' c' ∧ c' < 0

theorem negativeCycleFrom_iff (g : DynGraph K) (src : Nat) : NegativeCycleFrom g src ↔ ¬NoNegative g.Edge src := by
  constructor
  · rintro ⟨x, l, c, l', c', walk, closed, negative⟩ none
    exact absurd negative (not_lt.mpr (none x l c l' c' walk closed))
  · intro some
    by_contra none
    refine some fun x l c l' c' walk closed => ?_
    by_contra negative
    exact none ⟨x, l, c, l', c', walk, closed, not_le.mp negative⟩

omit [AddCommGroup K] [LinearOrder K] in
theorem answers_iff {α : Type} {r : Except Thrown α} {e : Thrown} {cycle : Prop} {right : α → Prop}
    (spec : (∃ d, r = .ok d ∧ ¬cycle ∧ right d) ∨ (r = .error e ∧ cycle)) :
    (∀ d, r = .ok d → right d) ∧ ((∃ e, r = .error e) ↔ cycle) := by
  rcases spec with ⟨d, rfl, none, holds⟩ | ⟨rfl, some⟩
  · exact ⟨fun d' same => Except.ok.inj same ▸ holds, iff_of_false (by simp) none⟩
  · exact ⟨fun d' ran => by contradiction, iff_of_true ⟨e, rfl⟩ some⟩

variable [IsOrderedAddMonoid K]

/-- The three searches return the shortest distances. Bellman-Ford throws exactly when a
negative cycle can be reached, Floyd-Warshall on at most 1024 nodes exactly when there is one;
on more nodes it always throws. -/
theorem shortest_paths_agree (g : DynGraph K) : (∀ src, src < g.n → (∀ u v w, g.Edge u v w → 0 ≤ w) →
      ∃ dist, graphDijkstra g src = some (.ok dist) ∧ ∀ v, Shortest g.Edge src v (dist v)) ∧
    (∀ src, src < g.n → (∀ dist, graphBellmanFord g src = .ok dist → ∀ v, Shortest g.Edge src v (dist v)) ∧
      ((∃ e, graphBellmanFord g src = .error e) ↔ NegativeCycleFrom g src)) ∧
    (g.n ≤ floydMaxN → (∀ d, graphFloyd g = .ok d → ∀ i j, i < g.n → Shortest g.Edge i j (d i j)) ∧
      ((∃ e, graphFloyd g = .error e) ↔ NegativeCycle g)) ∧
    (floydMaxN < g.n → ∃ e, graphFloyd g = .error e) := by
  refine ⟨fun src inside weights => graphDijkstra_spec g inside weights, fun src inside => ?_, fun small => ?_,
    fun large => ⟨_, if_pos large⟩⟩
  · have spec := graphBellmanFord_spec g inside
    rw [negativeCycleFrom_iff]
    exact answers_iff (by simpa only [not_not] using spec)
  · exact answers_iff (graphFloyd_spec g small)

def pairGraph (there back : ℤ) : DynGraph ℤ where
  directed := true
  weighted := true
  n := 2
  m := 2
  adj := fun u => if u = 0 then [(1, there)] else if u = 1 then [(0, back)] else []
  inside := fun u e member => by
    split at member
    · rw [mem_singleton.mp member]
      omega
    · split at member
      · rw [mem_singleton.mp member]
        omega
      · exact absurd member not_mem_nil

/-- The edges 3 and -1 make no negative cycle, 3 and -4 do. -/
theorem shortest_paths_pair :
    (∃ dist, graphBellmanFord (pairGraph 3 (-1)) 0 = .ok dist ∧ ∀ v, Shortest (pairGraph 3 (-1)).Edge 0 v (dist v)) ∧
      NegativeCycleFrom (pairGraph 3 (-4)) 0 ∧ NegativeCycle (pairGraph 3 (-4)) := by
  have agree := shortest_paths_agree (pairGraph 3 (-1))
  have cycle := shortest_paths_agree (pairGraph 3 (-4))
  have throws : (graphBellmanFord (pairGraph 3 (-4)) 0).isOk = false ∧
    (graphFloyd (pairGraph 3 (-4))).isOk = false := by
    decide +kernel
  refine ⟨?_, (cycle.2.1 0 (by decide)).2.mp ?_, (cycle.2.2.1 (by decide)).2.mp ?_⟩
  · cases ran : graphBellmanFord (pairGraph 3 (-1)) 0 with
    | ok dist => exact ⟨dist, rfl, (agree.2.1 0 (by decide)).1 dist ran⟩
    | error e =>
      contradiction
  · cases ran : graphBellmanFord (pairGraph 3 (-4)) 0 with
    | ok dist =>
      rw [ran] at throws
      exact absurd throws.1 Bool.noConfusion
    | error e => exact ⟨e, rfl⟩
  · cases ran : graphFloyd (pairGraph 3 (-4)) with
    | ok d =>
      rw [ran] at throws
      exact absurd throws.2 Bool.noConfusion
    | error e => exact ⟨e, rfl⟩

/-- A graph of 1025 nodes without edges has no cycle, and Floyd-Warshall throws. -/
theorem large_graph_throws :
    let g : DynGraph ℤ := graphEnsure (graphCtor true true) 1024
    (∃ e, graphFloyd g = .error e) ∧ ¬NegativeCycle g := by
  refine ⟨⟨_, if_pos (by decide)⟩, ?_⟩
  rintro ⟨x, l, c, walk, negative⟩
  cases walk with
  | nil => exact absurd negative (lt_irrefl 0)
  | cons edge _ => exact absurd edge not_mem_nil

end Agree

end DynaJS.Graph
