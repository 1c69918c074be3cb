import DynaJS.Graph.Basic

/-! `dyn_graph_dijkstra`: a search with a lazy heap, in which an improved node is pushed again
and its older entries are skipped when they come up. -/
namespace DynaJS.Graph

open Function Engine Heap Walks List Finset

variable {K : Type} [AddCommGroup K] [LinearOrder K]

structure Search (K : Type) where
  dist : Nat → WithTop K
  heap : Queue K

def dijkstraEdges (it : Item K) : List (Nat × K) → Search K → Except Thrown (Search K)
  | [], s => .ok s
  | (v, w) :: es, s =>
    if w < 0 then .error (.rangeError "dijkstra: negative edge weight")
    else if ((it.key + w : K) : WithTop K) < s.dist v then
      dijkstraEdges it es ⟨update s.dist v (it.key + w : K), heapPush s.heap (it.key + w) v⟩
    else dijkstraEdges it es s

def dijkstraLoop (g : DynGraph K) : Nat → Search K → Option (Except Thrown (Nat → WithTop K))
  | 0, _ => none
  | fuel + 1, s =>
    match heapPop s.heap with
    | none => some (.ok s.dist)
    | some (it, h) =>
      if s.dist it.node < it.key then dijkstraLoop g fuel ⟨s.dist, h⟩
      else
        match dijkstraEdges it (g.adj it.node) ⟨s.dist, h⟩ with
        | .error e => some (.error e)
        | .ok s => dijkstraLoop g fuel s

def edgeCount (g : DynGraph K) : Nat := ∑ u ∈ Finset.range g.n, (g.adj u).length

def dijkstraStart (src : Nat) : Search K := ⟨update (fun _ => ⊤) src 0, heapPush ⟨fun _ => ⟨0, 0⟩, 0⟩ 0 src⟩

def dijkstraCore (g : DynGraph K) (src : Nat) : Option (Except Thrown (Nat → WithTop K)) :=
  dijkstraLoop g (edgeCount g + 2) (dijkstraStart src)

def graphDijkstra (g : DynGraph K) (src : Nat) : Option (Except Thrown (Nat → WithTop K)) :=
  if g.n ≤ src then some (.error (.rangeError "source out of range"))
  else if graphHasNegative g then some (.error (.rangeError "dijkstra: negative edge weight"))
  else dijkstraCore g src

variable {g : DynGraph K} {src : Nat} {done : Finset Nat} {s : Search K}

structure Settling (g : DynGraph K) (src : Nat) (done : Finset Nat) (s : Search K) : Prop where
  start : s.dist src = 0
  sound : ∀ v (c : K), s.dist v = c → ∃ l, Walk g.Edge src v l c
  ordered : Ordered Item.key s.heap.a s.heap.n
  nodes : ∀ x, s.heap.Has x → x.node < g.n
  keys : ∀ x, s.heap.Has x → s.dist x.node ≤ x.key
  ahead : ∀ u ∈ done, ∀ x, s.heap.Has x → s.dist u ≤ x.key
  queued : ∀ v, v ∉ done → ∀ c : K, s.dist v = c → s.heap.Has ⟨c, v⟩

def Closed (g : DynGraph K) (done : Finset Nat) (dist : Nat → WithTop K) : Prop :=
  ∀ u ∈ done, ∀ v w, g.Edge u v w → dist v ≤ dist u + w

theorem dijkstraEdges_idle (it : Item K) (es : List (Nat × K)) (weights : ∀ e ∈ es, 0 ≤ e.2)
    (satisfied : ∀ e ∈ es, s.dist e.1 ≤ ((it.key + e.2 : K) : WithTop K)) : dijkstraEdges it es s = .ok s := by
  induction es with
  | nil => rfl
  | cons e es ih =>
    obtain ⟨v, w⟩ := e
    rw [dijkstraEdges, if_neg (not_lt.mpr (weights (v, w) mem_cons_self)),
      if_neg (not_lt.mpr (satisfied (v, w) mem_cons_self))]
    exact ih (fun e member => weights e (mem_cons_of_mem _ member))
      fun e member => satisfied e (mem_cons_of_mem _ member)

/-- Taking an item leaves the invariant, its node now counted as expanded when the item is up
to date. -/
theorem Settling.pop (inv : Settling g src done s) {it : Item K} {h : Queue K} (popped : Popped s.heap it h)
    {done' : Finset Nat} (grows : done ⊆ done')
    (fresh : ∀ u ∈ done', u ∈ done ∨ s.dist u = it.key)
    (kept : ∀ v, v ∉ done' → ∀ c : K, s.dist v = c → (⟨c, v⟩ : Item K) ≠ it) :
    Settling g src done' ⟨s.dist, h⟩ where
  start := inv.start
  sound := inv.sound
  ordered := popped.ordered
  nodes := fun x held => inv.nodes x (popped.old x held)
  keys := fun x held => inv.keys x (popped.old x held)
  ahead := fun u settled x held => by
    rcases fresh u settled with old | new
    · exact inv.ahead u old x (popped.old x held)
    · exact new.le.trans (WithTop.coe_le_coe.mpr (popped.least x (popped.old x held)))
  queued := fun v open_node c value => by
    have held := inv.queued v (fun settled => open_node (grows settled)) c value
    exact (popped.rest _ held).resolve_left (kept v open_node c value)

omit [LinearOrder K] in
/-- At the start only the source is reached. -/
theorem start_only {v : Nat} {c : K} (value : update (fun _ => (⊤ : WithTop K)) src 0 v = c) : v = src ∧ c = 0 := by
  by_cases same : v = src
  · rw [same, update_self, ← WithTop.coe_zero, WithTop.coe_inj] at value
    exact ⟨same, value.symm⟩
  · rw [update_of_ne same] at value
    contradiction

theorem dijkstraStart_settling (inside : src < g.n) : Settling g src ∅ (dijkstraStart src) := by
  have none : Ordered Item.key (fun _ => (⟨0, 0⟩ : Item K)) 0 := fun i _ bound => absurd bound (Nat.not_lt_zero i)
  obtain ⟨order, has⟩ := heapPush_spec (h := (⟨fun _ => ⟨0, 0⟩, 0⟩ : Queue K)) none 0 src
  have only : ∀ x, (dijkstraStart src : Search K).heap.Has x → x = ⟨0, src⟩ := by
    intro x held
    rcases (has x).mp held with here | ⟨i, hi, -⟩
    · exact here
    · exact absurd hi (Nat.not_lt_zero i)
  have near : (dijkstraStart src : Search K).dist src = 0 := by simp [dijkstraStart]
  refine ⟨near, fun v c value => ?_, order, fun x held => ?_, fun x held => ?_,
    fun u settled => absurd settled (notMem_empty u), fun v _ c value => ?_⟩
  · obtain ⟨rfl, rfl⟩ := start_only value
    exact ⟨[], .nil v⟩
  · rw [only x held]
    exact inside
  · rw [only x held]
    exact near.le
  · obtain ⟨rfl, rfl⟩ := start_only value
    exact (has _).mpr (.inl rfl)

variable [IsOrderedAddMonoid K]

/-- A distance that falls along an edge is still that of a walk, and not that of the source. -/
theorem improved_sound {dist : Nat → WithTop K} {u v : Nat} {key w : K} (start : dist src = 0)
    (sound : ∀ v (c : K), dist v = c → ∃ l, Walk g.Edge src v l c) (here : dist u = key) (edge : g.Edge u v w)
    (weights : ∀ u v w, g.Edge u v w → 0 ≤ w) (better : ((key + w : K) : WithTop K) < dist v) :
    v ≠ src ∧ ∀ x (c : K), update dist v (key + w : K) x = c → ∃ l, Walk g.Edge src x l c := by
  obtain ⟨l, walk⟩ := sound u key here
  refine ⟨?_, (forall_update_iff dist fun x d => ∀ c : K, d = c → ∃ l, Walk g.Edge src x l c).mpr
    ⟨fun c value => ⟨_, WithTop.coe_inj.mp value ▸ walk.snoc edge⟩, fun x _ => sound x⟩⟩
  rintro rfl
  rw [start] at better
  exact absurd better (not_lt.mpr (WithTop.coe_le_coe.mpr (add_nonneg (walk.nonneg weights) (weights _ _ _ edge))))

theorem Settling.improve (inv : Settling g src done s) {u v : Nat} {key w : K} (here : s.dist u = key)
    (edge : g.Edge u v w) (weights : ∀ u v w, g.Edge u v w → 0 ≤ w) (past : ∀ x ∈ done, s.dist x ≤ key)
    (better : ((key + w : K) : WithTop K) < s.dist v) :
    v ∉ done ∧ Settling g src done ⟨update s.dist v (key + w : K), heapPush s.heap (key + w) v⟩ := by
  obtain ⟨other, sound⟩ := improved_sound inv.start inv.sound here edge weights better
  have farther : key ≤ key + w := le_add_of_nonneg_right (weights u v w edge)
  have new : v ∉ done := fun settled =>
    absurd (lt_of_lt_of_le better (past v settled)) (not_lt.mpr (WithTop.coe_le_coe.mpr farther))
  obtain ⟨order, has⟩ := heapPush_spec inv.ordered (key + w) v
  have lower : update s.dist v (key + w : K) ≤ s.dist := update_le_self_iff.mpr better.le
  refine ⟨new, (update_of_ne other.symm ..).trans inv.start, sound, order, fun x held => ?_, fun x held => ?_,
    fun x settled y held => (lower x).trans ?_, fun x open_node => ?_⟩
  · rcases (has x).mp held with rfl | old
    · exact edge.ends.2
    · exact inv.nodes x old
  · rcases (has x).mp held with rfl | old
    · exact (update_self ..).le
    · exact (lower x.node).trans (inv.keys x old)
  · rcases (has y).mp held with rfl | old
    · exact (past x settled).trans (WithTop.coe_le_coe.mpr farther)
    · exact inv.ahead x settled y old
  · intro c value
    dsimp only at value
    by_cases same : x = v
    · rw [same, update_self, WithTop.coe_inj] at value
      exact (has _).mpr (.inl (by rw [same, value]))
    · rw [update_of_ne same] at value
      exact (has _).mpr (.inr (inv.queued x open_node c value))

/-- The edges of an expanded node: every one is satisfied afterwards, expanded nodes keep
their distances, and there is at most one push for each. -/
theorem dijkstraEdges_spec (it : Item K) (es : List (Nat × K)) (edges : ∀ e ∈ es, g.Edge it.node e.1 e.2)
    (weights : ∀ u v w, g.Edge u v w → 0 ≤ w) (inv : Settling g src done s) (here : s.dist it.node = it.key)
    (past : ∀ x ∈ done, s.dist x ≤ it.key) (known : it.node ∈ done) :
    ∃ s', dijkstraEdges it es s = .ok s' ∧ Settling g src done s' ∧ (∀ x, s'.dist x ≤ s.dist x) ∧
      (∀ x ∈ done, s'.dist x = s.dist x) ∧ (∀ e ∈ es, s'.dist e.1 ≤ ((it.key + e.2 : K) : WithTop K)) ∧
      s'.heap.n ≤ s.heap.n + es.length := by
  induction es generalizing s with
  | nil =>
    exact ⟨s, rfl, inv, fun _ => le_rfl, fun _ _ => rfl, forall_mem_nil _, le_rfl⟩
  | cons e es ih =>
    obtain ⟨v, w⟩ := e
    have edge : g.Edge it.node v w := edges (v, w) mem_cons_self
    have others : ∀ e ∈ es, g.Edge it.node e.1 e.2 := fun e member => edges e (mem_cons_of_mem _ member)
    rw [dijkstraEdges, if_neg (not_lt.mpr (weights _ _ _ edge))]
    by_cases better : ((it.key + w : K) : WithTop K) < s.dist v
    · obtain ⟨new, inv'⟩ := inv.improve here edge weights past better
      have kept : ∀ x ∈ done, update s.dist v ((it.key + w : K) : WithTop K) x = s.dist x := by
        intro x settled
        refine update_of_ne ?_ ..
        rintro rfl
        exact new settled
      obtain ⟨s', ran, inv'', lower, same, satisfied, size⟩ := ih others inv' ((kept _ known).trans here)
        fun x settled => (kept x settled).le.trans (past x settled)
      rw [if_pos better]
      refine ⟨s', ran, inv'', fun x => (lower x).trans (update_le_self_iff.mpr better.le x),
        fun x settled => (same x settled).trans (kept x settled), fun e member => ?_, ?_⟩
      · rcases mem_cons.mp member with rfl | member
        · exact (lower v).trans (update_self ..).le
        · exact satisfied e member
      · rw [length_cons]
        exact size.trans (by change s.heap.n + 1 + es.length ≤ _; omega)
    · obtain ⟨s', ran, inv', lower, same, satisfied, size⟩ := ih others inv here past
      rw [if_neg better]
      refine ⟨s', ran, inv', lower, same, fun e member => ?_, ?_⟩
      · rcases mem_cons.mp member with rfl | member
        · exact (lower v).trans (not_lt.mp better)
        · exact satisfied e member
      · rw [length_cons]
        omega

theorem Settling.finish (inv : Settling g src done s) (closed : Closed g done s.dist)
    (empty : ∀ x, ¬s.heap.Has x) (v : Nat) : Shortest g.Edge src v (s.dist v) := by
  have stable : ∀ u v w, g.Edge u v w → s.dist v ≤ s.dist u + w := by
    intro u v w edge
    cases value : s.dist u with
    | top => exact le_top
    | coe c =>
      have settled : u ∈ done := by
        by_contra open_node
        exact empty _ (inv.queued u open_node c value)
      rw [← value]
      exact closed u settled v w edge
  refine ⟨fun l c walk => ?_, inv.sound v⟩
  have bound := walk.bounded stable
  rwa [inv.start, zero_add] at bound

def remaining (g : DynGraph K) (done : Finset Nat) (s : Search K) : Nat :=
  s.heap.n + ∑ u ∈ Finset.range g.n \ done, (g.adj u).length

theorem dijkstraLoop_spec (weights : ∀ u v w, g.Edge u v w → 0 ≤ w) (fuel : Nat) (inv : Settling g src done s)
    (closed : Closed g done s.dist) (enough : remaining g done s < fuel) :
    ∃ dist, dijkstraLoop g fuel s = some (.ok dist) ∧ ∀ v, Shortest g.Edge src v (dist v) := by
  induction fuel generalizing done s with
  | zero => omega
  | succ fuel ih =>
    rw [dijkstraLoop]
    cases pop : heapPop s.heap with
    | none => exact ⟨s.dist, rfl, inv.finish closed (heapPop_none pop)⟩
    | some taken =>
      obtain ⟨it, h⟩ := taken
      have popped := heapPop_spec inv.ordered pop
      have size := popped.size
      dsimp only
      by_cases stale : s.dist it.node < it.key
      · -- an entry older than the node's distance
        have inv' := inv.pop popped (Finset.Subset.refl done) (fun u settled => .inl settled) fun v _ c value same => by
          rw [← same, value] at stale
          exact lt_irrefl _ stale
        rw [if_pos stale]
        refine ih inv' closed ?_
        simp only [remaining] at enough ⊢
        omega
      · have here : s.dist it.node = it.key := le_antisymm (inv.keys it popped.was) (not_lt.mp stale)
        have inside := inv.nodes it popped.was
        have edges : ∀ e ∈ g.adj it.node, g.Edge it.node e.1 e.2 := fun e member => member
        rw [if_neg stale]
        by_cases again : it.node ∈ done
        · have inv' := inv.pop popped (Finset.Subset.refl done) (fun u settled => .inl settled)
            fun v open_node c value same => open_node (by rw [← same] at again; exact again)
          rw [dijkstraEdges_idle it _ (fun e member => weights _ _ _ (edges e member)) fun e member => by
            have bound := closed it.node again e.1 e.2 (edges e member)
            rwa [here] at bound]
          refine ih inv' closed ?_
          simp only [remaining] at enough ⊢
          omega
        · have inv' := inv.pop popped (subset_insert it.node done) (fun u settled => by
              rcases mem_insert.mp settled with rfl | old
              · exact .inr here
              · exact .inl old)
            fun v open_node c value same => open_node (mem_insert.mpr (.inl (by rw [← same])))
          have past : ∀ x ∈ insert it.node done, s.dist x ≤ it.key := by
            intro x settled
            rcases mem_insert.mp settled with rfl | old
            · exact here.le
            · exact inv.ahead x old it popped.was
          obtain ⟨s', ran, inv'', lower, same, satisfied, pushes⟩ :=
            dijkstraEdges_spec it (g.adj it.node) edges weights inv' here past (mem_insert_self _ _)
          rw [ran]
          refine ih inv'' (fun u settled v w edge => ?_) ?_
          · rw [same u settled]
            rcases mem_insert.mp settled with rfl | old
            · change s'.dist v ≤ s.dist it.node + w
              rw [here]
              exact satisfied (v, w) edge
            · exact (lower v).trans (closed u old v w edge)
          · have split : ∑ u ∈ Finset.range g.n \ insert it.node done, (g.adj u).length + (g.adj it.node).length =
                ∑ u ∈ Finset.range g.n \ done, (g.adj u).length := by
              rw [sdiff_insert]
              exact Finset.sum_erase_add _ _ (Finset.mem_sdiff.mpr ⟨Finset.mem_range.mpr inside, again⟩)
            simp only [remaining] at enough ⊢
            dsimp only at pushes
            omega

theorem graphDijkstra_spec (g : DynGraph K) {src : Nat} (inside : src < g.n) (weights : ∀ u v w, g.Edge u v w → 0 ≤ w) :
    ∃ dist, graphDijkstra g src = some (.ok dist) ∧ ∀ v, Shortest g.Edge src v (dist v) := by
  rw [graphDijkstra, if_neg (by omega), (graphHasNegative_iff g).mpr weights]
  refine dijkstraLoop_spec weights _ (dijkstraStart_settling inside)
    (fun u settled => absurd settled (notMem_empty u)) ?_
  change 1 + edgeCount g < edgeCount g + 2
  omega

end DynaJS.Graph
