import DynaJS.Graph.Dijkstra

/-! `dyn_graph_astar`: a search ordered by score plus heuristic, in which a closed node that is
improved is opened again. -/
namespace DynaJS.Graph

open Function Engine Heap Walks List Except
open WithTop (coe_add coe_inj coe_le_coe coe_lt_coe coe_zero)

variable {K : Type} [AddCommGroup K] [LinearOrder K]

structure Route (K : Type) where
  gscore : Nat → WithTop K
  prev : Nat → Option Nat
  closed : Nat → Bool
  heap : Queue K
  pushes : Nat

def pushCap (n : Nat) : Nat := n * 64 + 1024

/-- The score of `v` falls to `score`. A score that falls is finite. -/
def astarImprove (h : Nat → K) (u v : Nat) (score : WithTop K) (s : Route K) : Route K where
  gscore := update s.gscore v score
  prev := update s.prev v (some u)
  closed := update s.closed v false
  heap := heapPush s.heap (score.untopD 0 + h v) v
  pushes := s.pushes + 1

def astarEdges (h : Nat → K) (cap u : Nat) : List (Nat × K) → Route K → Except Thrown (Route K)
  | [], s => .ok s
  | (v, w) :: es, s =>
    if s.gscore u + w < s.gscore v then
      if cap < s.pushes + 1 then
        .error (.rangeError "aStar: heuristic reopens too many nodes (push budget exceeded)")
      else astarEdges h cap u es (astarImprove h u v (s.gscore u + w) s)
    else astarEdges h cap u es s

def astarLoop (g : DynGraph K) (h : Nat → K) (cap dst : Nat) : Nat → Route K → Option (Except Thrown (Route K))
  | 0, _ => none
  | fuel + 1, s =>
    match heapPop s.heap with
    | none => some (.ok s)
    | some (it, q) =>
      if s.closed it.node then astarLoop g h cap dst fuel { s with heap := q }
      else
        let s := { s with heap := q, closed := update s.closed it.node true }
        if it.node = dst then some (.ok s)
        else
          match astarEdges h cap it.node (g.adj it.node) s with
          | .error e => some (.error e)
          | .ok s => astarLoop g h cap dst fuel s

def astarChain (prev : Nat → Option Nat) : Nat → Option Nat → List Nat × Option Nat
  | 0, cur => ([], cur)
  | _ + 1, none => ([], none)
  | room + 1, some v => (v :: (astarChain prev room (prev v)).1, (astarChain prev room (prev v)).2)

structure Found (K : Type) where
  dist : WithTop K
  path : List Nat
  deriving DecidableEq

def astarResult (n dst : Nat) (s : Route K) : Except Thrown (Found K) :=
  if s.gscore dst = ⊤ then .ok ⟨⊤, []⟩
  else
    match astarChain s.prev n (some dst) with
    | (rev, none) => .ok ⟨s.gscore dst, rev.reverse⟩
    | (_, some _) => .error (.internalError "graph.aStar: predecessor cycle in the reconstructed path")

def astarStart (h : Nat → K) (src : Nat) : Route K where
  gscore := update (fun _ => ⊤) src 0
  prev := fun _ => none
  closed := fun _ => false
  heap := heapPush ⟨fun _ => ⟨0, 0⟩, 0⟩ (h src) src
  pushes := 1

def graphAstar (g : DynGraph K) (src dst : Nat) (h : Nat → K) : Option (Except Thrown (Found K)) :=
  if g.n ≤ src ∨ g.n ≤ dst then some (.error (.rangeError "aStar: node out of range"))
  else if graphHasNegative g then some (.error (.rangeError "aStar: negative edge weight"))
  else
    match astarLoop g h (pushCap g.n) dst (pushCap g.n + 1) (astarStart h src) with
    | none => none
    | some (.error e) => some (.error e)
    | some (.ok s) => some (astarResult g.n dst s)

variable {g : DynGraph K} {src dst : Nat} {h : Nat → K} {s : Route K}

/-- `c` is the weight of a walk from `src` to `v`, and at each node before `v` the weight so far
plus the heuristic satisfies `P`. -/
inductive Under (g : DynGraph K) (src : Nat) (h : Nat → K) (P : K → Prop) : Nat → K → Prop
  | start : Under g src h P src 0
  | step {u v : Nat} {a w : K} : Under g src h P u a → P (a + h u) → g.Edge u v w → Under g src h P v (a + w)

/-- Some walk to `dst` of weight `c` keeps weight so far plus heuristic within `k`. -/
def Within (g : DynGraph K) (src dst : Nat) (h : Nat → K) (k c : K) : Prop :=
  Under g src h (· ≤ k) dst c ∧ c + h dst ≤ k

def Low (g : DynGraph K) (src dst : Nat) (h : Nat → K) (x : K) : Prop := ∀ k c, Within g src dst h k c → x ≤ k

/-- Some walk to `dst` of weight `c` is a lowest one: where it is highest, weight so far plus
heuristic is at most the largest such value of every other walk. -/
def Lowest (g : DynGraph K) (src dst : Nat) (h : Nat → K) (c : K) : Prop :=
  Under g src h (Low g src dst h) dst c ∧ Low g src dst h (c + h dst)

omit [LinearOrder K] in
theorem Under.walk {P : K → Prop} {v : Nat} {c : K} (under : Under g src h P v c) : ∃ l, Walk g.Edge src v l c := by
  induction under with
  | start => exact ⟨[], .nil src⟩
  | step _ _ edge ih =>
    obtain ⟨l, walk⟩ := ih
    exact ⟨_, walk.snoc edge⟩

/-- The scores are weights of walks as low as any, and the predecessors lead back along edges
that the scores allow for. -/
structure Linked (g : DynGraph K) (src dst : Nat) (h : Nat → K) (s : Route K) : Prop where
  start : s.gscore src = 0
  sound : ∀ v (c : K), s.gscore v = c → Under g src h (Low g src dst h) v c
  root : s.prev src = none
  back : ∀ v (c : K), s.gscore v = c → v ≠ src →
    ∃ u a w, s.prev v = some u ∧ s.gscore u = (a : K) ∧ g.Edge u v w ∧ a + w ≤ c

/-- What holds between the steps; the edges of a closed node are satisfied, those of the node
at work excepted. -/
structure Searching (g : DynGraph K) (src dst : Nat) (h : Nat → K) (busy : Nat → Prop) (s : Route K) : Prop extends
    Linked g src dst h s where
  ordered : Ordered Item.key s.heap.a s.heap.n
  keys : ∀ x, s.heap.Has x → s.gscore x.node + h x.node ≤ x.key
  queued : ∀ v, s.closed v = false → ∀ c : K, s.gscore v = c → s.heap.Has ⟨c + h v, v⟩
  satisfied : ∀ u, s.closed u = true → ¬busy u → ∀ v w, g.Edge u v w → s.gscore v ≤ s.gscore u + w

theorem Searching.pop {busy : Nat → Prop} (inv : Searching g src dst h (fun _ => False) s) {it : Item K} {q : Queue K}
    (popped : Popped s.heap it q) {shut : Nat → Bool} (now : shut it.node = true)
    (still : ∀ x, shut x = true → ¬busy x → s.closed x = true) (only : ∀ x, shut x = false → s.closed x = false) :
    Searching g src dst h busy { s with heap := q, closed := shut } where
  start := inv.start
  sound := inv.sound
  root := inv.root
  back := inv.back
  ordered := popped.ordered
  keys := fun x held => inv.keys x (popped.old x held)
  queued := fun v opened c value => by
    refine (popped.rest _ (inv.queued v (only v opened) c value)).resolve_left fun same => ?_
    change shut v = false at opened
    rw [← same, opened] at now
    contradiction
  satisfied := fun u closed idle => inv.satisfied u (still u closed idle) not_false

theorem astarStart_searching (h : Nat → K) (src : Nat) : Searching g src dst h (fun _ => False) (astarStart h src) := by
  have none : Ordered Item.key (fun _ => (⟨0, 0⟩ : Item K)) 0 := fun i _ bound => absurd bound (Nat.not_lt_zero i)
  obtain ⟨order, has⟩ := heapPush_spec (h := (⟨fun _ => ⟨0, 0⟩, 0⟩ : Queue K)) none (h src) src
  have near : (astarStart h src).gscore src = 0 := by simp [astarStart]
  refine ⟨⟨near, fun v c value => ?_, rfl, fun v c value far => absurd (start_only value).1 far⟩, order,
    fun x held => ?_,
    fun v _ c value => ?_, fun u shut => by contradiction⟩
  · obtain ⟨rfl, rfl⟩ := start_only value
    exact .start
  · rcases (has x).mp held with rfl | ⟨i, hi, -⟩
    · change (astarStart h src).gscore src + h src ≤ h src
      rw [near, zero_add]
    · exact absurd hi (Nat.not_lt_zero i)
  · obtain ⟨rfl, rfl⟩ := start_only value
    exact (has _).mpr (.inl (by rw [zero_add]))

omit [AddCommGroup K] in
theorem astarResult_dist {n : Nat} {r : Found K} (ran : astarResult n dst s = .ok r) : r.dist = s.gscore dst := by
  rw [astarResult] at ran
  split at ran
  · rename_i far
    rw [← ok.inj ran, far]
  · split at ran
    · rw [← ok.inj ran]
    · contradiction

variable [IsOrderedAddMonoid K]

theorem Searching.improve {u v : Nat} {a w : K} (inv : Searching g src dst h (· = u) s) (here : s.gscore u = a)
    (low : Low g src dst h (a + h u)) (edge : g.Edge u v w) (weights : ∀ u v w, g.Edge u v w → 0 ≤ w)
    (better : ((a + w : K) : WithTop K) < s.gscore v) :
    v ≠ u ∧ Searching g src dst h (· = u) (astarImprove h u v (a + w : K) s) := by
  have other := (improved_sound inv.start (fun v c value => (inv.sound v c value).walk) here edge weights better).1
  have sound := (forall_update_iff s.gscore fun x d => ∀ c : K, d = c → Under g src h (Low g src dst h) x c).mpr
    ⟨fun c value => by rw [← coe_inj.mp value]; exact (inv.sound u a here).step low edge, fun x _ => inv.sound x⟩
  have apart : v ≠ u := by
    rintro rfl
    rw [here, coe_lt_coe] at better
    exact absurd better (not_lt.mpr (le_add_of_nonneg_right (weights v v w edge)))
  obtain ⟨order, has⟩ := heapPush_spec inv.ordered (a + w + h v) v
  have lower : (astarImprove h u v (a + w : K) s).gscore ≤ s.gscore := update_le_self_iff.mpr better.le
  have at_v : (astarImprove h u v (a + w : K) s).gscore v = ((a + w : K) : WithTop K) := update_self ..
  have elsewhere : ∀ x, x ≠ v → (astarImprove h u v (a + w : K) s).gscore x = s.gscore x :=
    fun x far => update_of_ne far ..
  refine ⟨apart, ⟨(elsewhere src other.symm).trans inv.start, sound, ?_, ?_⟩, order, ?_, ?_, ?_⟩
  · change update s.prev v (some u) src = none
    rw [update_of_ne (Ne.symm other)]
    exact inv.root
  · intro x c value far
    change ∃ y b z, update s.prev v (some u) x = some y ∧ _
    by_cases same : x = v
    · rw [same, at_v, coe_inj] at value
      rw [same, update_self]
      exact ⟨u, a, w, rfl, (elsewhere u (Ne.symm apart)).trans here, edge, value.le⟩
    rw [elsewhere x same] at value
    obtain ⟨y, b, z, link, score, next, within⟩ := inv.back x c value far
    rw [update_of_ne same]
    by_cases via : y = v
    · rw [via] at score
      rw [score, coe_lt_coe] at better
      refine ⟨y, a + w, z, link, by rw [via, at_v], next, le_trans ?_ within⟩
      exact add_le_add_left better.le z
    · exact ⟨y, b, z, link, (elsewhere y via).trans score, next, within⟩
  · intro x held
    rcases (has x).mp held with rfl | old
    · change (astarImprove h u v (a + w : K) s).gscore v + h v ≤ _
      rw [at_v]
      exact le_rfl
    · exact (add_le_add_left (lower x.node) _).trans (inv.keys x old)
  · intro x opened c value
    by_cases same : x = v
    · rw [same, at_v, coe_inj] at value
      exact (has _).mpr (.inl (by rw [same, value]))
    · rw [elsewhere x same] at value
      have before : s.closed x = false := by
        change update s.closed v false x = false at opened
        rwa [update_of_ne same] at opened
      exact (has _).mpr (.inr (inv.queued x before c value))
  · intro x shut idle y z next
    change update s.closed v false x = true at shut
    have same : x ≠ v := by
      rintro rfl
      rw [update_self] at shut
      contradiction
    rw [update_of_ne same] at shut
    rw [elsewhere x same]
    exact (lower y).trans (inv.satisfied x shut idle y z next)

theorem astarEdges_spec (cap : Nat) {u : Nat} {a : K} (es : List (Nat × K)) (edges : ∀ e ∈ es, g.Edge u e.1 e.2)
    (weights : ∀ u v w, g.Edge u v w → 0 ≤ w) (inv : Searching g src dst h (· = u) s) (here : s.gscore u = a)
    (low : Low g src dst h (a + h u)) (budget : s.pushes ≤ cap) :
    (∃ e, astarEdges h cap u es s = .error e) ∨
      ∃ s', astarEdges h cap u es s = .ok s' ∧ Searching g src dst h (· = u) s' ∧ (∀ x, s'.gscore x ≤ s.gscore x) ∧
        s'.gscore u = a ∧ (∀ e ∈ es, s'.gscore e.1 ≤ ((a + e.2 : K) : WithTop K)) ∧
        (∀ x, s.closed x = false → s'.closed x = false) ∧
        s'.pushes ≤ cap ∧ s'.heap.n + (cap - s'.pushes) = s.heap.n + (cap - s.pushes) := by
  induction es generalizing s with
  | nil =>
    exact .inr ⟨s, rfl, inv, fun _ => le_rfl, here, forall_mem_nil _, fun _ => id, budget,
      rfl⟩
  | cons e es ih =>
    obtain ⟨v, w⟩ := e
    have edge : g.Edge u v w := edges (v, w) mem_cons_self
    have others : ∀ e ∈ es, g.Edge u e.1 e.2 := fun e member => edges e (mem_cons_of_mem _ member)
    rw [astarEdges, here, ← coe_add]
    by_cases better : ((a + w : K) : WithTop K) < s.gscore v
    · rw [if_pos better]
      by_cases spent : cap < s.pushes + 1
      · rw [if_pos spent]
        exact .inl ⟨_, rfl⟩
      obtain ⟨apart, inv'⟩ := inv.improve here low edge weights better
      have kept : (astarImprove h u v (a + w : K) s).gscore u = a := (update_of_ne (Ne.symm apart) ..).trans here
      rw [if_neg spent]
      rcases ih others inv' kept (by change s.pushes + 1 ≤ cap; omega) with
        error | ⟨s', ran, inv'', lower, same, satisfied, opened, left, size⟩
      · exact .inl error
      refine .inr ⟨s', ran, inv'', fun x => (lower x).trans (update_le_self_iff.mpr better.le x), same,
        fun e member => ?_, fun x was => opened x ?_, left, ?_⟩
      · rcases mem_cons.mp member with rfl | later
        · exact (lower v).trans (update_self ..).le
        · exact satisfied e later
      · change update s.closed v false x = false
        by_cases there : x = v
        · rw [there, update_self]
        · rw [update_of_ne there, was]
      · rw [size]
        change s.heap.n + 1 + (cap - (s.pushes + 1)) = _
        omega
    · rw [if_neg better]
      rcases ih others inv here budget with error | ⟨s', ran, inv', lower, same, satisfied, opened, left, size⟩
      · exact .inl error
      refine .inr ⟨s', ran, inv', lower, same, fun e member => ?_, opened, left, size⟩
      rcases mem_cons.mp member with rfl | later
      · exact (lower v).trans (not_lt.mp better)
      · exact satisfied e later

/-- While `dst` is open, the first open node of a walk is queued with a key below the walk's
highest value. -/
theorem Searching.queued_below (inv : Searching g src dst h (fun _ => False) s) (opened : s.closed dst = false)
    {k c : K} (within : Within g src dst h k c) : ∃ x, s.heap.Has x ∧ x.key ≤ k := by
  have first : ∀ {v : Nat} {a : K}, s.closed v = false → s.gscore v ≤ a → a + h v ≤ k →
      ∃ x, s.heap.Has x ∧ x.key ≤ k := by
    intro v a shut reached key
    obtain ⟨b, value⟩ := WithTop.ne_top_iff_exists.mp (ne_top_of_le_ne_top WithTop.coe_ne_top reached)
    rw [← value, coe_le_coe] at reached
    exact ⟨_, inv.queued v shut b value.symm, (add_le_add_left reached _).trans key⟩
  have along : ∀ {v : Nat} {a : K}, Under g src h (· ≤ k) v a →
      (∃ x, s.heap.Has x ∧ x.key ≤ k) ∨ s.gscore v ≤ a := by
    intro v a under
    induction under with
    | start => exact .inr inv.start.le
    | @step u v a w _ key edge ih =>
      rcases ih with found | reached
      · exact .inl found
      cases shut : s.closed u with
      | false => exact .inl (first shut reached key)
      | true => exact .inr ((inv.satisfied u shut not_false v w edge).trans (add_le_add_left reached _))
  rcases along within.1 with found | reached
  · exact found
  · exact first opened reached within.2

def Admissible (g : DynGraph K) (dst : Nat) (h : Nat → K) : Prop := ∀ v l c, Walk g.Edge v dst l c → h v ≤ c

theorem Admissible.within (admissible : Admissible g dst h) {k : K} {x : Nat} {l : List Nat} {c : K}
    (walk : Walk g.Edge x dst l c) {a : K} (under : Under g src h (· ≤ k) x a) (total : a + c ≤ k) :
    Within g src dst h k (a + c) := by
  induction walk generalizing a with
  | nil v =>
    have low : h v ≤ 0 := admissible v [] 0 (.nil v)
    rw [add_zero] at total ⊢
    exact ⟨under, (add_le_of_nonpos_right low).trans total⟩
  | @cons x y v w c l edge rest ih =>
    have key : a + h x ≤ k := (add_le_add_right (admissible x _ _ (.cons edge rest)) a).trans total
    rw [← add_assoc] at total ⊢
    exact ih admissible (.step under key edge) total

theorem Admissible.lowest_shortest (admissible : Admissible g dst h) (zero : h dst = 0) {c : K}
    (lowest : Lowest g src dst h c) : Shortest g.Edge src dst (c : WithTop K) := by
  refine ⟨fun l d walk => ?_, fun d value => coe_inj.mp value ▸ lowest.1.walk⟩
  have bound := lowest.2 d _ (admissible.within walk .start (zero_add d).le)
  rw [zero, add_zero] at bound
  exact coe_le_coe.mpr bound

/-- The search ends; when it does not throw, `dst` has the weight of a lowest walk for its
score, or there is no walk. -/
theorem astarLoop_spec (weights : ∀ u v w, g.Edge u v w → 0 ≤ w) (admissible : Admissible g dst h) (cap : Nat)
    (fuel : Nat) (inv : Searching g src dst h (fun _ => False) s) (opened : s.closed dst = false)
    (budget : s.pushes ≤ cap) (enough : s.heap.n + (cap - s.pushes) < fuel) :
    ∃ out, astarLoop g h cap dst fuel s = some out ∧ ∀ s', out = .ok s' → Linked g src dst h s' ∧
      (∀ c : K, s'.gscore dst = c → Lowest g src dst h c) ∧
      (s'.gscore dst = ⊤ → ∀ l c, ¬Walk g.Edge src dst l c) := by
  induction fuel generalizing s with
  | zero => omega
  | succ fuel ih =>
    rw [astarLoop]
    cases pop : heapPop s.heap with
    | none =>
      have unreached : ∀ l c, ¬Walk g.Edge src dst l c := by
        intro l c walk
        obtain ⟨x, held, -⟩ := inv.queued_below opened (admissible.within walk .start (zero_add c).le)
        exact heapPop_none pop x held
      refine ⟨_, rfl, fun s' ended => ?_⟩
      rw [← ok.inj ended]
      refine ⟨inv.toLinked, fun c value => ?_, fun _ => unreached⟩
      obtain ⟨l, walk⟩ := (inv.sound dst c value).walk
      exact absurd walk (unreached l c)
    | some taken =>
      obtain ⟨it, q⟩ := taken
      have popped := heapPop_spec inv.ordered pop
      have size := popped.size
      have key := inv.keys it popped.was
      have low : ∀ a : K, s.gscore it.node = a → Low g src dst h (a + h it.node) := by
        intro a value k c within
        obtain ⟨x, held, below⟩ := inv.queued_below opened within
        rw [value, ← coe_add, coe_le_coe] at key
        exact key.trans ((popped.least x held).trans below)
      obtain ⟨a, value⟩ : ∃ a : K, a = s.gscore it.node := by
        refine WithTop.ne_top_iff_exists.mp fun top => ?_
        rw [top] at key
        exact absurd (top_le_iff.mp key) WithTop.coe_ne_top
      dsimp only
      cases shut : s.closed it.node with
      | true =>
        rw [if_pos rfl]
        exact ih (inv.pop popped shut (fun x closed _ => closed) fun x => id) opened budget (by dsimp only; omega)
      | false =>
        rw [if_neg Bool.false_ne_true]
        split_ifs with target
        · refine ⟨_, rfl, fun s' ended => ?_⟩
          rw [← ok.inj ended]
          rw [target] at low value
          refine ⟨⟨inv.start, inv.sound, inv.root, inv.back⟩, fun c score => ⟨inv.sound dst c score, low c score⟩,
            fun top => ?_⟩
          exact absurd (value.trans top) WithTop.coe_ne_top
        · have inv' : Searching g src dst h (· = it.node)
              { s with heap := q, closed := update s.closed it.node true } := by
            refine inv.pop popped (update_self ..) (fun x closed idle => ?_) fun x open_node => ?_
            · rwa [update_of_ne idle] at closed
            · by_cases same : x = it.node
              · rw [same, update_self] at open_node
                contradiction
              · rwa [update_of_ne same] at open_node
          rcases astarEdges_spec cap (g.adj it.node) (fun e member => member) weights inv' value.symm
              (low a value.symm) budget with
            ⟨e, thrown⟩ | ⟨s', ran, inv'', lower, same, satisfied, kept, left, rounds⟩
          · rw [thrown]
            exact ⟨_, rfl, fun s' ended => by contradiction⟩
          · rw [ran]
            refine ih ⟨inv''.toLinked, inv''.ordered, inv''.keys, inv''.queued, fun u closed _ v w edge => ?_⟩
              (kept dst ?_) left ?_
            · by_cases here : u = it.node
              · rw [here, same]
                exact satisfied (v, w) (here ▸ edge)
              · exact inv''.satisfied u closed here v w edge
            · dsimp only
              rw [update_of_ne (Ne.symm target), opened]
            · rw [rounds]
              dsimp only
              omega

/-- The predecessors of a reached node spell a walk from the source, no heavier than its score. -/
theorem Linked.chain (linked : Linked g src dst h s) (room : Nat) {v : Nat} {c : K} (value : s.gscore v = c)
    {rev : List Nat} (stops : astarChain s.prev room (some v) = (rev, none)) :
    ∃ l c', rev.reverse = src :: l ∧ Walk g.Edge src v l c' ∧ c' ≤ c := by
  induction room generalizing v c rev with
  | zero => exact absurd (congrArg Prod.snd stops) (Option.some_ne_none v)
  | succ room ih =>
    obtain ⟨rfl, last⟩ := Prod.mk.inj stops
    by_cases first : v = src
    · have empty : astarChain s.prev room none = ([], none) := by cases room <;> rfl
      rw [first, linked.root, empty]
      rw [first, linked.start, ← coe_zero, coe_inj] at value
      exact ⟨[], 0, rfl, .nil src, value.le⟩
    · obtain ⟨u, a, w, link, score, edge, within⟩ := linked.back v c value first
      rw [link] at last ⊢
      obtain ⟨l, c', path, walk, lower⟩ := ih score (Prod.ext rfl last)
      refine ⟨l ++ [v], c' + w, ?_, walk.snoc edge, (add_le_add_left lower w).trans within⟩
      rw [reverse_cons, path, cons_append]

/-- The result is the shortest distance and a path of that weight, or says there is none. -/
structure Right (g : DynGraph K) (src dst : Nat) (r : Found K) : Prop where
  dist : Shortest g.Edge src dst r.dist
  none : r.dist = ⊤ → r.path = []
  path : ∀ c : K, r.dist = c → ∃ l, r.path = src :: l ∧ Walk g.Edge src dst l c

theorem astarResult_right (linked : Linked g src dst h s)
    (lower : ∀ l c, Walk g.Edge src dst l c → s.gscore dst ≤ (c : WithTop K)) {n : Nat} {r : Found K}
    (ran : astarResult n dst s = .ok r) : Right g src dst r := by
  rw [astarResult] at ran
  split at ran
  · rename_i far
    rw [← ok.inj ran]
    refine ⟨⟨fun l c walk => ?_, fun c never => by contradiction⟩, fun _ => rfl, fun c never => by contradiction⟩
    rw [← far]
    exact lower l c walk
  · split at ran
    · rename_i rev stops
      rw [← ok.inj ran]
      refine ⟨⟨lower, fun c value => (linked.sound dst c value).walk⟩, fun far => by contradiction, fun c value => ?_⟩
      obtain ⟨l, c', path, walk, below⟩ := linked.chain n value stops
      have above := lower l c' walk
      change s.gscore dst = c at value
      rw [value, coe_le_coe] at above
      rw [le_antisymm below above] at walk
      exact ⟨l, path, walk⟩
    · contradiction

section Detour

/-- Three nodes: the destination by one edge of weight 2, or by edges of weight 0 and 1. -/
def detour : DynGraph ℤ where
  directed := true
  weighted := true
  n := 3
  m := 3
  adj := fun u => if u = 0 then [(2, 2), (1, 0)] else if u = 1 then [(2, 1)] else []
  inside := fun u e member => by
    split at member
    · rcases mem_cons.mp member with rfl | later
      · dsimp only
        omega
      · rw [mem_singleton.mp later]
        omega
    · split at member
      · rw [mem_singleton.mp member]
        omega
      · exact absurd member not_mem_nil

theorem detour_edge {u v : Nat} {w : ℤ} (edge : detour.Edge u v w) :
    (u = 0 ∧ v = 2 ∧ w = 2) ∨ (u = 0 ∧ v = 1 ∧ w = 0) ∨ (u = 1 ∧ v = 2 ∧ w = 1) := by
  have member : (v, w) ∈ (if u = 0 then [(2, 2), (1, 0)] else if u = 1 then [(2, 1)] else [] : List (Nat × ℤ)) := edge
  split_ifs at member <;> simp_all

theorem detour_distance {x y : Nat} {l : List Nat} {c : ℤ} (walk : Walk detour.Edge x y l c) :
    (if x = 2 then (0 : ℤ) else 1) ≤ c + if y = 2 then 0 else 1 := by
  induction walk with
  | nil => omega
  | cons edge _ ih => rcases detour_edge edge with ⟨rfl, rfl, rfl⟩ | ⟨rfl, rfl, rfl⟩ | ⟨rfl, rfl, rfl⟩ <;> grind

/-- The heuristic is the distance at node 1 and less elsewhere. -/
def lowered (low : ℤ) (v : Nat) : ℤ := if v = 2 then low else if v = 1 then 1 else 0

theorem detour_admissible {low : ℤ} (below : low ≤ 0) : Admissible detour 2 (lowered low) := by
  intro v l c walk
  have bound := detour_distance walk
  rw [lowered]
  grind

theorem detour_weights (u v : Nat) (w : ℤ) (edge : detour.Edge u v w) : 0 ≤ w := by
  rcases detour_edge edge with ⟨-, -, rfl⟩ | ⟨-, -, rfl⟩ | ⟨-, -, rfl⟩ <;> decide

end Detour

end DynaJS.Graph
