import DynaJS.Lib.Grid

/-! `dyn_middle_snake`: the diagonals are followed from both ends of two segments until they
meet, without clipping them to the segments. -/
namespace DynaJS.Diff

open Grid Bool

structure SnakeWs where
  fwd : Int → Int
  rev : Int → Int
  budget : Nat
  overflow : Bool

def sameAhead (A B : List Nat) (a0 b0 x y : Int) : Bool := decide (A[(a0 + x).toNat]? = B[(b0 + y).toNat]?)

def sameBack (A B : List Nat) (a1 b1 x y : Int) : Bool := decide (A[(a1 - x - 1).toNat]? = B[(b1 - y - 1).toNat]?)

def slide (same : Int → Int → Bool) (N M : Int) : Nat → Int → Int → Int × Int
  | 0, x, y => (x, y)
  | fuel + 1, x, y => if x < N ∧ y < M ∧ same x y = true then slide same N M fuel (x + 1) (y + 1) else (x, y)

structure Reach where
  x0 : Int
  y0 : Int
  x : Int
  y : Int

def reach (same : Int → Int → Bool) (N M : Int) (v : Int → Int) (d k : Int) : Reach :=
  let x := if k = -d ∨ (k ≠ d ∧ v (k - 1) < v (k + 1)) then v (k + 1) else v (k - 1) + 1
  let y := x - k
  let r := slide same N M (N - x).toNat x y
  ⟨x, y, r.1, r.2⟩

def sweep (same : Int → Int → Bool) (N M : Int) (other : Int → Int) (check : Bool) (within d : Int) :
    Nat → Int → (Int → Int) → (Int → Int) × Option Reach
  | 0, _, v => (v, none)
  | count + 1, k, v =>
    let r := reach same N M v d k
    if check = true ∧ -within ≤ k - (N - M) ∧ k - (N - M) ≤ within ∧ N ≤ r.x + other (N - M - k) then
      (Function.update v k r.x, some r)
    else sweep same N M other check within d count (k + 2) (Function.update v k r.x)

inductive SnakeEnd where
  | found (edits x y u v : Int)
  | costly
  | missed

def snakeRounds (A B : List Nat) (a0 a1 b0 b1 : Int) : Nat → Nat → SnakeWs → SnakeWs × SnakeEnd
  | 0, _, w => (w, .missed)
  | rounds + 1, d, w =>
    let N := a1 - a0
    let M := b1 - b0
    let odd := decide ((N - M) % 2 = 1)
    match sweep (sameAhead A B a0 b0) N M w.rev odd (d - 1) d (d + 1) (-d) w.fwd with
    | (fwd, some r) => ({ w with fwd := fwd }, .found (2 * d - 1) (a0 + r.x0) (b0 + r.y0) (a0 + r.x) (b0 + r.y))
    | (fwd, none) =>
      if w.budget < 2 * d + 1 then ({ w with fwd := fwd, budget := 0, overflow := true }, .costly)
      else
        let w := { w with fwd := fwd, budget := w.budget - (2 * d + 1) }
        match sweep (sameBack A B a1 b1) N M w.fwd (!odd) d d (d + 1) (-d) w.rev with
        | (rev, some r) => ({ w with rev := rev }, .found (2 * d) (a1 - r.x) (b1 - r.y) (a1 - r.x0) (b1 - r.y0))
        | (rev, none) =>
          if w.budget < 2 * d + 1 then ({ w with rev := rev, budget := 0, overflow := true }, .costly)
          else snakeRounds A B a0 a1 b0 b1 rounds (d + 1) { w with rev := rev, budget := w.budget - (2 * d + 1) }

def middleSnake (A B : List Nat) (a0 a1 b0 b1 : Int) (w : SnakeWs) : SnakeWs × SnakeEnd :=
  let dmax := (a1 - a0 + (b1 - b0) + 1) / 2
  snakeRounds A B a0 a1 b0 b1 (dmax + 1).toNat 0
    { w with fwd := Function.update w.fwd 1 0, rev := Function.update w.rev 1 0 }

section Round

variable {same : Int → Int → Bool} {n m : Nat}

def cells (same : Int → Int → Bool) (n m p q : Nat) : Bool := decide (p < n) && decide (q < m) && same p q

theorem cells_boxed (same : Int → Int → Bool) (n m : Nat) : Boxed (cells same n m) n m := by
  intro x y free
  rw [cells, and_eq_true, and_eq_true, decide_eq_true_eq, decide_eq_true_eq] at free
  exact free.1

theorem slide_spec (same : Int → Int → Bool) (n m fuel p q : Nat) (enough : n ≤ p + fuel) :
    ∃ t : Nat, slide same n m fuel p q = ((p : Int) + t, (q : Int) + t) ∧
      (∀ i, i < t → cells same n m (p + i) (q + i) = true) ∧ cells same n m (p + t) (q + t) = false := by
  have stop : ∀ p q : Nat, ¬((p : Int) < n ∧ (q : Int) < m ∧ same p q = true) → cells same n m p q = false := by
    intro p q out
    rw [cells, eq_false_iff]
    intro free
    rw [and_eq_true, and_eq_true, decide_eq_true_eq, decide_eq_true_eq] at free
    exact out ⟨by omega, by omega, free.2⟩
  induction fuel generalizing p q with
  | zero =>
    refine ⟨0, by simp [slide], nofun, ?_⟩
    exact stop p q (by omega)
  | succ fuel ih =>
    rw [slide]
    split_ifs with free
    · obtain ⟨t, run, along, shut⟩ := ih (p + 1) (q + 1) (by omega)
      refine ⟨t + 1, ?_, fun i hi => ?_, ?_⟩
      · push_cast at run ⊢
        rw [run, show (p : Int) + (t + 1) = p + 1 + t by omega, show (q : Int) + (t + 1) = q + 1 + t by omega]
      · cases i with
        | zero =>
          rw [cells, and_eq_true, and_eq_true, decide_eq_true_eq, decide_eq_true_eq]
          exact ⟨⟨by omega, by omega⟩, free.2.2⟩
        | succ i =>
          rw [show p + (i + 1) = p + 1 + i by omega, show q + (i + 1) = q + 1 + i by omega]
          exact along i (by omega)
      · rw [show p + (t + 1) = p + 1 + t by omega, show q + (t + 1) = q + 1 + t by omega]
        exact shut
    · exact ⟨0, by simp, nofun, stop p q free⟩

def Prior (ok : Nat → Nat → Bool) (v : Int → Int) : Nat → Prop
  | 0 => v 1 = 0
  | d + 1 => ∀ k : Int, -d ≤ k → k ≤ d → (k + d) % 2 = 0 → Furthest ok d k (v k)

structure Reached (ok : Nat → Nat → Bool) (d : Nat) (k : Int) (r : Reach) (p q t : Nat) : Prop where
  start : r.x0 = p ∧ r.y0 = q
  stop : r.x = ↑(p + t) ∧ r.y = ↑(q + t)
  on : k = (p : Int) - q
  along : ∀ i, i < t → ok (p + i) (q + i) = true
  far : Furthest ok d k ↑(p + t)

variable {v : Int → Int}

variable {d : Nat} {k : Int}

theorem reach_spec (prior : Prior (cells same n m) v d) (low : -(d : Int) ≤ k) (high : k ≤ d)
    (parity : (k + d) % 2 = 0) : ∃ p q t, Reached (cells same n m) d k (reach same n m v d k) p q t := by
  set ok := cells same n m
  -- the point where the diagonal is entered, and that the neighbours were left before it
  obtain ⟨p, q, entry, on, reached, below, beside⟩ : ∃ p q : Nat,
      (if k = -d ∨ (k ≠ d ∧ v (k - 1) < v (k + 1)) then v (k + 1) else v (k - 1) + 1) = p ∧ k = p - q ∧
      edits ok p q ≤ d ∧ (∀ t, d ≤ edits ok (p + t) (q + t + 1)) ∧
      ∀ t, d ≤ edits ok (p + t + 1) (q + t) := by
    cases d with
    | zero =>
      obtain rfl : k = 0 := by omega
      refine ⟨0, 0, ?_, rfl, ?_, fun _ => Nat.zero_le _, fun _ => Nat.zero_le _⟩
      · rw [if_pos (.inl rfl)]
        exact prior
      · rw [edits_top]
    | succ d =>
      have left : -d ≤ k - 1 → Furthest ok d (k - 1) (v (k - 1)) := fun inside =>
        prior (k - 1) inside (by push_cast at high; omega) (by push_cast at parity; omega)
      have right : k + 1 ≤ d → Furthest ok d (k + 1) (v (k + 1)) := fun inside =>
        prior (k + 1) (by push_cast at low; omega) inside (by push_cast at parity; omega)
      -- beyond the neighbours' ends, or outside of the diagonals of the round before
      have below : ∀ p q : Nat, k = p - q → (-d ≤ k - 1 → v (k - 1) < p) → ∀ t,
          d + 1 ≤ edits ok (p + t) (q + t + 1) := by
        intro p q on past t
        by_cases inside : -d ≤ k - 1
        · have bound := past inside
          exact (left inside).beyond (by push_cast; omega) (by push_cast; omega)
        · have bound := (edits_bounds ok (p + t) (q + t + 1)).2.1
          omega
      have beside : ∀ p q : Nat, k = p - q → (k + 1 ≤ d → v (k + 1) ≤ p) → ∀ t,
          d + 1 ≤ edits ok (p + t + 1) (q + t) := by
        intro p q on past t
        by_cases inside : k + 1 ≤ d
        · have bound := past inside
          exact (right inside).beyond (by push_cast; omega) (by push_cast; omega)
        · have bound := (edits_bounds ok (p + t + 1) (q + t)).1
          omega
      split_ifs with choice
      · have inside : k + 1 ≤ d := by
          omega
        obtain ⟨p, q, place, on, reached, -⟩ := id (right inside)
        refine ⟨p, q + 1, place, by push_cast; omega, ?_, below p (q + 1) (by push_cast; omega) fun other => ?_,
          beside p (q + 1) (by push_cast; omega) fun _ => by omega⟩
        · have near := (edits_near ok p q).2.1
          omega
        · rcases choice with edge | ⟨-, less⟩
          · push_cast at edge
            omega
          · omega
      · have inside : -d ≤ k - 1 := by
          omega
        obtain ⟨p, q, place, on, reached, -⟩ := id (left inside)
        refine ⟨p + 1, q, by push_cast; omega, by push_cast; omega, ?_,
          below (p + 1) q (by push_cast; omega) fun _ => by push_cast; omega,
          beside (p + 1) q (by push_cast; omega) fun other => ?_⟩
        · have near := (edits_near ok p q).1.1
          omega
        · push_cast at choice ⊢
          omega
  obtain ⟨t, run, along, shut⟩ := slide_spec same n m ((n : Int) - p).toNat p q (by omega)
  refine ⟨p, q, t, ?_, ?_, on, along, ?_⟩
  · rw [reach, entry]
    exact ⟨rfl, by dsimp only; omega⟩
  · rw [reach, entry, show p - k = q by omega, run]
    exact ⟨rfl, rfl⟩
  · have far := furthest_of_shut (by rw [edits_slide along]; exact reached) shut (below t) (beside t)
    rw [show k = ((p + t : Nat) : Int) - ((q + t : Nat) : Int) by push_cast; omega]
    exact far

def Swept (ok : Nat → Nat → Bool) (v : Int → Int) (d : Nat) : Prop :=
  ∀ k : Int, -(d : Int) ≤ k → k ≤ d → (k + d) % 2 = 0 → Furthest ok d k (v k)

def Meets (n m : Nat) (other : Int → Int) (check : Bool) (within k x : Int) : Prop :=
  check = true ∧ -within ≤ k - ((n : Int) - m) ∧ k - ((n : Int) - m) ≤ within ∧
    (n : Int) ≤ x + other ((n : Int) - m - k)

def SweepEnd (ok : Nat → Nat → Bool) (n m d : Nat) (other : Int → Int) (check : Bool) (within : Int)
    (r : (Int → Int) × Option Reach) : Prop :=
  match r.2 with
  | none => Swept ok r.1 d ∧ ∀ k : Int, -(d : Int) ≤ k → k ≤ d → (k + d) % 2 = 0 →
      ¬Meets n m other check within k (r.1 k)
  | some f => ∃ k p q t, -(d : Int) ≤ k ∧ k ≤ d ∧ (k + d) % 2 = 0 ∧ Reached ok d k f p q t ∧
      Meets n m other check within k f.x

theorem Prior.update {ok : Nat → Nat → Bool} (prior : Prior ok v d) (low : -(d : Int) ≤ k)
    (high : k ≤ d) (parity : (k + d) % 2 = 0) (x : Int) : Prior ok (Function.update v k x) d := by
  cases d with
  | zero =>
    change Function.update v k x 1 = 0
    rw [Function.update_of_ne (by omega)]
    exact prior
  | succ d =>
    intro k' low' high' parity'
    rw [Function.update_of_ne (by push_cast at parity; omega)]
    exact prior k' low' high' parity'

theorem sweep_spec (other : Int → Int) (check : Bool) (within : Int) (count : Nat)
    (prior : Prior (cells same n m) v d) (low : -(d : Int) ≤ k) (parity : (k + d) % 2 = 0)
    (rest : k + 2 * count = d + 2)
    (done : ∀ k' : Int, -(d : Int) ≤ k' → k' < k → (k' + d) % 2 = 0 →
      Furthest (cells same n m) d k' (v k') ∧ ¬Meets n m other check within k' (v k')) :
    SweepEnd (cells same n m) n m d other check within (sweep same n m other check within d count k v) := by
  induction count generalizing k v with
  | zero =>
    exact ⟨fun k' low' high' parity' => (done k' low' (by omega) parity').1,
      fun k' low' high' parity' => (done k' low' (by omega) parity').2⟩
  | succ count ih =>
    have high : k ≤ d := by omega
    obtain ⟨p, q, t, reached⟩ := reach_spec prior low high parity
    rw [sweep]
    by_cases meets : Meets n m other check within k (reach same n m v d k).x
    · have test := meets
      unfold Meets at test
      rw [if_pos test]
      exact ⟨k, p, q, t, low, high, parity, reached, meets⟩
    · have test := meets
      unfold Meets at test
      rw [if_neg test]
      refine ih (prior.update low high parity _) (by omega) (by omega) (by omega) fun k' low' high' parity' => ?_
      by_cases this : k' = k
      · subst this
        rw [Function.update_self]
        refine ⟨?_, meets⟩
        rw [reached.stop.1]
        exact reached.far
      · rw [Function.update_of_ne this]
        exact done k' low' (by omega) parity'

theorem sweep_round (other : Int → Int) (check : Bool) (within : Int) (prior : Prior (cells same n m) v d) :
    SweepEnd (cells same n m) n m d other check within (sweep same n m other check within d (d + 1) (-d) v) :=
  sweep_spec other check within (d + 1) prior le_rfl (by omega) (by push_cast; omega) fun k' low' high' _ => by omega

end Round

section Middle

variable {ok ok' : Nat → Nat → Bool} {n m : Nat}

/-- Searches that share a shortest way meet on one of their diagonals. -/
theorem Swept.meets {fwd rev : Int → Int} {d e : Nat} (mirror : Mirror ok ok' n m) (ahead : Swept ok fwd d)
    (back : Swept ok' rev e)
    (least : edits ok n m = d + e) :
    ∃ k : Int, -(d : Int) ≤ k ∧ k ≤ d ∧ (k + d) % 2 = 0 ∧ Meets n m rev true e k (fwd k) := by
  obtain ⟨x, y, hx, hy, here, there⟩ := mirror.split (d := d) le_rfl le_rfl (by omega)
  rw [Nat.sub_self, edits_top] at there
  have way := mirror.through (i := n - x) (j := m - y) (by omega) (by omega)
  rw [show n - (n - x) = x by omega, show m - (m - y) = y by omega] at way
  have first := edits_bounds ok x y
  have second := edits_bounds ok' (n - x) (m - y)
  have parity := edits_parity ok x y
  have parity' := edits_parity ok' (n - x) (m - y)
  have far := ahead (x - y) (by omega) (by omega) (by omega)
  have far' := back (n - m - (x - y)) (by omega) (by omega) (by omega)
  have reached : x ≤ fwd (x - y) := by
    by_contra short
    have beyond := far.beyond rfl (by omega)
    omega
  have reached' : ((n - x : Nat) : Int) ≤ rev (n - m - (x - y)) := by
    by_contra short
    have beyond := far'.beyond (p := n - x) (q := m - y) (by omega) (by omega)
    omega
  exact ⟨x - y, by omega, by omega, by omega, rfl, by omega, by omega, by omega⟩

/-- The snake: a diagonal of equal tokens inside the segments, on a shortest way and with half
of its edits on each side. -/
structure Middle (ok ok' : Nat → Nat → Bool) (n m p q t : Nat) : Prop where
  inside : p + t ≤ n ∧ q + t ≤ m
  along : ∀ i, i < t → ok (p + i) (q + i) = true
  total : edits ok p q + edits ok' (n - (p + t)) (m - (q + t)) = edits ok n m
  halves : edits ok p q ≤ edits ok' (n - (p + t)) (m - (q + t)) + 1 ∧
    edits ok' (n - (p + t)) (m - (q + t)) ≤ edits ok p q

theorem Reached.inside {d e : Nat} {k : Int} {r : Reach} {p q t : Nat} {other : Int → Int} {check : Bool}
    (mirror : Mirror ok ok' n m)
    (boxed : Boxed ok n m) (reached : Reached ok d k r p q t)
    (back : Furthest ok' e ((n : Int) - m - k) (other ((n : Int) - m - k)))
    (meets : Meets n m other check e k r.x) (least : d + e ≤ edits ok n m) :
    p + t ≤ n ∧ q + t ≤ m ∧ edits ok p q = d ∧ edits ok' (n - (p + t)) (m - (q + t)) = e ∧ d + e = edits ok n m := by
  have overlap := meets.2.2.2
  rw [reached.stop.1] at overlap
  have most := mirror.meet reached.far back overlap
  have on := reached.on
  obtain ⟨hp, hq, here, there⟩ := mirror.inside (q := q + t) boxed reached.far
    (by push_cast; omega) back overlap (by omega)
  rw [edits_slide reached.along] at here
  exact ⟨hp, hq, here, there, by omega⟩

end Middle

section Segments

variable {A B : List Nat} {a0 b0 n m : Nat}

def ahead (A B : List Nat) (a0 b0 n m : Nat) : Nat → Nat → Bool := cells (sameAhead A B a0 b0) n m

def back (A B : List Nat) (a0 b0 n m : Nat) : Nat → Nat → Bool :=
  cells (sameBack A B ↑(a0 + n) ↑(b0 + m)) n m

theorem ahead_mirror (A B : List Nat) (a0 b0 n m : Nat) : Mirror (ahead A B a0 b0 n m) (back A B a0 b0 n m) n m := by
  intro x y hx hy
  rw [ahead, back, cells, cells, sameAhead, sameBack, decide_eq_true hx, decide_eq_true hy,
    decide_eq_true (show n - 1 - x < n by omega), decide_eq_true (show m - 1 - y < m by omega),
    show ((a0 + n : Nat) : Int) - ((n - 1 - x : Nat) : Int) - 1 = (a0 : Int) + x by omega,
    show ((b0 + m : Nat) : Int) - ((m - 1 - y : Nat) : Int) - 1 = (b0 : Int) + y by omega]

theorem span_end (a n : Nat) : ((a + n : Nat) : Int) - a = n := by omega

def SnakeFound (A B : List Nat) (a0 b0 n m : Nat) : SnakeEnd → Prop
  | .found _ x y u v => ∃ p q t : Nat, x = ↑(a0 + p) ∧ y = ↑(b0 + q) ∧
      u = ↑(a0 + p + t) ∧ v = ↑(b0 + q + t) ∧
      Middle (ahead A B a0 b0 n m) (back A B a0 b0 n m) n m p q t
  | .costly => True
  | .missed => False

/-- The rounds: as long as the searches have not met, a shortest way takes more edits. -/
theorem snakeRounds_spec (rounds d : Nat) {w : SnakeWs} (enough : n + m + 1 < 2 * (d + rounds))
    (fwd : Prior (ahead A B a0 b0 n m) w.fwd d) (rev : Prior (back A B a0 b0 n m) w.rev d)
    (more : 2 * d ≤ edits (ahead A B a0 b0 n m) n m + 1) :
    SnakeFound A B a0 b0 n m (snakeRounds A B a0 ↑(a0 + n) b0 ↑(b0 + m) rounds d w).2 := by
  have mirror := ahead_mirror A B a0 b0 n m
  have boxed : Boxed (ahead A B a0 b0 n m) n m := cells_boxed _ n m
  have boxed' : Boxed (back A B a0 b0 n m) n m := cells_boxed _ n m
  have parity := edits_parity (ahead A B a0 b0 n m) n m
  have most := (edits_bounds (ahead A B a0 b0 n m) n m).2.2
  have equal := mirror.edits_eq
  induction rounds generalizing d w with
  | zero => omega
  | succ rounds ih =>
    rw [snakeRounds]
    rw [span_end, span_end]
    set odd := decide (((n : Int) - m) % 2 = 1) with hodd
    have first : SweepEnd (ahead A B a0 b0 n m) n m d w.rev odd ((d : Int) - 1)
        (sweep (sameAhead A B a0 b0) n m w.rev odd ((d : Int) - 1) d (d + 1) (-d) w.fwd) :=
      sweep_round _ _ _ fwd
    generalize sweep (sameAhead A B a0 b0) n m w.rev odd ((d : Int) - 1) d (d + 1) (-d) w.fwd = r at first ⊢
    obtain ⟨fwd', found⟩ := r
    cases found with
    | some r =>
      obtain ⟨k, p, q, t, low, high, kp, reached, meets⟩ := first
      cases d with
      | zero =>
        have near := meets.2
        omega
      | succ e =>
        have near := meets.2
        push_cast at near
        have isOdd := of_decide_eq_true meets.1
        have back := rev ((n : Int) - m - k) (by omega) (by omega) (by push_cast at kp; omega)
        obtain ⟨hp, hq, here, there, least⟩ := reached.inside mirror boxed back
          (by rw [show ((e + 1 : Nat) : Int) - 1 = e by omega] at meets; exact meets) (by omega)
        refine ⟨p, q, t, by rw [reached.start.1]; omega, by rw [reached.start.2]; omega, by rw [reached.stop.1]; omega,
          by rw [reached.stop.2]; omega, ⟨hp, hq⟩, reached.along, by omega, by omega⟩
    | none =>
      obtain ⟨swept, missed⟩ := first
      dsimp only at swept missed ⊢
      -- the searches did not meet, so the way is longer
      have longer : 2 * d ≤ edits (ahead A B a0 b0 n m) n m := by
        by_contra short
        cases d with
        | zero => omega
        | succ e =>
          have isOdd : odd = true := decide_eq_true (by omega)
          obtain ⟨k, low, high, kp, meets⟩ := swept.meets mirror (e := e) rev (by omega)
          rw [isOdd, show ((e + 1 : Nat) : Int) - 1 = e by omega] at missed
          exact missed k low high kp meets
      split
      · trivial
      have second : SweepEnd (back A B a0 b0 n m) n m d fwd' (!odd) d
          (sweep (sameBack A B ↑(a0 + n) ↑(b0 + m)) n m fwd' (!odd) d d (d + 1) (-d) w.rev) :=
        sweep_round _ _ _ rev
      generalize sweep (sameBack A B ↑(a0 + n) ↑(b0 + m)) n m fwd' (!odd) d d (d + 1) (-d) w.rev = r
        at second ⊢
      obtain ⟨rev', found⟩ := r
      cases found with
      | some r =>
        obtain ⟨k, p, q, t, low, high, kp, reached, meets⟩ := second
        have near := meets.2
        have even := meets.1
        rw [not_eq_true', hodd, decide_eq_false_iff_not] at even
        obtain ⟨hp, hq, here, there, least⟩ := reached.inside (e := d) mirror.symm boxed'
          (swept ((n : Int) - m - k) (by omega) (by omega) (by omega)) meets (by omega)
        have stop := reached.stop
        have start := reached.start
        have across : n - (n - (p + t) + t) = p := by omega
        have downward : m - (m - (q + t) + t) = q := by omega
        refine ⟨n - (p + t), m - (q + t), t, by omega, by omega, by omega, by omega, ⟨by omega, by omega⟩,
          fun i hi => ?_, ?_, ?_⟩
        · rw [mirror (n - (p + t) + i) (m - (q + t) + i) (by omega) (by omega),
            show n - 1 - (n - (p + t) + i) = p + (t - 1 - i) by omega,
            show m - 1 - (m - (q + t) + i) = q + (t - 1 - i) by omega]
          exact reached.along (t - 1 - i) (by omega)
        · rw [across, downward]
          omega
        · rw [across, downward]
          omega
      | none =>
        obtain ⟨swept', missed'⟩ := second
        dsimp only at swept' missed' ⊢
        split
        · trivial
        refine ih (d + 1) (by omega) swept swept' ?_
        by_contra short
        have even : (!odd) = true := by
          rw [not_eq_true', hodd, decide_eq_false_iff_not]
          omega
        obtain ⟨k, low, high, kp, meets⟩ := swept'.meets mirror.symm swept (by omega)
        rw [even] at missed'
        exact missed' k low high kp meets

/-- `dyn_middle_snake` finds a snake unless it runs out of budget. -/
theorem middleSnake_spec (A B : List Nat) (a0 b0 n m : Nat) (w : SnakeWs) :
    SnakeFound A B a0 b0 n m (middleSnake A B a0 ↑(a0 + n) b0 ↑(b0 + m) w).2 := by
  refine snakeRounds_spec _ 0 (by omega) ?_ ?_ (by omega)
  · change Function.update w.fwd 1 0 1 = 0
    rw [Function.update_self]
  · change Function.update w.rev 1 0 1 = 0
    rw [Function.update_self]

end Segments

end DynaJS.Diff
