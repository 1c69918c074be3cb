import DynaJS.Lib.Heap

/-! The `Heap` of `dyna-structures.c`: a binary heap ordered by a JavaScript function, which may throw
at any comparison. A call from inside the function finds the heap `busy` and is refused. -/
namespace DynaJS.Ds

open Function Nat Option Multiset
open DynaJS.Heap (Holed Up parent parent_lt child_of_parent map_swap swap_eq)

structure HeapT (A : Type) where
  natural : Bool
  items : Nat → A
  count : Nat
  cap : Nat
  busy : Bool

inductive HeapError where
  | busy
  | notNumber
  | outOfMemory
  | comparator
  deriving DecidableEq

variable {A P : Type}

/-- The answers to the comparisons of one call, by their number: the sign of the result of
`dyn_heap_cmp_call`, or `none` for a throw. -/
def Comparisons (A : Type) : Type := Nat → A → A → Option Ordering

variable (num : A → Option P)

def heapCmpNat [LT P] [DecidableLT P] : Comparisons A := fun _ a b =>
  match num a, num b with
  | some x, some y => some (if x < y then .lt else if y < x then .gt else .eq)
  | _, _ => none

def heapCmp [LT P] [DecidableLT P] (natural : Bool) (cmp : Comparisons A) : Comparisons A :=
  if natural then heapCmpNat num else cmp

def heapGrow (need : Nat) : Nat → Nat → Nat
  | 0, ncap => ncap
  | fuel + 1, ncap =>
    if ncap < need then
      if 0xFFFFFFFF / 2 < ncap ∨ 0xFFFFFFFF / 16 / 2 < ncap then need else heapGrow need fuel (ncap * 2)
    else ncap

def heapReserve (h : HeapT A) (need : Nat) (mem : Bool) : Option (HeapT A) :=
  if need ≤ h.cap then some h
  else if 0xFFFFFFFF / 16 < need then none
  else if mem then some { h with cap := heapGrow need 32 (if h.cap = 0 then 8 else h.cap) }
  else none

variable (cmp : Comparisons A)

/-- The loop of `dyn_heap_sift_up`, after `k` comparisons; `false` is a throw. -/
def heapSiftUp (cmp : Comparisons A) : Nat → Nat → (Nat → A) → Nat → Bool × (Nat → A)
  | 0, _, a, _ => (true, a)
  | fuel + 1, k, a, i =>
    if 0 < i then
      match cmp k (a i) (a (parent i)) with
      | none => (false, a)
      | some .lt => heapSiftUp cmp fuel (k + 1) (update (update a i (a (parent i))) (parent i) (a i)) (parent i)
      | some _ => (true, a)
    else (true, a)

/-- The first loop of `dyn_heap_sift_down`: the way down along the smaller children, with the number of
comparisons made. -/
def heapPath (cmp : Comparisons A) (n : Nat) (a : Nat → A) : Nat → Nat → Nat → Option (List Nat × Nat)
  | 0, k, i => some ([i], k)
  | fuel + 1, k, i =>
    if 2 * i + 1 < n then
      let picked := if 2 * i + 2 < n then
          (cmp k (a (2 * i + 2)) (a (2 * i + 1))).map fun c => (if c = .lt then 2 * i + 2 else 2 * i + 1, k + 1)
        else some (2 * i + 1, k)
      picked.bind fun (pick, k) => (heapPath cmp n a fuel k pick).map fun (path, k) => (i :: path, k)
    else some ([i], k)

def heapRest (cmp : Comparisons A) (a : Nat → A) (x : A) (path : Nat → Nat) : Nat → Nat → Option Nat
  | _, 0 => some 0
  | k, m + 1 =>
    match cmp k x (a (path (m + 1))) with
    | none => none
    | some .lt => heapRest cmp a x path (k + 1) m
    | some _ => some (m + 1)

/-- The third loop: what lies on the way moves up, and `x` takes the last place. -/
def heapShift (a : Nat → A) (x : A) (path : Nat → Nat) (m : Nat) : Nat → A :=
  update ((List.range m).foldl (fun a c => update a (path c) (a (path (c + 1)))) a) (path m) x

def heapSiftDown (n : Nat) (a : Nat → A) (i : Nat) : Option (Nat → A) :=
  (heapPath cmp n a 63 0 i).bind fun (path, k) =>
    (heapRest cmp a (a i) (path.getD · 0) k (path.length - 1)).map fun m => heapShift a (a i) (path.getD · 0) m

def heapPush [LT P] [DecidableLT P] (h : HeapT A) (v : A) (mem : Bool) :
    Except HeapError Nat × HeapT A :=
  if h.busy then (.error .busy, h)
  else if h.natural ∧ (num v).isNone then (.error .notNumber, h)
  else
    match heapReserve h (h.count + 1) mem with
    | none => (.error .outOfMemory, h)
    | some h =>
      match heapSiftUp (heapCmp num h.natural cmp) h.count 0 (update h.items h.count v) h.count with
      -- the slot given back is the last one, whatever lies there by now
      | (false, items) => (.error .comparator, { h with items := items })
      | (true, items) => (.ok (h.count + 1), { h with items := items, count := h.count + 1 })

def heapPop [LT P] [DecidableLT P] (h : HeapT A) :
    Except HeapError (Option A) × HeapT A :=
  if h.busy then (.error .busy, h)
  else if h.count = 0 then (.ok none, h)
  else
    let top := h.items 0
    let n := h.count - 1
    if 0 < n then
      let items := update h.items 0 (h.items n)
      match heapSiftDown (heapCmp num h.natural cmp) n items 0 with
      | none => (.error .comparator, { h with items := items, count := n })
      | some items => (.ok (some top), { h with items := items, count := n })
    else (.ok (some top), { h with count := n })

def HeapT.held (h : HeapT A) : Multiset A := (Multiset.range h.count).map h.items

/-! ### What is held -/

section Held

variable {cmp : Comparisons A} {a : Nat → A} {n : Nat}

theorem heapSiftUp_held (fuel k : Nat) {i : Nat} (inside : i < n) :
    (Multiset.range n).map (heapSiftUp cmp fuel k a i).2 = (Multiset.range n).map a := by
  induction fuel generalizing k a i with
  | zero => rfl
  | succ fuel ih =>
    rw [heapSiftUp]
    split
    · rename_i pos
      have upper := parent_lt pos
      split
      · rfl
      · rw [ih (k + 1) (by omega), swap_eq, map_swap a inside (by omega)]
      · rfl
    · rfl

theorem heapSiftUp_below (fuel k : Nat) {i j : Nat} (below : i < j) : (heapSiftUp cmp fuel k a i).2 j = a j := by
  induction fuel generalizing k a i with
  | zero => rfl
  | succ fuel ih =>
    rw [heapSiftUp]
    split
    · rename_i pos
      have upper := parent_lt pos
      split
      · rfl
      · rw [ih (k + 1) (by omega), update_of_ne (by omega), update_of_ne (by omega)]
      · rfl
    · rfl

theorem range_update (a : Nat → A) (n : Nat) (v : A) :
    (Multiset.range (n + 1)).map (update a n v) = v ::ₘ (Multiset.range n).map a := by
  rw [range_succ, map_cons, update_self]
  congr 1
  exact map_congr rfl fun i member => update_of_ne (mem_range.mp member).ne _ _

/-- After a throw the last slot holds the new element only if nothing was moved. -/
theorem heapSiftUp_thrown {v : A} (threw : (heapSiftUp cmp n 0 (update a n v) n).1 = false) :
    (Multiset.range n).map (heapSiftUp cmp n 0 (update a n v) n).2 = (Multiset.range n).map a ↔
      cmp 0 v (a (parent n)) ≠ some .lt ∨ a (parent n) = v := by
  have all : (Multiset.range (n + 1)).map (heapSiftUp cmp n 0 (update a n v) n).2 = _ :=
    heapSiftUp_held n 0 (lt_succ_self n)
  rw [range_update, range_succ, map_cons] at all
  have last : (heapSiftUp cmp n 0 (update a n v) n).2 n =
      if cmp 0 v (a (parent n)) = some .lt then a (parent n) else v := by
    cases n with
    | zero => contradiction
    | succ n =>
      have upper := parent_lt (succ_pos n)
      rw [heapSiftUp, if_pos (succ_pos n), update_self, update_of_ne upper.ne] at threw ⊢
      cases answer : cmp 0 v (a (parent (n + 1))) with
      | none => exact update_self ..
      | some c =>
        rw [answer] at threw
        cases c with
        | lt => rw [heapSiftUp_below _ _ upper, update_of_ne upper.ne', update_self, if_pos rfl]
        | eq => contradiction
        | gt => contradiction
  rw [last] at all
  constructor
  · intro same
    rw [same, cons_inj_left] at all
    by_contra neither
    rw [not_or, not_not] at neither
    rw [if_pos neither.1] at all
    exact neither.2 all
  · rintro (other | equal)
    · rw [if_neg other, cons_inj_right] at all
      exact all
    · rw [equal, ite_self, cons_inj_right] at all
      exact all

theorem range_shrink (a : Nat → A) (n : Nat) :
    (Multiset.range (n + 1)).map a = a 0 ::ₘ (Multiset.range n).map (update a 0 (a n)) := by
  rw [← map_swap a (succ_pos n) (lt_succ_self n), range_succ, map_cons, comp_apply,
    Equiv.swap_apply_right]
  congr 1
  refine map_congr rfl fun i member => ?_
  have before := mem_range.mp member
  by_cases root : i = 0
  · rw [root, comp_apply, Equiv.swap_apply_left, update_self]
  · rw [comp_apply, Equiv.swap_apply_of_ne_of_ne root before.ne, update_of_ne root]

end Held

/-! ### The order -/

section Order

variable {K : Type} [LinearOrder K]

def Comparisons.By (key : A → K) : Prop :=
  ∀ k a b, ∃ c, cmp k a b = some c ∧ (c = .lt ↔ key a < key b)

variable {cmp : Comparisons A} {key : A → K} {a : Nat → A} {n : Nat}

theorem heapSiftUp_ordered (by_key : cmp.By key) (fuel k : Nat) {i : Nat} (inside : i < n) (enough : i ≤ fuel)
    (up : Up key a n i (a i)) :
    (heapSiftUp cmp fuel k a i).1 = true ∧ Heap.Ordered key (heapSiftUp cmp fuel k a i).2 n := by
  induction fuel generalizing k a i with
  | zero => exact ⟨rfl, up.rest fun pos => by omega⟩
  | succ fuel ih =>
    rw [heapSiftUp]
    by_cases pos : 0 < i
    · obtain ⟨c, answer, less⟩ := by_key k (a i) (a (parent i))
      have upper := parent_lt pos
      rw [if_pos pos, answer]
      by_cases lt : c = .lt
      · subst lt
        have moved := (up.move pos inside (less.mp rfl)).fill
        exact ih (k + 1) (by omega) (by omega) (by rwa [update_self])
      · have rest : key (a (parent i)) ≤ key (a i) := not_lt.mp fun below => lt (less.mpr below)
        cases c with
        | lt => contradiction
        | eq => exact ⟨rfl, up.rest fun _ => rest⟩
        | gt => exact ⟨rfl, up.rest fun _ => rest⟩
    · rw [if_neg pos]
      exact ⟨rfl, up.rest fun top => absurd top pos⟩

def Picks (key : A → K) (a : Nat → A) (n p c : Nat) : Prop :=
  0 < c ∧ c < n ∧ parent c = p ∧ ∀ c', 0 < c' → c' < n → parent c' = p → key (a c) ≤ key (a c')

theorem heapPath_picks (by_key : cmp.By key) (fuel k : Nat) {i : Nat} (enough : n < (i + 1) * 2 ^ fuel) :
    ∃ path k', heapPath cmp n a fuel k i = some (i :: path, k') ∧ (i :: path).IsChain (Picks key a n) ∧
      ∀ c, 0 < c → c < n → parent c ≠ (i :: path).getLast (List.cons_ne_nil _ _) := by
  induction fuel generalizing k i with
  | zero =>
    refine ⟨[], k, rfl, List.isChain_singleton i, fun c pos inside under => ?_⟩
    have := child_of_parent pos under
    rw [List.getLast_singleton] at this
    omega
  | succ fuel ih =>
    rw [heapPath]
    by_cases kids : 2 * i + 1 < n
    · rw [if_pos kids]
      -- the child picked is least
      obtain ⟨pick, k', picked, least⟩ : ∃ pick k', (if 2 * i + 2 < n then
          (cmp k (a (2 * i + 2)) (a (2 * i + 1))).map fun c => (if c = .lt then 2 * i + 2 else 2 * i + 1, k + 1)
        else some (2 * i + 1, k)) = some (pick, k') ∧ Picks key a n i pick := by
        by_cases two : 2 * i + 2 < n
        · obtain ⟨c, answer, less⟩ := by_key k (a (2 * i + 2)) (a (2 * i + 1))
          rw [if_pos two, answer]
          refine ⟨_, _, rfl, ?_⟩
          split_ifs with right
          · refine ⟨by omega, two, by unfold parent; omega, fun c' pos _ under => ?_⟩
            rcases child_of_parent pos under with rfl | rfl
            · exact (less.mp right).le
            · exact le_rfl
          · refine ⟨by omega, kids, by unfold parent; omega, fun c' pos _ under => ?_⟩
            rcases child_of_parent pos under with rfl | rfl
            · exact le_rfl
            · exact not_lt.mp fun below => right (less.mpr below)
        · rw [if_neg two]
          refine ⟨_, _, rfl, by omega, kids, by unfold parent; omega, fun c' pos inside under => ?_⟩
          rcases child_of_parent pos under with rfl | rfl
          · exact le_rfl
          · omega
      have lower := parent_lt least.1
      rw [least.2.2.1] at lower
      obtain ⟨path, k'', walked, chain, ends⟩ := ih k' (i := pick) (by
        have two : 2 * i + 1 ≤ pick := by
          rcases child_of_parent least.1 least.2.2.1 with rfl | rfl <;> omega
        refine enough.trans_le ?_
        rw [pow_succ, mul_comm (2 ^ fuel) 2, ← mul_assoc]
        exact mul_le_mul_right _ (by omega))
      refine ⟨pick :: path, k'', ?_, List.isChain_cons_cons.mpr ⟨least, chain⟩, fun c pos inside => ?_⟩
      · rw [picked]
        dsimp only [bind_some]
        rw [walked]
        rfl
      · rw [List.getLast_cons (List.cons_ne_nil _ _)]
        exact ends c pos inside
    · rw [if_neg kids]
      refine ⟨[], k, rfl, List.isChain_singleton i, fun c pos inside under => ?_⟩
      have := child_of_parent pos under
      rw [List.getLast_singleton] at this
      omega

theorem heapRest_spec (by_key : cmp.By key) (x : A) (path : Nat → Nat) (k d : Nat) :
    ∃ m, m ≤ d ∧ heapRest cmp a x path k d = some m ∧ (0 < m → key (a (path m)) ≤ key x) ∧
      (m < d → key x < key (a (path (m + 1)))) := by
  induction d generalizing k with
  | zero => exact ⟨0, le_rfl, rfl, fun none => absurd none (lt_irrefl 0), fun none => absurd none (lt_irrefl 0)⟩
  | succ d ih =>
    obtain ⟨c, answer, less⟩ := by_key k x (a (path (d + 1)))
    rw [heapRest, answer]
    by_cases lt : c = .lt
    · subst lt
      obtain ⟨m, most, found, above, below⟩ := ih (k + 1)
      refine ⟨m, by omega, found, above, fun _ => ?_⟩
      rcases lt_or_eq_of_le most with inner | rfl
      · exact below inner
      · exact less.mp rfl
    · refine ⟨d + 1, le_rfl, ?_, fun _ => not_lt.mp fun below => lt (less.mpr below),
        fun none => absurd none (lt_irrefl _)⟩
      cases c with
      | lt => contradiction
      | eq => rfl
      | gt => rfl

theorem shift_spec (path : Nat → Nat) (x : A) (hole : Holed key a n (path 0)) (start : path 0 < n) (m : Nat)
    (picks : ∀ c, c < m → Picks key a n (path c) (path (c + 1))) :
    let b := (List.range m).foldl (fun a c => update a (path c) (a (path (c + 1)))) a
    Holed key b n (path m) ∧ path m < n ∧ (∀ p, path m ≤ p → b p = a p) ∧
      (Multiset.range n).map (update b (path m) x) = (Multiset.range n).map (update a (path 0) x) ∧
      ∀ c, m = c + 1 → b (path c) = a (path m) := by
  induction m with
  | zero => exact ⟨hole, start, fun _ _ => rfl, rfl, fun c none => by omega⟩
  | succ m ih =>
    obtain ⟨holed, inside, same, held, -⟩ := ih fun c hc => picks c (by omega)
    obtain ⟨pos, bound, child, least⟩ := picks m (lt_succ_self m)
    have lower := parent_lt pos
    rw [child] at lower
    rw [List.range_succ, List.foldl_append, List.foldl_cons, List.foldl_nil]
    generalize (List.range m).foldl (fun a c => update a (path c) (a (path (c + 1)))) a = b at *
    refine ⟨holed.move pos bound child fun c hc bound' under => ?_, bound, fun p high => ?_, ?_, fun c last => ?_⟩
    · have under' := parent_lt hc
      rw [same _ lower.le, same c (by omega)]
      exact least c hc bound' under
    · rw [update_of_ne (by omega), same p (by omega)]
    · have swapped := swap_eq (update b (path m) x) (path m) (path (m + 1))
      rw [update_self, update_of_ne lower.ne', update_idem] at swapped
      rw [swapped, map_swap _ inside bound, held]
    · obtain rfl : c = m := by omega
      rw [update_self, same _ lower.le]

theorem heapSiftDown_spec (by_key : cmp.By key) (hole : Holed key a n 0) (some_left : 0 < n) (few : n < 2 ^ 63) :
    ∃ b, heapSiftDown cmp n a 0 = some b ∧ Heap.Ordered key b n ∧
      (Multiset.range n).map b = (Multiset.range n).map a := by
  obtain ⟨path, k, walked, chain, ends⟩ := heapPath_picks by_key 63 0 (i := 0) (by omega)
  obtain ⟨way, places⟩ : ∃ way, way = ((0 :: path).getD · 0) := ⟨_, rfl⟩
  have at_place : ∀ c (inside : c < (0 :: path).length), way c = (0 :: path)[c] := fun c inside => by
    rw [places]
    dsimp only
    rw [List.getD_eq_getElem?_getD, List.getElem?_eq_getElem inside, getD_some]
  have start : way 0 = 0 := at_place 0 (succ_pos _)
  have picks : ∀ c, c < path.length → Picks key a n (way c) (way (c + 1)) := fun c inside => by
    rw [at_place c (by rw [List.length_cons]; omega), at_place (c + 1) (by rw [List.length_cons]; omega)]
    exact List.isChain_iff_getElem.mp chain c (by rw [List.length_cons]; omega)
  obtain ⟨m, most, found, above, below⟩ := heapRest_spec by_key (a 0) way k path.length
  obtain ⟨holed, inside, same, held, moved⟩ := shift_spec way (a 0) (by rwa [start]) (by rwa [start]) m
    fun c hc => picks c (by omega)
  refine ⟨heapShift a (a 0) way m, ?_, ?_, ?_⟩
  · rw [heapSiftDown, walked, bind_some]
    change Option.map _ (heapRest cmp a (a 0) _ k path.length) = _
    rw [← places, found]
    rfl
  · refine Up.finish ⟨holed, fun c pos bound under => ?_⟩ fun pos => ?_
    · have lower := parent_lt pos
      rw [same c (by omega)]
      rcases lt_or_eq_of_le most with inner | last
      · exact (below inner).le.trans ((picks m inner).2.2.2 c pos bound under)
      · refine absurd under ?_
        have final := ends c pos bound
        rw [List.getLast_eq_getElem] at final
        rw [last, at_place _ (by simp)]
        exact final
    · cases m with
      | zero => exact absurd (start ▸ pos) (lt_irrefl 0)
      | succ m =>
        rw [(picks m most).2.2.1, moved m rfl]
        exact above (succ_pos m)
  · rw [heapShift, held, start, update_eq_self]

end Order

/-! ### Calls and runs -/

theorem heapGrow_le {need ncap : Nat} (fuel : Nat) (small : need ≤ 268435455) (start : ncap ≤ 268435455) :
    heapGrow need fuel ncap ≤ 268435455 := by
  induction fuel generalizing ncap with
  | zero => exact start
  | succ fuel ih =>
    rw [heapGrow]
    split_ifs with short large
    · exact small
    · exact ih (by omega)
    · exact start

theorem heapReserve_some {h h' : HeapT A} {need : Nat} {mem : Bool} (done : heapReserve h need mem = some h') :
    ∃ cap, h' = { h with cap := cap } ∧ (h.cap ≤ 268435455 → cap ≤ 268435455 ∧ need ≤ 268435455) := by
  unfold heapReserve at done
  split at done
  · exact ⟨h.cap, (some.inj done).symm, fun small => ⟨small, by omega⟩⟩
  split at done
  · contradiction
  split at done
  · refine ⟨_, (some.inj done).symm, fun small => ⟨heapGrow_le 32 (by omega) ?_, by omega⟩⟩
    split_ifs <;> omega
  · contradiction

section Calls

variable [LT P] [DecidableLT P] {num : A → Option P} {cmp : Comparisons A} {h h' : HeapT A}

theorem heapPush_thrown {v : A} {mem : Bool} {e : HeapError} (threw : heapPush num cmp h v mem = (.error e, h')) :
    h'.held = h.held ↔ e ≠ .comparator ∨ heapCmp num h.natural cmp 0 v (h.items (parent h.count)) ≠ some .lt ∨
      h.items (parent h.count) = v := by
  have refused : e ≠ .comparator → h = h' → (h'.held = h.held ↔ e ≠ .comparator ∨
      heapCmp num h.natural cmp 0 v (h.items (parent h.count)) ≠ some .lt ∨ h.items (parent h.count) = v) :=
    fun other same => iff_of_true (by rw [same]) (.inl other)
  rw [heapPush] at threw
  split_ifs at threw with busy number
  · obtain ⟨rfl, same⟩ : HeapError.busy = e ∧ h = h' := by simpa using threw
    exact refused (by decide) same
  · obtain ⟨rfl, same⟩ : HeapError.notNumber = e ∧ h = h' := by simpa using threw
    exact refused (by decide) same
  cases reserved : heapReserve h (h.count + 1) mem with
  | none =>
    rw [reserved] at threw
    obtain ⟨rfl, same⟩ : HeapError.outOfMemory = e ∧ h = h' := by simpa using threw
    exact refused (by decide) same
  | some g =>
    obtain ⟨cap, rfl, -⟩ := heapReserve_some reserved
    rw [reserved] at threw
    dsimp only at threw
    split at threw
    · rename_i items ran
      obtain ⟨rfl, rfl⟩ : HeapError.comparator = e ∧ _ = h' := by simpa using threw
      have failed : (heapSiftUp (heapCmp num h.natural cmp) h.count 0 (update h.items h.count v) h.count).1 =
        false := by
        rw [ran]
      have sifted := heapSiftUp_thrown failed
      rw [ran] at sifted
      simpa [HeapT.held] using sifted
    · simp at threw

theorem heapPop_thrown {e : HeapError} (threw : heapPop num cmp h = (.error e, h')) :
    (e = .busy ∧ h' = h) ∨ (e = .comparator ∧ h.held = h.items 0 ::ₘ h'.held) := by
  rw [heapPop] at threw
  dsimp only at threw
  split_ifs at threw with busy empty more
  · obtain ⟨rfl, same⟩ : HeapError.busy = e ∧ h = h' := by simpa using threw
    exact .inl ⟨rfl, same.symm⟩
  · simp at threw
  · split at threw
    · obtain ⟨rfl, rfl⟩ : HeapError.comparator = e ∧ _ = h' := by simpa using threw
      refine .inr ⟨rfl, ?_⟩
      obtain ⟨n, size⟩ : ∃ n, h.count = n + 1 := ⟨h.count - 1, by omega⟩
      rw [HeapT.held, HeapT.held, size, Nat.add_sub_cancel]
      exact range_shrink h.items n
    · simp at threw
  · simp at threw

variable {K : Type} [LinearOrder K] {key : A → K}

structure HeapT.Valid (key : A → K) (h : HeapT A) : Prop where
  idle : h.busy = false
  ordered : Heap.Ordered key h.items h.count
  few : h.count ≤ 268435455
  room : h.cap ≤ 268435455

variable (by_key : (heapCmp num h.natural cmp).By key)
include by_key

theorem heapPush_valid (valid : h.Valid key) (v : A) (mem : Bool) :
    (heapPush num cmp h v mem).2.Valid key ∧ (heapPush num cmp h v mem).2.natural = h.natural := by
  rw [heapPush, if_neg (by rw [valid.idle]; decide)]
  split_ifs
  · exact ⟨valid, rfl⟩
  cases reserved : heapReserve h (h.count + 1) mem with
  | none => exact ⟨valid, rfl⟩
  | some g =>
    obtain ⟨cap, rfl, small⟩ := heapReserve_some reserved
    have grown := (valid.ordered.grow v).fill
    obtain ⟨done, ordered⟩ := heapSiftUp_ordered by_key h.count 0 (a := update h.items h.count v)
      (lt_succ_self _) le_rfl (by rwa [update_self])
    dsimp only
    generalize heapSiftUp (heapCmp num h.natural cmp) h.count 0 (update h.items h.count v) h.count = r at *
    obtain ⟨ok, items⟩ := r
    cases done
    exact ⟨⟨valid.idle, ordered, (small valid.room).2, (small valid.room).1⟩, rfl⟩

theorem heapPop_valid (valid : h.Valid key) :
    ((heapPop num cmp h).2.Valid key ∧ (heapPop num cmp h).2.natural = h.natural) ∧
      (h.count ≠ 0 → ∃ h', heapPop num cmp h = (.ok (some (h.items 0)), h') ∧ h.held = h.items 0 ::ₘ h'.held) := by
  rw [heapPop, if_neg (by rw [valid.idle]; decide)]
  have few := valid.few
  dsimp only
  split_ifs with empty more
  · exact ⟨⟨valid, rfl⟩, fun some_left => absurd empty some_left⟩
  · have shorter : Heap.Ordered key h.items (h.count - 1) := fun i pos inside => valid.ordered i pos (by omega)
    obtain ⟨items, sifted, ordered, same⟩ := heapSiftDown_spec by_key
      ((shorter.up 0).toHoled.refill (h.items (h.count - 1))) more (by omega)
    rw [sifted]
    refine ⟨⟨⟨valid.idle, ordered, by dsimp only; omega, valid.room⟩, rfl⟩, fun _ => ⟨_, rfl, ?_⟩⟩
    obtain ⟨n, size⟩ : ∃ n, h.count = n + 1 := ⟨h.count - 1, by omega⟩
    rw [HeapT.held, HeapT.held, same, size]
    exact range_shrink h.items n
  · refine ⟨⟨⟨valid.idle, fun i pos inside => ?_, by dsimp only; omega, valid.room⟩, rfl⟩, fun _ => ⟨_, rfl, ?_⟩⟩
    · dsimp only at inside
      omega
    · obtain one : h.count = 1 := by omega
      rw [HeapT.held, one]
      rfl

end Calls

inductive HeapOp (A : Type) where
  | push (v : A) (mem : Bool)
  | pop

section Runs

variable [LT P] [DecidableLT P] (num : A → Option P) (cmp : Comparisons A)

def heapStep (h : HeapT A) : HeapOp A → HeapT A
  | .push v mem => (heapPush num cmp h v mem).2
  | .pop => (heapPop num cmp h).2

/-- The calls `ops` on a new heap, whose slots are memory nobody has written yet. -/
def heapRun (natural : Bool) (memory : Nat → A) (ops : List (HeapOp A)) : HeapT A :=
  ops.foldl (heapStep num cmp) ⟨natural, memory, 0, 0, false⟩

variable {num cmp}

theorem heapRun_valid {K : Type} [LinearOrder K] {key : A → K} {natural : Bool}
    (by_key : (heapCmp num natural cmp).By key) (memory : Nat → A) (ops : List (HeapOp A)) :
    (heapRun num cmp natural memory ops).Valid key ∧ (heapRun num cmp natural memory ops).natural = natural := by
  induction ops using List.reverseRecOn with
  | nil => exact ⟨⟨rfl, fun i pos inside => absurd inside (not_lt_zero i), zero_le _, zero_le _⟩, rfl⟩
  | append_singleton ops op ih =>
    rw [heapRun, List.foldl_append]
    obtain ⟨valid, same⟩ := ih
    rw [← same] at by_key
    cases op with
    | push v mem => exact (heapPush_valid by_key valid v mem).imp id fun kept => kept.trans same
    | pop => exact (heapPop_valid by_key valid).1.imp id fun kept => kept.trans same

end Runs

theorem exists_key {le : A → A → Prop} (total : ∀ a b, le a b ∨ le b a) (trans : ∀ a b c, le a b → le b c → le a c) :
    ∃ (K : Type) (_ : LinearOrder K) (key : A → K), ∀ a b, key a ≤ key b ↔ le a b := by
  classical
  let : Preorder A := { le := le, le_refl := fun a => (total a a).elim id id, le_trans := trans }
  have : @Std.Total A (· ≤ ·) := ⟨total⟩
  exact ⟨Antisymmetrization A (· ≤ ·), inferInstance, toAntisymmetrization (· ≤ ·), fun a b => Iff.rfl⟩

/-- A push that throws keeps what was held exactly if the new element was not moved, or cannot be told
from the one that went down to its slot. A pop that throws takes the root. Without throws every pop
takes a least element. -/
theorem heap_throw_keeps_iff [LT P] [DecidableLT P] (h : HeapT A) :
    (∀ v mem e h', heapPush num cmp h v mem = (.error e, h') →
      (h'.held = h.held ↔ e ≠ .comparator ∨ heapCmp num h.natural cmp 0 v (h.items (parent h.count)) ≠ some .lt ∨
        h.items (parent h.count) = v)) ∧
    (∀ e h', heapPop num cmp h = (.error e, h') →
      (e = .busy ∧ h' = h) ∨ (e = .comparator ∧ h.held = h.items 0 ::ₘ h'.held)) ∧
    ∀ (le : A → A → Prop) (natural : Bool) (memory : Nat → A) (ops : List (HeapOp A)),
      (∀ a b, le a b ∨ le b a) → (∀ a b c, le a b → le b c → le a c) →
      (∀ k a b, ∃ c, heapCmp num natural cmp k a b = some c ∧ (c = .lt ↔ ¬ le b a)) →
      (heapRun num cmp natural memory ops).count ≠ 0 →
      ∃ x h', heapPop num cmp (heapRun num cmp natural memory ops) = (.ok (some x), h') ∧
        (heapRun num cmp natural memory ops).held = x ::ₘ h'.held ∧
        ∀ y ∈ (heapRun num cmp natural memory ops).held, le x y := by
  refine ⟨fun v mem e h' threw => heapPush_thrown threw, fun e h' threw => heapPop_thrown threw,
    fun le natural memory ops total trans agrees some_left => ?_⟩
  obtain ⟨K, order, key, same⟩ := exists_key total trans
  have by_key : (heapCmp num natural cmp).By key := fun k a b => by
    obtain ⟨c, answer, less⟩ := agrees k a b
    exact ⟨c, answer, by rw [less, ← same, not_le]⟩
  obtain ⟨valid, kept⟩ := heapRun_valid by_key memory ops
  generalize heapRun num cmp natural memory ops = h at *
  rw [← kept] at by_key
  obtain ⟨h', popped, held⟩ := (heapPop_valid by_key valid).2 some_left
  refine ⟨_, h', popped, held, fun y member => ?_⟩
  obtain ⟨i, inside, rfl⟩ := mem_map.mp member
  rw [← same]
  exact valid.ordered.root i (mem_range.mp inside)

/-- 0 goes under the root of 1, 5 and 3 before the second comparison throws: 5 is dropped, and 0 stays. -/
theorem heap_push_loses :
    let h : HeapT Nat := ⟨false, fun i => [1, 5, 3].getD i 0, 3, 8, false⟩
    let cmp : Comparisons Nat := fun k a b => if k = 0 then some (compare a b) else none
    let r := heapPush (fun n => some n) cmp h 0 true
    r.1.toOption = none ∧ h.held = {1, 5, 3} ∧ r.2.held = {1, 0, 3} := by
  decide

end DynaJS.Ds
