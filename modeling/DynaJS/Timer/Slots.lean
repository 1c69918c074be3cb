import DynaJS.Timer.Sift

/-! The slot table and the three operations on timers. `S` is the set of pending nodes
throughout. -/
namespace DynaJS.Timer

open Nat List Option Function

variable {C : Type}

section Ids

variable {k g : Nat}

section

variable (small : k + 1 < 2 ^ 32)
include small

theorem idMake_eq : idMake k g = g * 2 ^ 32 + (k + 1) := by
  rw [idMake, ← shiftLeft_add_eq_or_of_lt small, shiftLeft_eq]

theorem idMake_pos : 0 < idMake k g := by
  rw [idMake_eq small]
  omega

theorem idIndex_idMake : idIndex (idMake k g) = k := by
  rw [idMake_eq small]
  unfold idIndex
  omega

theorem idGen_idMake (narrow : g < 2 ^ 32) : idGen (idMake k g) = g := by
  rw [idMake_eq small, idGen]
  omega

theorem idMake_lt (narrow : g < 2 ^ 32) : idMake k g < 2 ^ 64 := by
  rw [idMake_eq small]
  omega

end

theorem idMake_index_gen {id : Nat} (narrow : id < 2 ^ 64) (small : idIndex id + 1 < 2 ^ 32) :
    idMake (idIndex id) (idGen id) = id := by
  rw [idMake_eq small, idGen]
  unfold idIndex at small ⊢
  omega

end Ids

structure Tabled (t : Timers C) (S : Set (TNode C)) : Prop where
  ids : ∀ x ∈ S, x.slot < t.nslots ∧ x.id = idMake x.slot (t.slots x.slot).gen
  free : ∃ l, Links.Linked (fun k => (t.slots k).nextFree) l ∧ t.freeHead = l.head? ∧
    ∀ k, k ∈ l ↔ k < t.nslots ∧ ∀ x ∈ S, x.slot ≠ k
  marked : ∀ k < t.nslots, (∀ x ∈ S, x.slot ≠ k) → (t.slots k).pos = none
  gens : ∀ k < t.nslots, (t.slots k).gen < 2 ^ 32
  room : t.nslots ≤ t.slotCap
  few : t.nslots ≤ timerMaxSlots
  zeroed : ∀ k, t.nslots ≤ k → k < t.slotCap → (t.slots k).gen = 0

variable {S : Set (TNode C)} {t : Timers C}

section

variable (tabled : Tabled t S)
include tabled

theorem Tabled.small {k : Nat} (inside : k < t.nslots) : k + 1 < 2 ^ 32 := by
  have := tabled.few
  simp only [timerMaxSlots] at this
  omega

theorem Tabled.gen_eq {x : TNode C} (member : x ∈ S) : idGen x.id = (t.slots x.slot).gen := by
  have theirs := tabled.ids x member
  conv_lhs => rw [theirs.2]
  exact idGen_idMake (tabled.small theirs.1) (tabled.gens _ theirs.1)

theorem Tabled.narrow {x : TNode C} (member : x ∈ S) : 0 < x.id ∧ x.id < 2 ^ 64 := by
  have theirs := tabled.ids x member
  have small := tabled.small theirs.1
  rw [theirs.2]
  exact ⟨idMake_pos small, idMake_lt small (tabled.gens _ theirs.1)⟩

theorem Tabled.frame {t' : Timers C} (f : Frame S t t') : Tabled t' S where
  ids := fun x member => by
    rw [f.nslots, f.gen]
    exact tabled.ids x member
  free := by
    obtain ⟨l, linked, head, mem⟩ := tabled.free
    refine ⟨l, linked.congr fun k _ => f.nextFree k, f.freeHead.trans head, fun k => ?_⟩
    rw [f.nslots]
    exact mem k
  marked := fun k inside away => by
    rw [f.outside k away]
    exact tabled.marked k (f.nslots ▸ inside) away
  gens := fun k inside => by
    rw [f.gen]
    exact tabled.gens k (f.nslots ▸ inside)
  room := by
    rw [f.nslots, f.slotCap]
    exact tabled.room
  few := f.nslots ▸ tabled.few
  zeroed := fun k above inside => by
    rw [f.gen]
    exact tabled.zeroed k (f.nslots ▸ above) (f.slotCap ▸ inside)

theorem Tabled.resize (n cap seq : Nat) : Tabled { t with n := n, cap := cap, seq := seq } S :=
  ⟨tabled.ids, tabled.free, tabled.marked, tabled.gens, tabled.room, tabled.few, tabled.zeroed⟩

end

structure Timers.Valid (t : Timers C) (S : Set (TNode C)) : Prop where
  filled : Filled t S
  ordered : Heap.Ordered TNode.rank t.h t.n
  tabled : Tabled t S

theorem timersNew_valid (heap : Nat → TNode C) (slots : Nat → TSlot) : (timersNew heap slots).Valid ∅ where
  filled := ⟨fun x => by simp [timersNew], nofun⟩
  ordered := fun i _ inside => absurd inside (not_lt_zero i)
  tabled :=
    { ids := fun x member => member.elim
      free := ⟨[], Links.Linked.nil _, rfl, fun k => by simp [timersNew]⟩
      marked := nofun
      gens := nofun
      room := le_rfl
      few := zero_le _
      zeroed := fun k _ inside => absurd inside (not_lt_zero k) }

section Valid

variable {t : Timers C} {S : Set (TNode C)} {i : Nat}

theorem Filled.member (f : Filled t S) (inside : i < t.n) : t.h i ∈ S := (f.contents _).mpr ⟨i, inside, rfl⟩

variable {x : TNode C} {k : Nat}

theorem Filled.slot_inj (f : Filled t S) {y : TNode C} (hx : x ∈ S) (hy : y ∈ S)
    (same : x.slot = y.slot) : x = y := by
  obtain ⟨i, hi, rfl⟩ := (f.contents x).mp hx
  obtain ⟨j, hj, rfl⟩ := (f.contents y).mp hy
  have here := f.mirror i hi
  rw [same, f.mirror j hj] at here
  rw [some.inj here]

theorem Timers.Valid.least (v : t.Valid S) (member : x ∈ S) : (t.h 0).rank ≤ x.rank := by
  obtain ⟨i, inside, rfl⟩ := (v.filled.contents x).mp member
  exact v.ordered.root i inside

theorem slotRelease_slots (t : Timers C) {idx : Nat} (other : k ≠ idx) : (slotRelease t idx).slots k = t.slots k := by
  simp only [slotRelease, update_of_ne other]

theorem Tabled.release (tabled : Tabled t S) (f : Filled t S) (member : x ∈ S) :
    Tabled (slotRelease t x.slot) (S \ {x}) := by
  have other : ∀ y ∈ S \ {x}, y.slot ≠ x.slot := fun y my same =>
    my.2 (f.slot_inj my.1 member same)
  have stays : ∀ k, k ≠ x.slot → (slotRelease t x.slot).slots k = t.slots k := fun k far =>
    slotRelease_slots t far
  have inside := (tabled.ids x member).1
  refine ⟨fun y my => ?_, ?_, fun k bound away => ?_, fun k bound => ?_, tabled.room, tabled.few,
    fun k above bound => ?_⟩
  · rw [stays _ (other y my)]
    exact tabled.ids y my.1
  · obtain ⟨l, linked, head, mem⟩ := tabled.free
    have new : x.slot ∉ l := fun there => ((mem _).mp there).2 x member rfl
    refine ⟨x.slot :: l, ?_, rfl, fun k => ?_⟩
    · have links : (fun k => ((slotRelease t x.slot).slots k).nextFree) =
          Function.update (fun k => (t.slots k).nextFree) x.slot l.head? := by
        funext k
        by_cases here : k = x.slot
        · simp [here, slotRelease, head]
        · rw [stays k here, update_of_ne here]
      rw [links]
      exact linked.cons new
    · rw [mem_cons, mem]
      constructor
      · rintro (rfl | ⟨bound, away⟩)
        · exact ⟨inside, other⟩
        · exact ⟨bound, fun y my => away y my.1⟩
      · rintro ⟨bound, away⟩
        refine or_iff_not_imp_left.mpr fun far => ⟨bound, fun y my same => ?_⟩
        exact away y ⟨my, fun eq : y = x => far (by rw [← same, eq])⟩ same
  · by_cases here : k = x.slot
    · simp [here, slotRelease]
    · rw [stays k here]
      refine tabled.marked k bound fun y my same => ?_
      exact away y ⟨my, fun eq : y = x => here (by rw [← same, eq])⟩ same
  · by_cases here : k = x.slot
    · simp only [here, slotRelease, update_self]
      exact mod_lt _ (by decide)
    · rw [stays k here]
      exact tabled.gens k bound
  · have above : t.nslots ≤ k := above
    rw [stays k (by omega)]
    exact tabled.zeroed k above bound

structure Removed (x : TNode C) (t t' : Timers C) : Prop where
  n : t'.n + 1 = t.n
  seq : t'.seq = t.seq
  nslots : t'.nslots = t.nslots
  bumped : (t'.slots x.slot).gen = ((t.slots x.slot).gen + 1) % 2 ^ 32
  gen : ∀ k, k ≠ x.slot → (t'.slots k).gen = (t.slots k).gen

theorem Removed.frame {t' t'' : Timers C} (r : Removed x t t') (f : Frame S t' t'') : Removed x t t'' where
  n := by rw [f.n, r.n]
  seq := f.seq.trans r.seq
  nslots := f.nslots.trans r.nslots
  bumped := (f.gen _).trans r.bumped
  gen := fun k far => (f.gen k).trans (r.gen k far)

theorem slotRelease_removed (t : Timers C) (x : TNode C) (some : 0 < t.n) :
    Removed x t { slotRelease t x.slot with n := t.n - 1 } where
  n := Nat.sub_add_cancel some
  seq := rfl
  nslots := rfl
  bumped := by simp [slotRelease]
  gen := fun k far => congrArg TSlot.gen (slotRelease_slots t far)

theorem Filled.rest (f : Filled t S) (inside : i < t.n) (x : TNode C) :
    x ∈ S \ {t.h i} ↔ ∃ j < t.n, j ≠ i ∧ t.h j = x := by
  rw [Set.mem_sdiff, Set.mem_singleton_iff, f.contents]
  constructor
  · rintro ⟨⟨j, bound, rfl⟩, far⟩
    exact ⟨j, bound, fun same => far (by rw [same]), rfl⟩
  · rintro ⟨j, bound, far, rfl⟩
    exact ⟨⟨j, bound, rfl⟩, fun same => (f.hole inside).apart j bound far (by rw [same])⟩

theorem Filled.released (f : Filled t S) {i j : Nat} (inside : i < t.n) (bound : j < t.n)
    (far : j ≠ i) : ((slotRelease t (t.h i).slot).slots (t.h j).slot).pos = some j := by
  rw [slotRelease_slots t ((f.hole inside).apart j bound far), f.mirror j bound]

/-- The last place goes; the node there takes the place of the removed one. -/
theorem Filled.lastMoves (f : Filled t S) (inside : i < t.n) (last : i ≠ t.n - 1) :
    Hole { slotRelease t (t.h i).slot with n := t.n - 1 } i (t.h (t.n - 1)) (S \ {t.h i}) where
  inside := show i < t.n - 1 by omega
  contents := fun x => by
    rw [f.rest inside]
    constructor
    · rintro ⟨j, bound, far, rfl⟩
      by_cases here : j = t.n - 1
      · exact .inl (by rw [here])
      · exact .inr ⟨j, show j < t.n - 1 by omega, far, rfl⟩
    · rintro (rfl | ⟨j, bound, far, rfl⟩)
      · exact ⟨t.n - 1, by omega, Ne.symm last, rfl⟩
      · have bound : j < t.n - 1 := bound
        exact ⟨j, by omega, far, rfl⟩
  mirror := fun j (bound : j < t.n - 1) far => f.released inside (by omega) far
  apart := fun j (bound : j < t.n - 1) far => (f.hole (by omega)).apart j (by omega) (by omega)

theorem Filled.lastGoes (f : Filled t S) (inside : i < t.n) (last : i = t.n - 1) :
    Filled { slotRelease t (t.h i).slot with n := t.n - 1 } (S \ {t.h i}) where
  contents := fun x => by
    rw [f.rest inside]
    constructor
    · rintro ⟨j, bound, far, rfl⟩
      exact ⟨j, show j < t.n - 1 by omega, rfl⟩
    · rintro ⟨j, bound, rfl⟩
      have bound : j < t.n - 1 := bound
      exact ⟨j, by omega, by omega, rfl⟩
  mirror := fun j (bound : j < t.n - 1) => f.released inside (by omega) (by omega)

theorem heapRemoveAt_spec (v : t.Valid S) (inside : i < t.n) :
    (heapRemoveAt t i).Valid (S \ {t.h i}) ∧ Removed (t.h i) t (heapRemoveAt t i) := by
  have removed := slotRelease_removed t (t.h i) (by omega)
  have tabled := (v.tabled.release v.filled (v.filled.member inside)).resize (t.n - 1) t.cap t.seq
  have ordered : Heap.Ordered TNode.rank t.h (t.n - 1) := fun j pos bound => v.ordered j pos (by omega)
  change Timers.Valid (if i = t.n - 1 then { slotRelease t (t.h i).slot with n := t.n - 1 } else _) _ ∧
    Removed _ _ (if i = t.n - 1 then { slotRelease t (t.h i).slot with n := t.n - 1 } else _)
  by_cases last : i = t.n - 1
  · rw [if_pos last]
    exact ⟨⟨v.filled.lastGoes inside last, ordered, tabled⟩, removed⟩
  have hole := v.filled.lastMoves inside last
  have within : i < t.n - 1 := hole.inside
  rw [if_neg last]
  -- the node in the hole is older than its new children or younger than its new parent
  have placed := hole.finish
  have down := siftDown_spec placed.filled within (Heap.Holed.refill (ordered.up i).toHoled (t.h (t.n - 1)))
  have sifted : i < (siftDown _ _).n := lt_of_lt_of_eq within down.2.frame.n.symm
  have up := siftUp_spec down.2.filled sifted down.1
  refine (congrArg (fun r => Timers.Valid r _ ∧ Removed _ _ r) (if_pos (down.2.filled.mirror i sifted))).mpr ?_
  exact ⟨⟨up.2.filled, up.1, ((tabled.frame placed.frame).frame down.2.frame).frame up.2.frame⟩,
    ((removed.frame placed.frame).frame down.2.frame).frame up.2.frame⟩

structure Allocated (S : Set (TNode C)) (t : Timers C) (k : Nat) (t' : Timers C) : Prop where
  h : t'.h = t.h
  n : t'.n = t.n
  seq : t'.seq = t.seq
  unused : ∀ x ∈ S, x.slot ≠ k
  kept : ∀ j < t.nslots, t'.slots j = t.slots j
  zeroed : ∀ j, t.nslots ≤ j → j < t'.slotCap → (t'.slots j).gen = 0
  grows : t.nslots ≤ t'.nslots
  inside : k < t'.nslots
  one : ∀ j < t'.nslots, j < t.nslots ∨ j = k
  room : t'.nslots ≤ t'.slotCap
  few : t'.nslots ≤ timerMaxSlots
  free : ∃ l, Links.Linked (fun k => (t'.slots k).nextFree) l ∧ t'.freeHead = l.head? ∧
    ∀ j, j ∈ l ↔ j < t'.nslots ∧ j ≠ k ∧ ∀ x ∈ S, x.slot ≠ j

theorem Tabled.append (tabled : Tabled t S) (empty : t.freeHead = none)
    {slots : Nat → TSlot} {slotCap : Nat} (kept : ∀ j < t.nslots, slots j = t.slots j)
    (zeroed : ∀ j, t.nslots ≤ j → j < slotCap → (slots j).gen = 0) (room : t.nslots < slotCap)
    (few : t.nslots < timerMaxSlots) :
    Allocated S t t.nslots
      { t with slots := slots, slotCap := slotCap, nslots := t.nslots + 1, freeHead := none } where
  h := rfl
  n := rfl
  seq := rfl
  unused := fun x member => (tabled.ids x member).1.ne
  kept := kept
  zeroed := zeroed
  grows := le_succ _
  inside := lt_succ_self _
  one := fun j bound => Nat.lt_succ_iff_lt_or_eq.mp bound
  room := room
  few := few
  free := by
    obtain ⟨l, -, head, mem⟩ := tabled.free
    obtain rfl : l = [] := head?_eq_none_iff.mp (head.symm.trans empty)
    refine ⟨[], Links.Linked.nil _, rfl, fun j => ?_⟩
    constructor
    · intro there
      exact absurd there not_mem_nil
    · rintro ⟨bound, far, away⟩
      exact (mem j).mpr ⟨Nat.lt_of_le_of_ne (Nat.lt_succ_iff.mp bound) far, away⟩

variable {t' : Timers C}

theorem slotAlloc_spec {ok : Bool} (tabled : Tabled t S)
    (alloc : slotAlloc t ok = some (k, t')) : Allocated S t k t' := by
  rw [slotAlloc] at alloc
  cases head : t.freeHead with
  | some idx =>
    rw [head] at alloc
    obtain ⟨rfl, rfl⟩ := Prod.mk.inj (some.inj alloc)
    obtain ⟨l, linked, first, mem⟩ := tabled.free
    rw [head] at first
    obtain ⟨rest, rfl⟩ : ∃ rest, l = idx :: rest := by
      cases l with
      | nil => simp at first
      | cons a rest => exact ⟨rest, by rw [some.inj first]⟩
    obtain ⟨inside, unused⟩ := (mem idx).mp (mem_cons_self ..)
    have cut : Links.Linked (fun k => (t.slots k).nextFree) ([] ++ idx :: rest) := linked
    have tail : Links.Linked (fun k => (t.slots k).nextFree) ([idx] ++ rest) := linked
    refine ⟨rfl, rfl, rfl, unused, fun _ _ => rfl, tabled.zeroed, le_rfl, inside,
      fun j bound => .inl bound, tabled.room, tabled.few, rest, tail.suffix, cut.next_eq, fun j => ?_⟩
    have others := cut.mem_rest j
    rw [nil_append, nil_append, mem] at others
    tauto
  | none =>
    rw [head] at alloc
    by_cases full : timerMaxSlots ≤ t.nslots
    · simp [full] at alloc
    rw [if_neg full] at alloc
    by_cases atEnd : t.nslots = t.slotCap
    · rw [if_pos atEnd] at alloc
      by_cases memory : ok = true
      · rw [if_pos memory] at alloc
        obtain ⟨rfl, rfl⟩ := Prod.mk.inj (some.inj alloc)
        have more : t.nslots < if t.slotCap = 0 then 16 else t.slotCap * 2 % 2 ^ 32 := by
          simp only [timerMaxSlots] at full
          split <;> omega
        refine tabled.append head (fun j bound => ?_) (fun j above bound => ?_) more (by omega)
        · exact if_neg fun late => by omega
        · exact congrArg TSlot.gen (if_pos ⟨atEnd ▸ above, bound⟩)
      · simp [memory] at alloc
    · rw [if_neg atEnd] at alloc
      obtain ⟨rfl, rfl⟩ := Prod.mk.inj (some.inj alloc)
      exact tabled.append head (fun _ _ => rfl) tabled.zeroed (Nat.lt_of_le_of_ne tabled.room atEnd) (by omega)

theorem Tabled.insert {v : TNode C} (tabled : Tabled t S)
    (a : Allocated S t k t') (slot : v.slot = k) (id : v.id = idMake k (t'.slots k).gen) :
    Tabled t' (insert v S) where
  ids := fun x member => by
    rcases member with rfl | member
    · rw [slot]
      exact ⟨a.inside, id⟩
    · have old := tabled.ids x member
      rw [a.kept _ old.1]
      exact ⟨old.1.trans_le a.grows, old.2⟩
  free := by
    obtain ⟨l, linked, head, mem⟩ := a.free
    refine ⟨l, linked, head, fun j => ?_⟩
    rw [mem, Set.forall_mem_insert, slot]
    tauto
  marked := fun j bound away => by
    rw [Set.forall_mem_insert, slot] at away
    have old := (a.one j bound).resolve_right (Ne.symm away.1)
    rw [a.kept j old]
    exact tabled.marked j old away.2
  gens := fun j bound => by
    by_cases old : j < t.nslots
    · rw [a.kept j old]
      exact tabled.gens j old
    · rw [a.zeroed j (not_lt.mp old) (bound.trans_le a.room)]
      decide
  room := a.room
  few := a.few
  zeroed := fun j above bound => a.zeroed j (a.grows.trans above) bound

structure Added (S : Set (TNode C)) (x : TNode C) (t t' : Timers C) : Prop where
  valid : t'.Valid (insert x S)
  n : t'.n = t.n + 1
  seq : t'.seq = (t.seq + 1) % 2 ^ 64
  unused : ∀ y ∈ S, y.slot ≠ x.slot
  grows : t.nslots ≤ t'.nslots
  gen : ∀ j < t.nslots, (t'.slots j).gen = (t.slots j).gen
  fresh : ∀ j, t.nslots ≤ j → j < t'.nslots → (t'.slots j).gen = 0

theorem Allocated.hole (a : Allocated S t k t') (v : t.Valid S) (x : TNode C) (slot : x.slot = k) (seq : Nat) :
    Hole { t' with seq := seq, n := t'.n + 1 } t'.n x (insert x S) where
  inside := lt_succ_self _
  contents := fun y => by
    rw [Set.mem_insert_iff, v.filled.contents, ← a.n, ← a.h]
    refine or_congr_right ⟨fun ⟨j, bound, eq⟩ => ⟨j, bound.trans (lt_succ_self _), bound.ne, eq⟩, ?_⟩
    rintro ⟨j, bound, far, eq⟩
    exact ⟨j, Nat.lt_of_le_of_ne (Nat.lt_succ_iff.mp bound) far, eq⟩
  mirror := fun j (bound : j < t'.n + 1) far => by
    rw [a.n] at bound far
    have inside : j < t.n := by omega
    change (t'.slots (t'.h j).slot).pos = some j
    rw [a.h, a.kept _ (v.tabled.ids _ (v.filled.member inside)).1, v.filled.mirror j inside]
  apart := fun j (bound : j < t'.n + 1) far => by
    rw [a.n] at bound far
    change (t'.h j).slot ≠ x.slot
    rw [a.h, slot]
    exact a.unused _ (v.filled.member (by omega))

theorem Allocated.added (a : Allocated S t k t') (v : t.Valid S)
    (x : TNode C) (slot : x.slot = k) (id : x.id = idMake k (t'.slots k).gen) :
    Added S x t (siftUp (place { t' with seq := (t'.seq + 1) % 2 ^ 64, n := t'.n + 1 } t'.n x) t'.n) := by
  have hole := a.hole v x slot ((t'.seq + 1) % 2 ^ 64)
  have placed := hole.finish
  have last : Heap.Up TNode.rank t'.h (t'.n + 1) t'.n x := by
    rw [a.h, a.n]
    exact v.ordered.grow x
  have here : (place { t' with seq := (t'.seq + 1) % 2 ^ 64, n := t'.n + 1 } t'.n x).h t'.n = x :=
    update_self ..
  obtain ⟨ordered, sifted⟩ := siftUp_spec placed.filled hole.inside (here.symm ▸ last.fill)
  have tabled : Tabled { t' with seq := (t'.seq + 1) % 2 ^ 64, n := t'.n + 1 } (insert x S) :=
    (v.tabled.insert a slot id).resize _ _ _
  have frame := placed.frame.trans sifted.frame
  refine ⟨⟨sifted.filled, ordered, tabled.frame frame⟩, frame.n.trans (congrArg (· + 1) a.n), ?_,
    fun y member => slot ▸ a.unused y member, ?_, fun j bound => ?_, fun j above bound => ?_⟩
  · rw [frame.seq, ← a.seq]
  · rw [frame.nslots]
    exact a.grows
  · rw [frame.gen]
    exact congrArg TSlot.gen (a.kept j bound)
  · rw [frame.nslots] at bound
    rw [frame.gen]
    exact a.zeroed j above (lt_of_lt_of_le bound a.room)

variable (v : t.Valid S)
include v

theorem Timers.Valid.recap (cap : Nat) : Timers.Valid { t with cap := cap } S :=
  ⟨⟨v.filled.contents, v.filled.mirror⟩, v.ordered, v.tabled.resize _ _ _⟩

/-- A call of `dyn_timer_add` that fails leaves the timers as they are, at most with more
room in the heap. -/
theorem timerAdd_cases (now delay : Nat) (cb : Option C) (ok ok' : Bool) :
    ((timerAdd t now delay cb ok ok').1 = timerNone ∧
      ∃ cap, (timerAdd t now delay cb ok ok').2 = { t with cap := cap }) ∨
    ∃ c, cb = some c ∧ (timerAdd t now delay cb ok ok').1 ≠ timerNone ∧
      Added S ⟨deadlineAt now delay, t.seq, c, (timerAdd t now delay cb ok ok').1⟩ t
        (timerAdd t now delay cb ok ok').2 := by
  cases cb with
  | none => exact .inl ⟨rfl, t.cap, rfl⟩
  | some c =>
    simp only [timerAdd]
    have grown : (if t.n = t.cap then growHeap t ok else some t) = none ∨
        ∃ cap, (if t.n = t.cap then growHeap t ok else some t) = some { t with cap := cap } := by
      split_ifs with full
      · cases ok with
        | false => exact .inl rfl
        | true => exact .inr ⟨_, rfl⟩
      · exact .inr ⟨t.cap, rfl⟩
    rcases grown with failed | ⟨cap, grown⟩
    · rw [failed]
      exact .inl ⟨rfl, t.cap, rfl⟩
    · rw [grown]
      dsimp only
      cases alloc : slotAlloc { t with cap := cap } ok' with
      | none => exact .inl ⟨rfl, cap, rfl⟩
      | some r =>
        obtain ⟨k, t'⟩ := r
        have a := slotAlloc_spec (v.recap cap).tabled alloc
        have small : k + 1 < 2 ^ 32 := by
          have few := a.few
          have inside := a.inside
          simp only [timerMaxSlots] at few
          omega
        have added := a.added (v.recap cap)
          ⟨deadlineAt now delay, t'.seq, c, idMake k (t'.slots k).gen⟩ (idIndex_idMake small) rfl
        refine .inr ⟨c, rfl, (idMake_pos small).ne', ?_⟩
        have first : t'.seq = t.seq := a.seq
        rw [← first]
        exact ⟨added.valid, added.n, added.seq, added.unused, added.grows, added.gen, added.fresh⟩

theorem timerCancel_cases (id : Nat) :
    (∃ i < t.n, (t.slots (idIndex id)).pos = some i ∧ (t.h i).slot = idIndex id ∧
      idGen (t.h i).id = idGen id ∧ (id < 2 ^ 64 → (t.h i).id = id) ∧
      timerCancel t id = (1, heapRemoveAt t i)) ∨
    (timerCancel t id = (0, t) ∧ ∀ x ∈ S, x.id ≠ id) := by
  rw [timerCancel]
  by_cases used : ∃ x ∈ S, x.slot = idIndex id
  · -- the slot is in use, so the node it leads to is the one in it
    obtain ⟨x, member, slot⟩ := used
    obtain ⟨i, inside, rfl⟩ := (v.filled.contents x).mp member
    have theirs := v.tabled.ids _ member
    have pos := v.filled.mirror i inside
    have gen := v.tabled.gen_eq member
    rw [slot] at theirs pos gen
    have small := v.tabled.small theirs.1
    have known : id ≠ timerNone := by
      rintro rfl
      unfold idIndex timerNone at small
      omega
    rw [if_neg known]
    rw [if_neg (not_le.mpr theirs.1), pos]
    split_ifs with stale
    · refine .inr ⟨rfl, fun y my same => ?_⟩
      have here : y = t.h i := v.filled.slot_inj my member (by rw [slot, TNode.slot, same])
      rw [← gen, ← here, same] at stale
      exact stale rfl
    · have current := not_not.mp stale
      refine .inl ⟨i, inside, rfl, slot, gen.trans current, fun narrow => ?_, rfl⟩
      rw [theirs.2, current]
      exact idMake_index_gen narrow small
  · push Not at used
    refine .inr ⟨?_, fun x member same => used x member (by rw [TNode.slot, same])⟩
    by_cases beyond : t.nslots ≤ idIndex id
    · rw [if_pos beyond, ite_self]
    · rw [if_neg beyond, v.tabled.marked _ (not_le.mp beyond) used, ite_self]

end Valid

end DynaJS.Timer
