import DynaJS.Timer.Timers

/-! The two sifts. Both carry one node `v` through the heap; its place is a hole, and the
slots of all other nodes say where these are. -/
namespace DynaJS.Timer

open Function

variable {C : Type}

def TNode.rank (x : TNode C) : ℕ ×ₗ ℕ := toLex (x.deadline, x.seq)

def TNode.slot (x : TNode C) : Nat := idIndex x.id

theorem nodeLess_iff (a b : TNode C) : nodeLess a b = true ↔ a.rank < b.rank := by
  rw [TNode.rank, TNode.rank, Prod.Lex.toLex_lt_toLex, nodeLess]
  by_cases same : a.deadline = b.deadline
  · simp [same]
  · rw [if_pos same]
    simp [same]

/-- The nodes of `S` fill the heap, but for `v`, which has no place while the hole is at
`i`. -/
structure Hole (t : Timers C) (i : Nat) (v : TNode C) (S : Set (TNode C)) : Prop where
  inside : i < t.n
  contents : ∀ x, x ∈ S ↔ x = v ∨ ∃ j < t.n, j ≠ i ∧ t.h j = x
  mirror : ∀ j < t.n, j ≠ i → (t.slots (t.h j).slot).pos = some j
  apart : ∀ j < t.n, j ≠ i → (t.h j).slot ≠ v.slot

structure Filled (t : Timers C) (S : Set (TNode C)) : Prop where
  contents : ∀ x, x ∈ S ↔ ∃ j < t.n, t.h j = x
  mirror : ∀ j < t.n, (t.slots (t.h j).slot).pos = some j

structure Frame (S : Set (TNode C)) (t t' : Timers C) : Prop where
  n : t'.n = t.n
  nslots : t'.nslots = t.nslots
  slotCap : t'.slotCap = t.slotCap
  freeHead : t'.freeHead = t.freeHead
  seq : t'.seq = t.seq
  gen : ∀ k, (t'.slots k).gen = (t.slots k).gen
  nextFree : ∀ k, (t'.slots k).nextFree = (t.slots k).nextFree
  outside : ∀ k, (∀ x ∈ S, x.slot ≠ k) → t'.slots k = t.slots k

variable {S : Set (TNode C)}

theorem Frame.trans {t t' t'' : Timers C} (f : Frame S t t') (g : Frame S t' t'') : Frame S t t'' where
  n := g.n.trans f.n
  nslots := g.nslots.trans f.nslots
  slotCap := g.slotCap.trans f.slotCap
  freeHead := g.freeHead.trans f.freeHead
  seq := g.seq.trans f.seq
  gen := fun k => (g.gen k).trans (f.gen k)
  nextFree := fun k => (g.nextFree k).trans (f.nextFree k)
  outside := fun k away => (g.outside k away).trans (f.outside k away)

theorem place_pos (t : Timers C) (i : Nat) (v : TNode C) : ((place t i v).slots v.slot).pos = some i := by
  simp [place, TNode.slot]

theorem place_slots (t : Timers C) (i : Nat) (v : TNode C) {k : Nat} (other : k ≠ v.slot) :
    (place t i v).slots k = t.slots k := by
  rw [TNode.slot] at other
  simp only [place, update_of_ne other]

theorem place_here t (i : Nat) (v : TNode C) : (place t i v).h i = v := update_self ..

theorem place_other (t : Timers C) {i j : Nat} (v : TNode C) (other : j ≠ i) : (place t i v).h j = t.h j :=
  update_of_ne other ..

variable {v : TNode C}

theorem place_frame (t : Timers C) (i : Nat) (member : v ∈ S) : Frame S t (place t i v) where
  n := rfl
  nslots := rfl
  slotCap := rfl
  freeHead := rfl
  seq := rfl
  gen := fun k => by
    by_cases here : k = v.slot
    · simp [here, place, TNode.slot]
    · rw [place_slots t i v here]
  nextFree := fun k => by
    by_cases here : k = v.slot
    · simp [here, place, TNode.slot]
    · rw [place_slots t i v here]
  outside := fun k away => place_slots t i v fun same => away v member same.symm

section Hole

variable {t : Timers C} {i p : Nat} {v : TNode C} {S : Set (TNode C)}

variable (o : Hole t i v S)
include o

theorem Hole.member {j : Nat} (inside : j < t.n) (other : j ≠ i) : t.h j ∈ S :=
  (o.contents _).mpr (.inr ⟨j, inside, other, rfl⟩)

theorem Hole.move (inside : p < t.n) (other : p ≠ i) : Hole (place t i (t.h p)) p v S where
  inside := inside
  contents := fun x => by
    rw [o.contents]
    refine or_congr_right ⟨fun ⟨j, bound, far, eq⟩ => ?_, fun ⟨j, bound, far, eq⟩ => ?_⟩
    · by_cases here : j = p
      · exact ⟨i, o.inside, Ne.symm other, by rw [place_here, ← here, eq]⟩
      · exact ⟨j, bound, here, by rw [place_other t _ far, eq]⟩
    · by_cases here : j = i
      · rw [here, place_here] at eq
        exact ⟨p, inside, other, eq⟩
      · rw [place_other t _ here] at eq
        exact ⟨j, bound, here, eq⟩
  mirror := fun j bound far => by
    by_cases here : j = i
    · rw [here, place_here, place_pos]
    · have theirs := o.mirror j bound here
      -- two nodes in one slot would be in one place
      rw [place_other t _ here, place_slots, theirs]
      intro same
      have ours := o.mirror p inside other
      rw [← same, theirs] at ours
      exact far (Option.some.inj ours)
  apart := fun j bound far => by
    by_cases here : j = i
    · rw [here, place_here]
      exact o.apart p inside other
    · rw [place_other t _ here]
      exact o.apart j bound here

theorem Hole.fill : Filled (place t i v) S where
  contents := fun x => by
    rw [o.contents]
    constructor
    · rintro (rfl | ⟨j, bound, far, eq⟩)
      · exact ⟨i, o.inside, place_here ..⟩
      · exact ⟨j, bound, by rw [place_other t v far, eq]⟩
    · rintro ⟨j, bound, eq⟩
      by_cases here : j = i
      · rw [here, place_here] at eq
        exact .inl eq.symm
      · rw [place_other t v here] at eq
        exact .inr ⟨j, bound, here, eq⟩
  mirror := fun j bound => by
    by_cases here : j = i
    · rw [here, place_here, place_pos]
    · rw [place_other t v here, place_slots t i v (o.apart j bound here), o.mirror j bound here]

theorem Hole.value : v ∈ S := (o.contents v).mpr (.inl rfl)

end Hole

variable {t : Timers C} {i : Nat}

theorem Filled.hole (f : Filled t S) (inside : i < t.n) : Hole t i (t.h i) S where
  inside := inside
  contents := fun x => by
    rw [f.contents]
    constructor
    · rintro ⟨j, bound, eq⟩
      by_cases here : j = i
      · exact .inl (by rw [← eq, here])
      · exact .inr ⟨j, bound, here, eq⟩
    · rintro (rfl | ⟨j, bound, _, eq⟩)
      · exact ⟨i, inside, rfl⟩
      · exact ⟨j, bound, eq⟩
  mirror := fun j bound _ => f.mirror j bound
  apart := fun j bound far same => by
    have theirs := f.mirror j bound
    rw [same, f.mirror i inside] at theirs
    exact far (Option.some.inj theirs).symm

structure Sifted (S : Set (TNode C)) (t t' : Timers C) : Prop where
  filled : Filled t' S
  frame : Frame S t t'

theorem Hole.finish (o : Hole t i v S) : Sifted S t (place t i v) := ⟨o.fill, place_frame t i o.value⟩

theorem Hole.before {t t' : Timers C} {i j : Nat} (o : Hole t i v S)
    (inside : j < t.n) (other : j ≠ i) (rest : Sifted S (place t i (t.h j)) t') : Sifted S t t' :=
  ⟨rest.filled, (place_frame t i (o.member inside other)).trans rest.frame⟩

theorem siftUpLoop_spec (v : TNode C) (S : Set (TNode C)) (fuel i : Nat) (t : Timers C)
    (enough : i ≤ fuel) (o : Hole t i v S) (u : Heap.Up TNode.rank t.h t.n i v) :
    Heap.Ordered TNode.rank (siftUpLoop v fuel i t).h t.n ∧ Sifted S t (siftUpLoop v fuel i t) := by
  induction fuel generalizing i t with
  | zero => exact ⟨u.finish fun pos => by omega, o.finish⟩
  | succ fuel ih =>
    rw [siftUpLoop]
    split_ifs with top
    · dsimp only
      by_cases less : nodeLess v (t.h ((i - 1) / 2)) = true
      · have upper := Heap.parent_lt top
        have within := o.inside
        rw [if_neg (not_not.mpr less)]
        obtain ⟨ordered, rest⟩ := ih (Heap.parent i) (place t i (t.h (Heap.parent i))) (by omega)
          (o.move (by omega) (by omega)) (u.move top o.inside ((nodeLess_iff ..).mp less))
        exact ⟨ordered, o.before (by omega) (by omega) rest⟩
      · rw [if_pos less]
        exact ⟨u.finish fun _ => not_lt.mp fun lt => less ((nodeLess_iff ..).mpr lt), o.finish⟩
    · exact ⟨u.finish fun pos => absurd pos top, o.finish⟩

theorem siftUp_spec (f : Filled t S) (inside : i < t.n) (u : Heap.Up TNode.rank t.h t.n i (t.h i)) :
    Heap.Ordered TNode.rank (siftUp t i).h (siftUp t i).n ∧ Sifted S t (siftUp t i) := by
  obtain ⟨ordered, sifted⟩ := siftUpLoop_spec _ S i i t le_rfl (f.hole inside) u
  rw [siftUp, sifted.frame.n]
  exact ⟨ordered, sifted⟩

theorem smaller_eq (t : Timers C) (v : TNode C) (i : Nat) : smaller t v i = Heap.child TNode.rank t.h t.n i v := by
  simp only [smaller, Heap.child, nodeLess_iff]
  by_cases left : 2 * i + 1 < t.n ∧ (t.h (2 * i + 1)).rank < v.rank
  · simp only [if_pos left]
  · simp only [if_neg left, if_pos]

/-- From `start` down. Only the node at `start` can then be out of order, against its
parent. -/
theorem siftDownLoop_spec (v : TNode C) (S : Set (TNode C)) (start fuel i : Nat) (t : Timers C)
    (enough : t.n ≤ i + fuel) (o : Hole t i v S) (d : Heap.Holed TNode.rank t.h t.n i)
    (above : i = start ∨ (t.h (Heap.parent i)).rank ≤ v.rank) :
    Heap.Up TNode.rank (siftDownLoop v fuel i t).h t.n start ((siftDownLoop v fuel i t).h start) ∧
      Sifted S t (siftDownLoop v fuel i t) := by
  induction fuel generalizing i t with
  | zero => exact absurd o.inside (by omega)
  | succ fuel ih =>
    rw [siftDownLoop, smaller_eq]
    rcases Heap.child_spec TNode.rank t.h t.n i v with ⟨stop, below⟩ | ⟨pos, inside, child, lt, least⟩
    · rw [if_pos stop]
      have u : Heap.Up TNode.rank t.h t.n i v := ⟨d, below⟩
      refine ⟨?_, o.finish⟩
      rcases above with rfl | above
      · rw [place_here]
        exact u.fill
      · exact (u.finish fun _ => above).up start
    · have lower := Heap.parent_lt pos
      rw [if_neg (by omega)]
      generalize Heap.child TNode.rank t.h t.n i v = m at *
      have moved : (place t i (t.h m)).h (Heap.parent m) = t.h m := by rw [child, place_here]
      obtain ⟨up, rest⟩ := ih m (place t i (t.h m)) (show t.n ≤ m + fuel by omega)
        (o.move inside (by omega)) (d.move pos inside child least) (.inr (by rw [moved]; exact lt.le))
      exact ⟨up, o.before inside (by omega) rest⟩

theorem siftDown_spec (f : Filled t S) (inside : i < t.n) (d : Heap.Holed TNode.rank t.h t.n i) :
    Heap.Up TNode.rank (siftDown t i).h (siftDown t i).n i ((siftDown t i).h i) ∧ Sifted S t (siftDown t i) := by
  obtain ⟨up, sifted⟩ := siftDownLoop_spec _ S i t.n i t (by omega) (f.hole inside) d (.inl rfl)
  rw [siftDown, sifted.frame.n]
  exact ⟨up, sifted⟩

end DynaJS.Timer
