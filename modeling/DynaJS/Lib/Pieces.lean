import Mathlib.Tactic

/-! Labelled half-open intervals in order: the pieces of a partial function on the
points of a linear order. Neighbours may touch. -/
namespace DynaJS.Pieces

open List

structure Piece (α C : Type) where
  lo : α
  hi : α
  val : C
deriving DecidableEq

variable {α C V : Type} [LinearOrder α]

def Piece.Covers (c : Piece α C) (x : α) : Prop := c.lo ≤ x ∧ x < c.hi

structure InOrder (l : List (Piece α C)) : Prop where
  proper : ∀ c ∈ l, c.lo < c.hi
  apart : l.Pairwise (fun a b => a.hi ≤ b.lo)

theorem inOrder_nil : InOrder ([] : List (Piece α C)) := ⟨by simp, by simp⟩

variable {l m pre post : List (Piece α C)} {x : α} {v : V} {d : Piece α C}

theorem inOrder_append : InOrder (l ++ m) ↔ InOrder l ∧ InOrder m ∧ ∀ a ∈ l, ∀ b ∈ m, a.hi ≤ b.lo := by
  constructor
  · rintro ⟨proper, apart⟩
    obtain ⟨left, right, cross⟩ := pairwise_append.mp apart
    exact ⟨⟨fun c hc => proper c (mem_append_left _ hc), left⟩,
      ⟨fun c hc => proper c (mem_append_right _ hc), right⟩, cross⟩
  · rintro ⟨left, right, cross⟩
    refine ⟨fun c hc => ?_, pairwise_append.mpr ⟨left.apart, right.apart, cross⟩⟩
    exact (mem_append.mp hc).elim (left.proper c) (right.proper c)

variable {c : Piece α C}

theorem inOrder_cons : InOrder (c :: l) ↔ c.lo < c.hi ∧ (∀ b ∈ l, c.hi ≤ b.lo) ∧ InOrder l := by
  constructor
  · rintro ⟨proper, apart⟩
    obtain ⟨ahead, rest⟩ := pairwise_cons.mp apart
    exact ⟨proper c (by simp), ahead, fun b hb => proper b (by simp [hb]), rest⟩
  · rintro ⟨proper, ahead, rest⟩
    exact ⟨by simpa using ⟨proper, rest.proper⟩, pairwise_cons.mpr ⟨ahead, rest.apart⟩⟩

/-- The pieces give the point `x` the value `v`, where `f` reads a value off a label. -/
def Gives (f : C → V) (l : List (Piece α C)) (x : α) (v : V) : Prop := ∃ c ∈ l, c.Covers x ∧ f c.val = v

variable {f : C → V}

theorem gives_append : Gives f (l ++ m) x v ↔ Gives f l x v ∨ Gives f m x v := by
  simp only [Gives, mem_append, or_and_right, exists_or]

theorem gives_cons : Gives f (c :: l) x v ↔ (c.Covers x ∧ f c.val = v) ∨ Gives f l x v := by
  simp only [Gives, mem_cons, or_and_right, exists_or, exists_eq_left]

@[simp] theorem gives_nil : ¬ Gives f ([] : List (Piece α C)) x v := by
  simp [Gives]

def Agree (f : C → V) (lo hi : α) (l m : List (Piece α C)) : Prop :=
  ∀ x v, ¬ (lo ≤ x ∧ x < hi) → (Gives f l x v ↔ Gives f m x v)

theorem Agree.refl (lo hi : α) l : Agree f lo hi l l := fun _ _ _ => Iff.rfl

variable {lo hi : α}

theorem Agree.trans {n : List (Piece α C)} (h : Agree f lo hi l m)
    (k : Agree f lo hi m n) : Agree f lo hi l n := fun x v out => (h x v out).trans (k x v out)

theorem agree_trim_end (pre post : List (Piece α C)) (ends : c.hi ≤ hi) (above : lo < c.hi) :
    Agree f lo hi (pre ++ c :: post) (pre ++ { c with hi := lo } :: post) := by
  intro x v out
  have same : c.Covers x ↔ Piece.Covers { c with hi := lo } x := by
    constructor
    · rintro ⟨h₁, h₂⟩
      refine ⟨h₁, ?_⟩
      by_contra high
      exact out ⟨not_lt.mp high, by order⟩
    · rintro ⟨h₁, h₂⟩
      exact ⟨h₁, by order⟩
  simp only [gives_append, gives_cons, same]

theorem agree_trim_start (pre post : List (Piece α C)) (starts : lo ≤ c.lo) (below : c.lo < hi) :
    Agree f lo hi (pre ++ c :: post) (pre ++ { c with lo := hi } :: post) := by
  intro x v out
  have same : c.Covers x ↔ Piece.Covers { c with lo := hi } x := by
    constructor
    · rintro ⟨h₁, h₂⟩
      refine ⟨?_, h₂⟩
      by_contra low
      exact out ⟨by order, not_le.mp low⟩
    · rintro ⟨h₁, h₂⟩
      exact ⟨by order, h₂⟩
  simp only [gives_append, gives_cons, same]

theorem agree_delete (pre mid post : List (Piece α C)) (inside : ∀ c ∈ mid, lo ≤ c.lo ∧ c.hi ≤ hi) :
    Agree f lo hi (pre ++ mid ++ post) (pre ++ post) := by
  intro x v out
  have gone : ¬ Gives f mid x v := by
    rintro ⟨c, hc, ⟨h₁, h₂⟩, _⟩
    have := inside c hc
    exact out ⟨this.1.trans h₁, lt_of_lt_of_le h₂ this.2⟩
  simp only [gives_append, gone, or_false]

/-- Cutting `[lo, hi)` out of the middle of a piece; the second half has a label of
its own with the same value. -/
theorem agree_split (h : lo < hi) (pre post : List (Piece α C))
    {w : C} (same : f w = f c.val) (starts : c.lo < lo) (ends : hi < c.hi) :
    Agree f lo hi (pre ++ c :: post) (pre ++ { c with hi := lo } :: ⟨hi, c.hi, w⟩ :: post) := by
  intro x v out
  have halves : c.Covers x ↔ Piece.Covers { c with hi := lo } x ∨ Piece.Covers (⟨hi, c.hi, w⟩ : Piece α C) x := by
    constructor
    · rintro ⟨h₁, h₂⟩
      by_cases low : x < lo
      · exact .inl ⟨h₁, low⟩
      · exact .inr ⟨by by_contra high; exact out ⟨not_lt.mp low, not_le.mp high⟩, h₂⟩
    · rintro (⟨h₁, h₂⟩ | ⟨h₁, h₂⟩)
      · exact ⟨h₁, by order⟩
      · exact ⟨by order, h₂⟩
  simp only [gives_append, gives_cons, halves, same, or_and_right, or_assoc]

variable {pre post : List (Piece α C)}

theorem InOrder.shrink {c : Piece α C} (ord : InOrder (pre ++ c :: post)) (proper : d.lo < d.hi) (low : c.lo ≤ d.lo)
    (high : d.hi ≤ c.hi) : InOrder (pre ++ d :: post) := by
  obtain ⟨left, right, cross⟩ := inOrder_append.mp ord
  obtain ⟨_, ahead, rest⟩ := inOrder_cons.mp right
  refine inOrder_append.mpr ⟨left, inOrder_cons.mpr ⟨proper, fun b hb => ?_, rest⟩, fun a ha => ?_⟩
  · exact high.trans (ahead b hb)
  · refine forall_mem_cons.mpr ⟨?_, fun b hb => cross a ha b (by simp [hb])⟩
    exact (cross a ha c (by simp)).trans low

theorem InOrder.delete {mid : List (Piece α C)} (ord : InOrder (pre ++ mid ++ post)) : InOrder (pre ++ post) := by
  have kept : (pre ++ post).Sublist (pre ++ mid ++ post) :=
    (sublist_append_left pre mid).append (List.Sublist.refl post)
  exact ⟨fun c hc => ord.proper c (kept.subset hc), ord.apart.sublist kept⟩

/-- A piece fits between the pieces that end at or before it and those that start at
or after it. -/
theorem InOrder.insert (ord : InOrder (pre ++ post)) (proper : d.lo < d.hi) (low : ∀ c ∈ pre, c.hi ≤ d.lo)
    (high : ∀ c ∈ post, d.hi ≤ c.lo) : InOrder (pre ++ d :: post) := by
  obtain ⟨left, right, cross⟩ := inOrder_append.mp ord
  refine inOrder_append.mpr ⟨left, inOrder_cons.mpr ⟨proper, high, right⟩, fun a ha => ?_⟩
  exact forall_mem_cons.mpr ⟨low a ha, cross a ha⟩

/-- The pieces before `[lo, hi)` and after it, when nothing is left inside. -/
structure Clear (lo hi : α) (pre post : List (Piece α C)) : Prop where
  ordered : InOrder (pre ++ post)
  before : ∀ c ∈ pre, c.hi ≤ lo
  behind : ∀ c ∈ post, hi ≤ c.lo

theorem Clear.gives (clear : Clear lo hi pre post) (given : Gives f (pre ++ post) x v) : ¬ (lo ≤ x ∧ x < hi) := by
  rintro ⟨h₁, h₂⟩
  obtain ⟨c, hc, ⟨h₃, h₄⟩, _⟩ := given
  rcases mem_append.mp hc with hc | hc
  · have := clear.before c hc
    order
  · have := clear.behind c hc
    order

/-- What carving `[lo, hi)` out of `l` leaves is `l` off the interval and nothing on it. -/
theorem gives_carved (clear : Clear lo hi pre post) (agree : Agree f lo hi l (pre ++ post)) (x : α) (v : V) :
    Gives f (pre ++ post) x v ↔ ¬ (lo ≤ x ∧ x < hi) ∧ Gives f l x v := by
  constructor
  · intro given
    have out := clear.gives given
    exact ⟨out, (agree x v out).mpr given⟩
  · rintro ⟨out, given⟩
    exact (agree x v out).mp given

theorem gives_written (clear : Clear d.lo d.hi pre post) (agree : Agree f d.lo d.hi l (pre ++ post)) (x : α) (v : V) :
    Gives f (pre ++ d :: post) x v ↔
      if d.lo ≤ x ∧ x < d.hi then f d.val = v else Gives f l x v := by
  have carved := gives_carved clear agree x v
  rw [gives_append] at carved
  rw [gives_append, gives_cons]
  split_ifs with inside
  · have none : ¬ (Gives f pre x v ∨ Gives f post x v) := fun given =>
      (carved.mp given).1 inside
    simp only [not_or] at none
    simp only [none.1, none.2, false_or, or_false]
    exact ⟨fun h => h.2, fun h => ⟨inside, h⟩⟩
  · have miss : ¬ d.Covers x := inside
    simp only [miss, false_and, false_or, carved, inside, not_false_eq_true, true_and]

end DynaJS.Pieces
