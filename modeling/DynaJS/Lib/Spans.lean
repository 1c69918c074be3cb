import Mathlib.Data.List.TakeWhile
import Mathlib.Tactic

/-! Finite unions of half-open intervals of a linear order, kept as lists of
spans in normal form: increasing, disjoint and never touching. -/
namespace DynaJS.Spans

open List

structure Span (α : Type) where
  lo : α
  hi : α

variable {α : Type} [LinearOrder α]

def Span.points (s : Span α) : Set α := Set.Ico s.lo s.hi

def points (l : List (Span α)) : Set α := {x | ∃ s ∈ l, x ∈ s.points}

variable {s : Span α} {lo hi : α}

@[simp] theorem mem_span {x : α} : x ∈ s.points ↔ s.lo ≤ x ∧ x < s.hi := Iff.rfl

@[simp] theorem points_nil : points ([] : List (Span α)) = ∅ := by simp [points]

@[simp] theorem points_cons (s : Span α) (l : List (Span α)) : points (s :: l) = s.points ∪ points l := by
  ext x; simp [points]

@[simp] theorem points_append (l m : List (Span α)) : points (l ++ m) = points l ∪ points m := by
  ext x
  simp only [points, Set.mem_ofPred_eq, Set.mem_union, mem_append]
  constructor
  · rintro ⟨s, hs | hs, hx⟩
    · exact .inl ⟨s, hs, hx⟩
    · exact .inr ⟨s, hs, hx⟩
  · rintro (⟨s, hs, hx⟩ | ⟨s, hs, hx⟩)
    · exact ⟨s, .inl hs, hx⟩
    · exact ⟨s, .inr hs, hx⟩

/-- Normal form. Between two stored spans there is a point outside the set. -/
structure Normal (l : List (Span α)) : Prop where
  proper : ∀ s ∈ l, s.lo < s.hi
  apart : l.Pairwise fun a b => a.hi < b.lo

theorem normal_nil : Normal ([] : List (Span α)) := ⟨by simp, by simp⟩

theorem normal_append {l m : List (Span α)} :
    Normal (l ++ m) ↔ Normal l ∧ Normal m ∧ ∀ a ∈ l, ∀ b ∈ m, a.hi < b.lo := by
  constructor
  · intro h
    have apart := pairwise_append.mp h.apart
    exact ⟨⟨fun s hs => h.proper s (mem_append_left _ hs), apart.1⟩,
      ⟨fun s hs => h.proper s (mem_append_right _ hs), apart.2.1⟩, apart.2.2⟩
  · rintro ⟨hl, hm, between⟩
    refine ⟨fun s hs => ?_, pairwise_append.mpr ⟨hl.apart, hm.apart, between⟩⟩
    rcases mem_append.mp hs with hs | hs
    · exact hl.proper s hs
    · exact hm.proper s hs

theorem normal_singleton (h : s.lo < s.hi) : Normal [s] := ⟨by simpa, by simp⟩

variable {l : List (Span α)}

theorem normal_cons : Normal (s :: l) ↔ s.lo < s.hi ∧ Normal l ∧ ∀ b ∈ l, s.hi < b.lo := by
  have h := normal_append (l := [s]) (m := l)
  simp only [singleton_append, mem_singleton, forall_eq] at h
  rw [h]
  exact ⟨fun ⟨a, b, c⟩ => ⟨a.proper s (by simp), b, c⟩, fun ⟨a, b, c⟩ => ⟨normal_singleton a, b, c⟩⟩

theorem dropWhile_all {p : Span α → Bool} (hl : Normal l)
    (antitone : ∀ a b : Span α, a.lo < a.hi → a.hi < b.lo → b.lo < b.hi → p b = true → p a = true) :
    ∀ s ∈ l.dropWhile p, p s = false := by
  induction l with
  | nil => simp
  | cons c cs ih =>
    obtain ⟨hc, hcs, above⟩ := normal_cons.mp hl
    by_cases keep : p c = true
    · rw [dropWhile_cons_of_pos keep]
      exact ih hcs
    · rw [dropWhile_cons_of_neg keep]
      intro s hs
      rcases mem_cons.mp hs with rfl | hs
      · simpa using keep
      · by_contra bad
        exact keep (antitone c s hc (above s hs) (hcs.proper s hs) (by simpa using bad))

theorem normal_cut {p : Span α → Bool} (hl : Normal l) : Normal (l.takeWhile p) ∧ Normal (l.dropWhile p) ∧
      ∀ a ∈ l.takeWhile p, ∀ b ∈ l.dropWhile p, a.hi < b.lo := by
  rw [← takeWhile_append_dropWhile (l := l)] at hl
  exact normal_append.mp hl

def absorb (m : Span α) : List (Span α) → Span α × List (Span α)
  | [] => (m, [])
  | c :: cs =>
    if c.lo ≤ m.hi then
      absorb ⟨if c.lo < m.lo then c.lo else m.lo, if m.hi < c.hi then c.hi else m.hi⟩ cs
    else (m, c :: cs)

def addSpan (l : List (Span α)) (lo hi : α) : List (Span α) :=
  let rest := l.dropWhile fun s => s.hi < lo
  (l.takeWhile fun s => s.hi < lo) ++ (absorb ⟨lo, hi⟩ rest).1 :: (absorb ⟨lo, hi⟩ rest).2

/-- What absorbing keeps: the covered points, the lower bounds, and a normal rest
that lies strictly above the widened span. -/
theorem absorb_spec (m : Span α) (l : List (Span α)) (hm : m.lo < m.hi) (hl : Normal l)
    (meets : ∀ s ∈ l, m.lo ≤ s.hi) :
    (absorb m l).1.lo < (absorb m l).1.hi ∧
    Normal ((absorb m l).1 :: (absorb m l).2) ∧
    (absorb m l).1.points ∪ points (absorb m l).2 = m.points ∪ points l ∧
    (∀ y, y < m.lo → (∀ s ∈ l, y < s.lo) → y < (absorb m l).1.lo) := by
  induction l generalizing m with
  | nil => exact ⟨hm, normal_singleton hm, rfl, fun y hy _ => hy⟩
  | cons c cs ih =>
    obtain ⟨hc, hcs, above⟩ := normal_cons.mp hl
    by_cases touch : c.lo ≤ m.hi
    · set w : Span α := ⟨if c.lo < m.lo then c.lo else m.lo, if m.hi < c.hi then c.hi else m.hi⟩ with hw
      have reach : m.lo ≤ c.hi := meets c (by simp)
      have lowM : w.lo ≤ m.lo := by simp only [hw]; split_ifs <;> order
      have highM : m.hi ≤ w.hi := by simp only [hw]; split_ifs <;> order
      have wide : w.lo < w.hi := by order
      have cover : w.points = m.points ∪ c.points := by
        ext x
        simp only [hw, mem_span, Set.mem_union]
        constructor
        · rintro ⟨h₁, h₂⟩
          by_cases inside : m.lo ≤ x ∧ x < m.hi
          · exact .inl inside
          · right
            split_ifs at h₁ h₂ <;> grind
        · rintro (⟨h₁, h₂⟩ | ⟨h₁, h₂⟩)
          · split_ifs <;> constructor <;> order
          · split_ifs <;> constructor <;> order
      have step : absorb m (c :: cs) = absorb w cs := by simp only [absorb, if_pos touch, hw]
      rw [step]
      have rest := ih w wide hcs fun s hs => by
        have := above s hs
        have := hcs.proper s hs
        order
      refine ⟨rest.1, rest.2.1, ?_, fun y hy hs => ?_⟩
      · rw [rest.2.2.1, cover, points_cons, Set.union_assoc]
      · refine rest.2.2.2 y ?_ fun s h => hs s (by simp [h])
        have := hs c (by simp)
        simp only [hw]
        split_ifs <;> order
    · have step : absorb m (c :: cs) = (m, c :: cs) := by simp only [absorb, if_neg touch]
      rw [step]
      refine ⟨hm, normal_cons.mpr ⟨hm, hl, fun s hs => ?_⟩, rfl, fun y hy _ => hy⟩
      rcases mem_cons.mp hs with rfl | hs
      · exact lt_of_not_ge touch
      · have := above s hs
        order

theorem addSpan_spec (hl : Normal l) (h : lo < hi) :
    Normal (addSpan l lo hi) ∧ points (addSpan l lo hi) = points l ∪ Set.Ico lo hi := by
  obtain ⟨front, rest, between⟩ := normal_cut hl
  have reach : ∀ s ∈ l.dropWhile (fun s => decide (s.hi < lo)), lo ≤ s.hi := fun s hs => by
    have := dropWhile_all hl (fun a b _ h₁ h₂ h₃ => by simp at h₃ ⊢; order) s hs
    simpa using this
  have below : ∀ s ∈ l.takeWhile (fun s => decide (s.hi < lo)), s.hi < lo := fun s hs => by
    simpa using mem_takeWhile_imp hs
  have cover := absorb_spec ⟨lo, hi⟩ _ h rest reach
  refine ⟨normal_append.mpr ⟨front, cover.2.1, fun a ha b hb => ?_⟩, ?_⟩
  · have first : a.hi < (absorb ⟨lo, hi⟩ (l.dropWhile fun s => decide (s.hi < lo))).1.lo :=
      cover.2.2.2 a.hi (below a ha) (between a ha)
    rcases mem_cons.mp hb with rfl | hb
    · exact first
    · have := (normal_cons.mp cover.2.1).2.2 b hb
      order
  · have whole : points l = points (l.takeWhile fun s => decide (s.hi < lo)) ∪
        points (l.dropWhile fun s => decide (s.hi < lo)) := by
      rw [← points_append, takeWhile_append_dropWhile]
    simp only [addSpan]
    rw [points_append, points_cons, cover.2.2.1, whole, Set.union_assoc]
    congr 1
    exact Set.union_comm _ _

def keep (lo hi : α) (first last : Span α) : List (Span α) := (if first.lo < lo then [⟨first.lo, lo⟩] else []) ++
    (if hi < last.hi then [⟨hi, last.hi⟩] else [])

def removeSpan (l : List (Span α)) (lo hi : α) : List (Span α) :=
  let rest := l.dropWhile fun s => s.hi ≤ lo
  match (rest.takeWhile fun s => s.lo < hi).head?, (rest.takeWhile fun s => s.lo < hi).getLast? with
  | some first, some last =>
    (l.takeWhile fun s => s.hi ≤ lo) ++ keep lo hi first last ++ rest.dropWhile fun s => s.lo < hi
  | _, _ => l

theorem normal_head {first : Span α} (hl : Normal l)
    (h : l.head? = some first) : ∀ s ∈ l, s = first ∨ first.hi < s.lo := by
  cases l with
  | nil => simp at h
  | cons c cs =>
    cases Option.some.inj h
    intro s hs
    rcases mem_cons.mp hs with same | hs
    · exact .inl same
    · exact .inr ((normal_cons.mp hl).2.2 s hs)

theorem normal_last {last : Span α} (hl : Normal l)
    (h : l.getLast? = some last) : ∀ s ∈ l, s = last ∨ s.hi < last.lo := by
  obtain ⟨init, rfl⟩ := List.getLast?_eq_some_iff.mp h
  intro s hs
  rcases mem_append.mp hs with hs | hs
  · exact .inr ((normal_append.mp hl).2.2 s hs last (by simp))
  · exact .inl (by simpa using hs)

theorem keep_spec {m : List (Span α)} {first last : Span α} (hm : Normal m)
    (order : lo < hi) (meets : ∀ s ∈ m, lo < s.hi ∧ s.lo < hi) (hf : m.head? = some first)
    (hl : m.getLast? = some last) :
    Normal (keep lo hi first last) ∧ points (keep lo hi first last) = points m \ Set.Ico lo hi ∧
    (∀ s ∈ keep lo hi first last, first.lo ≤ s.lo ∧ s.hi ≤ last.hi) := by
  have firstMem : first ∈ m := mem_of_mem_head? hf
  have lastMem : last ∈ m := mem_of_getLast? hl
  have f := meets first firstMem
  have g := meets last lastMem
  refine ⟨?_, ?_, ?_⟩
  · unfold keep
    split_ifs with h₁ h₂ h₂
    · exact normal_cons.mpr ⟨h₁, normal_singleton h₂, by simpa using order⟩
    · exact normal_singleton h₁
    · exact normal_singleton h₂
    · exact normal_nil
  · ext x
    simp only [keep, points_append, Set.mem_union, Set.mem_sdiff, Set.mem_Ico]
    constructor
    · rintro (h | h)
      · split_ifs at h with sticks
        · simp only [points_cons, points_nil, Set.union_empty, mem_span] at h
          exact ⟨⟨first, firstMem, by simp only [mem_span]; constructor <;> order⟩, by order⟩
        · simp at h
      · split_ifs at h with sticks
        · simp only [points_cons, points_nil, Set.union_empty, mem_span] at h
          exact ⟨⟨last, lastMem, by simp only [mem_span]; constructor <;> order⟩, by order⟩
        · simp at h
    · rintro ⟨⟨s, hs, hx⟩, outside⟩
      simp only [mem_span] at hx
      by_cases low : x < lo
      · left
        rcases normal_head hm hf s hs with rfl | less
        · rw [if_pos (by order)]
          simp only [points_cons, points_nil, Set.union_empty, mem_span]
          exact ⟨hx.1, low⟩
        · order
      · right
        have high : hi ≤ x := by
          by_contra inside
          exact outside ⟨not_lt.mp low, not_le.mp inside⟩
        rcases normal_last hm hl s hs with rfl | less
        · rw [if_pos (by order)]
          simp only [points_cons, points_nil, Set.union_empty, mem_span]
          exact ⟨high, hx.2⟩
        · order
  · intro s hs
    unfold keep at hs
    split_ifs at hs with h₁ h₂ h₂
    · rcases mem_cons.mp hs with rfl | hs
      · constructor <;> dsimp only <;> order
      · obtain rfl := mem_singleton.mp hs
        constructor <;> dsimp only <;> order
    · obtain rfl : s = _ := by simpa using hs
      constructor <;> dsimp only <;> order
    · obtain rfl : s = _ := by simpa using hs
      constructor <;> dsimp only <;> order
    · simp at hs

theorem removeSpan_spec (hl : Normal l) (h : lo < hi) :
    Normal (removeSpan l lo hi) ∧ points (removeSpan l lo hi) = points l \ Set.Ico lo hi := by
  obtain ⟨front, tail, between⟩ := normal_cut hl
  have whole : l = l.takeWhile (fun s => decide (s.hi ≤ lo)) ++
      l.dropWhile (fun s => decide (s.hi ≤ lo)) := (takeWhile_append_dropWhile ..).symm
  have below : ∀ s ∈ l.takeWhile (fun s => decide (s.hi ≤ lo)), s.hi ≤ lo := fun s hs => by
    simpa using mem_takeWhile_imp hs
  have reach : ∀ s ∈ l.dropWhile (fun s => decide (s.hi ≤ lo)), lo < s.hi := fun s hs => by
    have := dropWhile_all hl (fun a b _ h₁ h₂ h₃ => by simp at h₃ ⊢; order) s hs
    simpa using this
  simp only [removeSpan]
  generalize l.takeWhile (fun s => decide (s.hi ≤ lo)) = a at *
  generalize l.dropWhile (fun s => decide (s.hi ≤ lo)) = rest at *
  obtain ⟨mid, back, between'⟩ := normal_cut tail
  have split : rest = rest.takeWhile (fun s => decide (s.lo < hi)) ++
      rest.dropWhile (fun s => decide (s.lo < hi)) := (takeWhile_append_dropWhile ..).symm
  have meets : ∀ s ∈ rest.takeWhile (fun s => decide (s.lo < hi)), lo < s.hi ∧ s.lo < hi :=
    fun s hs => ⟨reach s ((takeWhile_sublist _).subset hs), by simpa using mem_takeWhile_imp hs⟩
  have above : ∀ s ∈ rest.dropWhile (fun s => decide (s.lo < hi)), hi ≤ s.lo := fun s hs => by
    have := dropWhile_all tail (fun a b h₀ h₁ h₂ h₃ => by simp at h₃ ⊢; order) s hs
    simpa using this
  generalize rest.takeWhile (fun s => decide (s.lo < hi)) = m at *
  generalize rest.dropWhile (fun s => decide (s.lo < hi)) = b at *
  subst split
  have frontAway : points a \ Set.Ico lo hi = points a := by
    refine sdiff_eq_left.mpr (Set.disjoint_left.mpr ?_)
    rintro x ⟨s, hs, hx⟩ inside
    have := below s hs
    simp only [mem_span] at hx
    exact absurd inside.1 (by order)
  have backAway : points b \ Set.Ico lo hi = points b := by
    refine sdiff_eq_left.mpr (Set.disjoint_left.mpr ?_)
    rintro x ⟨s, hs, hx⟩ inside
    have := above s hs
    simp only [mem_span] at hx
    exact absurd inside.2 (by order)
  have cut : points l \ Set.Ico lo hi = points a ∪ (points m \ Set.Ico lo hi) ∪ points b := by
    rw [whole, points_append, points_append, Set.union_sdiff_distrib, Set.union_sdiff_distrib,
      frontAway, backAway, Set.union_assoc]
  cases hf : m.head? with
  | none =>
    have none : m = [] := by simpa using hf
    subst none
    refine ⟨hl, ?_⟩
    rw [cut, whole]
    simp
  | some first =>
    cases hb : m.getLast? with
    | none => simp_all
    | some last =>
      have kept := keep_spec mid h meets hf hb
      have firstMem : first ∈ m := mem_of_mem_head? hf
      have lastMem : last ∈ m := mem_of_getLast? hb
      refine ⟨normal_append.mpr ⟨normal_append.mpr ⟨front, kept.1, fun s hs t ht => ?_⟩, back,
        fun s hs t ht => ?_⟩, ?_⟩
      · have := between s hs first (mem_append_left _ firstMem)
        have := (kept.2.2 t ht).1
        order
      · rcases mem_append.mp hs with hs | hs
        · exact between s hs t (mem_append_right _ ht)
        · have := between' last lastMem t ht
          have := (kept.2.2 s hs).2
          order
      · rw [points_append, points_append, kept.2.1, cut]

end DynaJS.Spans
