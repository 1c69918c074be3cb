import Mathlib.Tactic

/-! Doubly linked lists of addresses: two link maps against the list they link. -/
namespace DynaJS.Chain

open Function List

variable {A : Type}

def Seg (next prev : A → Option A) : Option A → List A → Option A → Prop
  | _, [], _ => True
  | p, a :: l, q => prev a = p ∧ next a = l.head?.or q ∧ Seg next prev (some a) l q

theorem seg_append (next prev : A → Option A) (p q : Option A) (l m : List A) : Seg next prev p (l ++ m) q ↔
      Seg next prev p l (m.head?.or q) ∧ Seg next prev (l.getLast?.or p) m q := by
  induction l generalizing p with
  | nil => simp [Seg]
  | cons a l ih =>
    have head : (l ++ m).head?.or q = l.head?.or (m.head?.or q) := by
      cases l <;> simp
    have last : (a :: l).getLast?.or p = l.getLast?.or (some a) := by
      cases l with
      | nil => rfl
      | cons b l =>
        rfl
    simp only [cons_append, Seg, ih, head, last, and_assoc]

theorem seg_congr {next prev next' prev' : A → Option A} {p q : Option A} {l : List A}
    (sameNext : ∀ a ∈ l, next' a = next a) (samePrev : ∀ a ∈ l, prev' a = prev a) :
    Seg next' prev' p l q ↔ Seg next prev p l q := by
  induction l generalizing p with
  | nil => simp [Seg]
  | cons a l ih =>
    rw [forall_mem_cons] at sameNext samePrev
    simp only [Seg, sameNext.1, samePrev.1, ih sameNext.2 samePrev.2]

theorem seg_reverse (next prev : A → Option A) (p q : Option A) (l : List A) :
    Seg next prev p l q ↔ Seg prev next q l.reverse p := by
  induction l generalizing p with
  | nil => simp [Seg]
  | cons a l ih =>
    rw [reverse_cons, seg_append]
    simp only [Seg, ih, List.head?_cons, List.head?_nil, Option.some_or, Option.none_or, and_true,
      List.getLast?_reverse]
    tauto

structure Linked (next prev : A → Option A) (l : List A) : Prop where
  nodup : l.Nodup
  links : Seg next prev none l none

section Linked

variable {next prev : A → Option A} {l l₁ l₂ : List A} {a : A}

theorem Linked.reverse (linked : Linked next prev l) : Linked prev next l.reverse :=
  ⟨nodup_reverse.mpr linked.nodup, (seg_reverse ..).mp linked.links⟩

section

variable (linked : Linked next prev (l₁ ++ a :: l₂))
include linked

theorem Linked.next_eq : next a = l₂.head? := by
  have links := ((seg_append ..).mp linked.links).2
  simpa [Seg] using links.2.1

theorem Linked.prev_eq : prev a = l₁.getLast? := by
  have links := ((seg_append ..).mp linked.links).2
  simpa [Seg] using links.1

theorem Linked.insert [DecidableEq A] {b : A}
    (new : b ∉ l₁ ++ a :: l₂) {prev' : A → Option A} (ofB : prev' b = some a)
    (ofHead : ∀ c, l₂.head? = some c → prev' c = some b)
    (others : ∀ c, c ≠ b → l₂.head? ≠ some c → prev' c = prev c) :
    Linked (update (update next b (next a)) a (some b)) prev' (l₁ ++ a :: b :: l₂) := by
  have after := linked.next_eq
  obtain ⟨nodup, links⟩ := linked
  simp only [mem_append, mem_cons, not_or] at new
  obtain ⟨out₁, ne, out₂⟩ := new
  obtain ⟨nodup₁, nodup₂, apart⟩ := nodup_append.mp nodup
  obtain ⟨a₂, nodup₂⟩ := nodup_cons.mp nodup₂
  obtain ⟨left, right⟩ := (seg_append ..).mp links
  have a₁ : ∀ c ∈ l₁, c ≠ a := fun c member => apart c member a mem_cons_self
  have b₁ : ∀ c ∈ l₁, c ≠ b := fun c member same => out₁ (same ▸ member)
  have head₁ : ∀ c ∈ l₁, l₂.head? ≠ some c := fun c member head =>
    apart c member c (mem_cons_of_mem _ (mem_of_mem_head? head)) rfl
  refine ⟨?_, (seg_append ..).mpr ⟨?_, ?_⟩⟩
  · rw [nodup_append]
    refine ⟨nodup₁, nodup_cons.mpr ⟨?_, nodup_cons.mpr ⟨out₂, nodup₂⟩⟩, ?_⟩
    · simp only [mem_cons, not_or]
      exact ⟨fun same => ne same.symm, a₂⟩
    · intro c member d other
      rcases mem_cons.mp other with rfl | other
      · exact a₁ c member
      · rcases mem_cons.mp other with rfl | other
        · exact b₁ c member
        · exact apart c member d (mem_cons_of_mem _ other)
  · refine (seg_congr (fun c member => ?_) fun c member => ?_).mpr left
    · rw [update_of_ne (a₁ c member), update_of_ne (b₁ c member)]
    · exact others c (b₁ c member) (head₁ c member)
  · simp only [Seg] at right ⊢
    have headA : l₂.head? ≠ some a := fun head => a₂ (mem_of_mem_head? head)
    refine ⟨?_, ?_, ofB, ?_, ?_⟩
    · rw [others a (fun same => ne same.symm) headA]
      exact right.1
    · simp
    · rw [update_of_ne ne, update_self, after, Option.or_none]
    · have rest := right.2.2
      cases l₂ with
      | nil => trivial
      | cons c l₃ =>
        simp only [mem_cons, not_or] at out₂ a₂
        have tail : ∀ d ∈ l₃, d ≠ c := fun d member same =>
          (nodup_cons.mp nodup₂).1 (same ▸ member)
        have tailA : ∀ d ∈ l₃, d ≠ a := fun d member same => a₂.2 (same ▸ member)
        have tailB : ∀ d ∈ l₃, d ≠ b := fun d member same => out₂.2 (same ▸ member)
        refine ⟨ofHead c rfl, ?_, (seg_congr (fun d member => ?_) fun d member => ?_).mpr rest.2.2⟩
        · rw [update_of_ne fun same => a₂.1 same.symm, update_of_ne fun same => out₂.1 same.symm]
          exact rest.2.1
        · rw [update_of_ne (tailA d member), update_of_ne (tailB d member)]
        · refine others d (tailB d member) fun head => ?_
          exact tail d member (Option.some.inj head).symm

end

end Linked

def walk (next : A → Option A) (stop : A → Bool) : Nat → Option A → Option A
  | 0, _ => none
  | _ + 1, none => none
  | fuel + 1, some a => if stop a then some a else walk next stop fuel (next a)

end DynaJS.Chain
