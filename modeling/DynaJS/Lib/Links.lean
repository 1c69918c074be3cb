import DynaJS.Lib.Chain

/-! Singly linked lists of addresses: one link map against the list it links. -/
namespace DynaJS.Links

open Function List

variable {A : Type}

/-- The links of a list whose last element points to `q`. -/
def Seg (next : A → Option A) : List A → Option A → Prop
  | [], _ => True
  | a :: l, q => next a = l.head?.or q ∧ Seg next l q

theorem seg_append (next : A → Option A) (l m : List A) (q : Option A) :
    Seg next (l ++ m) q ↔ Seg next l (m.head?.or q) ∧ Seg next m q := by
  induction l with
  | nil => simp [Seg]
  | cons a l ih =>
    have head : (l ++ m).head?.or q = l.head?.or (m.head?.or q) := by
      cases l <;> simp
    simp only [cons_append, Seg, ih, head, and_assoc]

theorem seg_congr {next next' : A → Option A} {l : List A} {q : Option A}
    (same : ∀ a ∈ l, next' a = next a) : Seg next' l q ↔ Seg next l q := by
  induction l with
  | nil => simp [Seg]
  | cons a l ih =>
    rw [forall_mem_cons] at same
    simp only [Seg, same.1, ih same.2]

theorem seg_chain {next prev : A → Option A} {p q : Option A} {l : List A} (links : Chain.Seg next prev p l q) :
    Seg next l q := by
  induction l generalizing p with
  | nil => trivial
  | cons a l ih => exact ⟨links.2.1, ih links.2.2⟩

structure Linked (next : A → Option A) (l : List A) : Prop where
  nodup : l.Nodup
  links : Seg next l none

section Linked

variable {next : A → Option A} {l l₁ l₂ : List A} {a b p : A}

theorem Linked.congr {next' : A → Option A} (linked : Linked next l)
    (same : ∀ a ∈ l, next' a = next a) : Linked next' l :=
  ⟨linked.nodup, (seg_congr same).mpr linked.links⟩

theorem Linked.next_eq (linked : Linked next (l₁ ++ a :: l₂)) : next a = l₂.head? := by
  have links := ((seg_append ..).mp linked.links).2
  simpa [Seg] using links.1

theorem Linked.suffix (linked : Linked next (l₁ ++ l₂)) : Linked next l₂ :=
  ⟨(nodup_append.mp linked.nodup).2.1, ((seg_append ..).mp linked.links).2⟩

theorem Linked.mem_rest (linked : Linked next (l₁ ++ a :: l₂)) (b : A) :
    b ∈ l₁ ++ l₂ ↔ b ≠ a ∧ b ∈ l₁ ++ a :: l₂ := by
  have out := (nodup_cons.mp (nodup_middle.mp linked.nodup)).1
  simp only [mem_append, mem_cons] at out ⊢
  constructor
  · intro there
    exact ⟨fun same => out (same ▸ there), by tauto⟩
  · tauto

theorem Linked.last_rest [DecidableEq A] (linked : Linked next (l₁ ++ p :: a :: l₂)) {t : A}
    (last : (l₁ ++ p :: a :: l₂).getLast? = some t) :
    (l₁ ++ p :: l₂).getLast? = some (if t = a then p else t) := by
  have cut : Linked next ((l₁ ++ [p]) ++ a :: l₂) := by simpa using linked
  cases l₂ with
  | nil =>
    have here : a = t := by simpa using last
    simp [here]
  | cons b l₂ =>
    have later : (b :: l₂).getLast? = some t := by simpa using last
    have other : t ≠ a := ((cut.mem_rest t).mp (by simp [mem_of_getLast? later])).1
    simpa [other] using later

theorem Linked.nil (next : A → Option A) : Linked next [] := ⟨nodup_nil, trivial⟩

theorem seg_walk (stop : A → Bool) (links : Seg next l none) (fuel : Nat) (enough : l.length < fuel) :
    Chain.walk next stop fuel l.head? = l.find? stop := by
  induction l generalizing fuel with
  | nil => cases fuel <;> rfl
  | cons a l ih =>
    obtain ⟨fuel, rfl⟩ : ∃ f, fuel = f + 1 := ⟨fuel - 1, by omega⟩
    rw [length_cons] at enough
    obtain ⟨after, rest⟩ := links
    rw [Option.or_none] at after
    rw [head?_cons, Chain.walk, find?_cons]
    cases hit : stop a with
    | true => rfl
    | false =>
      simp only [Bool.false_eq_true, if_false, after]
      exact ih rest fuel (by omega)

variable [DecidableEq A]

theorem update_outside {q : Option A} (new : a ∉ l) (member : b ∈ l) : update next a q b = next b :=
  update_of_ne (fun same : b = a => new (same ▸ member)) _ _

theorem Linked.frame (linked : Linked next l) (new : a ∉ l) (q : Option A) : Linked (update next a q) l :=
  linked.congr fun _ member => update_outside new member

theorem Linked.cons (linked : Linked next l) (new : a ∉ l) : Linked (update next a l.head?) (a :: l) := by
  refine ⟨nodup_cons.mpr ⟨new, linked.nodup⟩, ?_, (linked.frame new _).links⟩
  rw [update_self, Option.or_none]

theorem Linked.relink (linked : Linked next (l₁ ++ p :: l₂)) {m : List A} (rest : Linked next m)
    (apart : ∀ a ∈ m, a ∉ l₁ ++ [p]) : Linked (update next p m.head?) (l₁ ++ p :: m) := by
  have nodup : (l₁ ++ [p]).Nodup := (nodup_append.mp (by simpa using linked.nodup)).1
  have outside : p ∉ l₁ := fun member => disjoint_of_nodup_append nodup member (by simp)
  have new : p ∉ m := fun member => apart p member (by simp)
  obtain ⟨_, cons⟩ := rest.cons new
  have front := ((seg_append ..).mp linked.links).1
  refine ⟨?_, (seg_append ..).mpr ⟨(seg_congr fun _ member => update_outside outside member).mpr front, cons⟩⟩
  rw [append_cons]
  exact nodup_append.mpr ⟨nodup, rest.nodup, fun a one b other same => apart b other (same ▸ one)⟩

theorem Linked.concat (linked : Linked next (l ++ [p])) (new : a ∉ l ++ [p]) :
    Linked (update (update next a none) p (some a)) (l ++ [p] ++ [a]) := by
  have single : Linked (update next a none) [a] := (Linked.nil next).cons (by simp)
  have joined := (linked.frame new none).relink single fun b member => by
    rw [mem_singleton.mp member]
    exact new
  simpa using joined

theorem Linked.drop (linked : Linked next (l₁ ++ p :: a :: l₂)) :
    Linked (update next p (next a)) (l₁ ++ p :: l₂) := by
  have whole : l₁ ++ p :: a :: l₂ = (l₁ ++ [p, a]) ++ l₂ := by simp
  have cut : Linked next ((l₁ ++ [p]) ++ a :: l₂) := by simpa using linked
  rw [cut.next_eq]
  refine linked.relink (Linked.suffix (whole ▸ linked)) fun b member there => ?_
  refine disjoint_of_nodup_append (whole ▸ linked.nodup) ?_ member
  simp only [mem_append, mem_cons, not_mem_nil, or_false] at there ⊢
  tauto

theorem Linked.replaceHead (linked : Linked next (a :: l)) (new : b ∉ a :: l) :
    Linked (update next b (next a)) (b :: l) := by
  have cut : Linked next ([] ++ a :: l) := linked
  have rest : Linked next ([a] ++ l) := linked
  rw [cut.next_eq]
  exact rest.suffix.cons fun member => new (mem_cons_of_mem _ member)

theorem Linked.replace (linked : Linked next (l₁ ++ p :: a :: l₂)) (new : b ∉ l₁ ++ p :: a :: l₂) :
    Linked (update (update next b (next a)) p (some b)) (l₁ ++ p :: b :: l₂) := by
  have whole : l₁ ++ p :: a :: l₂ = (l₁ ++ [p]) ++ a :: l₂ := by simp
  have rest : Linked (update next b (next a)) (b :: l₂) :=
    (Linked.suffix (whole ▸ linked)).replaceHead fun member => new (by rw [whole]; simp [member])
  refine (linked.frame new _).relink rest fun c member there => ?_
  rcases mem_cons.mp member with rfl | member
  · exact new (by rw [whole]; simp only [mem_append] at there ⊢; tauto)
  · exact disjoint_of_nodup_append (whole ▸ linked.nodup) there (mem_cons_of_mem _ member)

theorem Linked.walk_before (linked : Linked next l) (member : a ∈ l) (later : l.head? ≠ some a)
    (fuel : Nat) (enough : l.length < fuel) :
    ∃ l₁ p l₂, l = l₁ ++ p :: a :: l₂ ∧ Chain.walk next (fun p => next p == some a) fuel l.head? = some p := by
  obtain ⟨front, l₂, cut⟩ := append_of_mem member
  obtain ⟨l₁, p, rfl⟩ : ∃ l₁ p, front = l₁ ++ [p] := by
    rcases eq_nil_or_concat front with rfl | ⟨l₁, p, h⟩
    · exact absurd (by rw [cut]; rfl) later
    · exact ⟨l₁, p, by rw [h, concat_eq_append]⟩
  have whole : l = l₁ ++ p :: a :: l₂ := by simpa using cut
  refine ⟨l₁, p, l₂, whole, ?_⟩
  rw [seg_walk _ linked.links fuel enough]
  subst whole
  rw [find?_append, find?_eq_none.mpr ?_]
  · simp [linked.next_eq]
  · -- An earlier element points to one before `a`.
    intro b early
    obtain ⟨m₁, m₂, rfl⟩ := append_of_mem early
    rw [append_assoc, cons_append] at linked
    simp only [linked.next_eq, beq_iff_eq]
    intro head
    have inside : a ∈ m₂ ++ [p] := by
      cases m₂ with
      | nil => simp_all
      | cons c m₂ => simp_all
    have nodup := linked.nodup
    rw [show m₁ ++ b :: (m₂ ++ p :: a :: l₂) = (m₁ ++ b :: (m₂ ++ [p])) ++ a :: l₂ by simp] at nodup
    refine disjoint_of_nodup_append nodup (a := a) ?_ (by simp)
    exact mem_append_right _ (mem_cons_of_mem _ inside)

end Linked

/-- The elements the links lead through; `none` when `fuel` of them are not all. -/
def follow (next : A → Option A) : Nat → Option A → Option (List A)
  | _, none => some []
  | 0, some _ => none
  | fuel + 1, some a => (follow next fuel (next a)).map (a :: ·)

theorem seg_follow {next : A → Option A} {l : List A} (links : Seg next l none) (fuel : Nat)
    (enough : l.length ≤ fuel) : follow next fuel l.head? = some l := by
  induction l generalizing fuel with
  | nil => cases fuel <;> rfl
  | cons a l ih =>
    obtain ⟨fuel, rfl⟩ : ∃ f, fuel = f + 1 := ⟨fuel - 1, by rw [length_cons] at enough; omega⟩
    obtain ⟨after, rest⟩ := links
    rw [Option.or_none] at after
    rw [head?_cons, follow, after, ih rest fuel (by rw [length_cons] at enough; omega)]
    rfl

end DynaJS.Links
