import DynaJS.Lib.Search

/-! Association lists in increasing order of their keys. -/
namespace DynaJS.Assoc

open DynaJS.Search List Prod

variable {K V : Type} [LinearOrder K] {cs : List (K × V)} {k : K} {i : Nat}

def Sorted (cs : List (K × V)) : Prop := (cs.map fst).Pairwise (· < ·)

def Writes (cs cs' : List (K × V)) (k : K) (new : Option V) : Prop :=
  ∀ x w, (x, w) ∈ cs' ↔ if x = k then new = some w else (x, w) ∈ cs

theorem insert_sorted (sorted : Sorted cs) (cut : Cut (cs.map fst) k i)
    (new : k ∉ cs.map fst) (v : V) : Sorted (cs.take i ++ (k, v) :: cs.drop i) := by
  have inserted := cut.insert_sorted sorted new
  rw [← map_take, ← map_drop] at inserted
  rw [Sorted, map_append]
  exact inserted

omit [LinearOrder K] in
theorem mem_insert (i : Nat) (c d : K × V) : d ∈ cs.take i ++ c :: cs.drop i ↔ d = c ∨ d ∈ cs := by
  nth_rewrite 3 [← take_append_drop i cs]
  simp only [mem_append, mem_cons]
  tauto

theorem insert_writes (new : k ∉ cs.map fst) (v : V) (i : Nat) :
    Writes cs (cs.take i ++ (k, v) :: cs.drop i) k (some v) := by
  intro x w
  rw [mem_insert, mk.injEq]
  split_ifs with same
  · subst same
    constructor
    · rintro (⟨_, rfl⟩ | old)
      · rfl
      · exact absurd (mem_map_of_mem old) new
    · rintro ⟨⟩
      exact .inl ⟨rfl, rfl⟩
  · simp [same]

omit [LinearOrder K] in
theorem split_at {old : V} (here : cs[i]? = some (k, old)) : cs = cs.take i ++ (k, old) :: cs.drop (i + 1) := by
  obtain ⟨inside, same⟩ := List.getElem?_eq_some_iff.mp here
  rw [← same, ← drop_eq_getElem_cons inside, take_append_drop]

theorem Sorted.around {l₁ l₂ : List (K × V)} {old : V} (sorted : Sorted (l₁ ++ (k, old) :: l₂)) :
    ∀ c ∈ l₁ ++ l₂, c.1 ≠ k := by
  have parts := pairwise_map.mp sorted
  obtain ⟨_, later, cross⟩ := pairwise_append.mp parts
  intro c member
  rcases mem_append.mp member with low | high
  · exact (cross c low (k, old) mem_cons_self).ne
  · exact ((pairwise_cons.mp later).1 c high).ne'

section

variable (sorted : Sorted cs)
include sorted

theorem set_sorted {old : V} (here : cs[i]? = some (k, old)) (v : V) : Sorted (cs.set i (k, v)) := by
  obtain ⟨inside, _⟩ := List.getElem?_eq_some_iff.mp here
  rw [split_at here] at sorted
  rw [set_eq_take_append_cons_drop, if_pos inside]
  simpa [Sorted] using sorted

theorem set_writes {old : V} (here : cs[i]? = some (k, old)) (v : V) : Writes cs (cs.set i (k, v)) k (some v) := by
  obtain ⟨inside, _⟩ := List.getElem?_eq_some_iff.mp here
  have others := (split_at here ▸ sorted).around
  intro x w
  rw [set_eq_take_append_cons_drop, if_pos inside]
  nth_rewrite 3 [split_at here]
  simp only [mem_append, mem_cons, mk.injEq] at others ⊢
  split_ifs with same
  · subst same
    constructor
    · rintro (low | ⟨_, rfl⟩ | high)
      · exact absurd rfl (others _ (.inl low))
      · rfl
      · exact absurd rfl (others _ (.inr high))
    · rintro ⟨⟩
      exact .inr (.inl ⟨rfl, rfl⟩)
  · simp [same]

theorem erase_sorted i : Sorted (cs.eraseIdx i) := sorted.sublist ((eraseIdx_sublist cs i).map _)

theorem erase_writes {old : V} (here : cs[i]? = some (k, old)) : Writes cs (cs.eraseIdx i) k none := by
  have others := (split_at here ▸ sorted).around
  intro x w
  rw [eraseIdx_eq_take_drop_succ]
  nth_rewrite 3 [split_at here]
  simp only [mem_append, mem_cons, mk.injEq] at others ⊢
  split_ifs with same
  · subst same
    simp only [iff_false, not_or]
    exact ⟨fun low => others _ (.inl low) rfl, fun high => others _ (.inr high) rfl⟩
  · simp [same]

theorem Sorted.head_isLeast (y : K) : cs.head?.map fst = some y ↔ IsLeast {x | x ∈ cs.map fst} y := by
  cases cs with
  | nil => simp [IsLeast]
  | cons c cs =>
    have above := (pairwise_cons.mp sorted).1
    have least : IsLeast {x | x ∈ (c :: cs).map fst} c.1 := by
      refine ⟨mem_cons_self, fun x member => ?_⟩
      rcases mem_cons.mp member with rfl | later
      · exact le_rfl
      · exact (above x later).le
    simp only [List.head?_cons, Option.map_some, Option.some.injEq]
    exact ⟨fun same => same ▸ least, fun other => least.unique other⟩

theorem Sorted.last_isGreatest (y : K) : cs.getLast?.map fst = some y ↔ IsGreatest {x | x ∈ cs.map fst} y := by
  cases cs using List.reverseRecOn with
  | nil => simp [IsGreatest]
  | append_singleton cs c =>
    have greatest : IsGreatest {x | x ∈ (cs ++ [c]).map fst} c.1 := by
      rw [Sorted, map_append] at sorted
      have below := (pairwise_append.mp sorted).2.2
      refine ⟨by simp, fun x member => ?_⟩
      rw [Set.mem_ofPred_eq, map_append, mem_append] at member
      rcases member with earlier | last
      · exact (below x earlier c.1 (by simp)).le
      · exact (mem_singleton.mp last).le
    simp only [List.getLast?_concat, Option.map_some, Option.some.injEq]
    exact ⟨fun same => same ▸ greatest, fun other => greatest.unique other⟩

end

end DynaJS.Assoc
