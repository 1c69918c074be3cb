import DynaJS.Ds.RangeSetOps

/-! The complement, and whole runs of the range set against a set of points. -/
namespace DynaJS.Ds

open Spans Nat Set

variable {α : Type} [LinearOrder α]

variable {s : Rset α}

variable {lo hi cur top : α} {i : Nat} {out : Rset α}

theorem rsetAdd_refused (v : s.Valid) {ok : Bool}
    (failed : (rsetAdd s lo hi ok).1 = -1) : ok = false ∨ 2 ^ 31 ≤ s.len := by
  by_cases h : lo < hi
  · simp only [rsetAdd, not_not.mpr h, if_false] at failed
    rcases ((Gapvec.splice_refused_iff v.wf (by decide) (by decide)).mp failed).2 with refused | large
    · exact .inl refused
    · simp only [List.length_singleton] at large
      exact .inr (by omega)
  · simp [rsetAdd, h] at failed

theorem rsetAdd_len_le (s : Rset α) (lo hi : α) (ok : Bool) : (rsetAdd s lo hi ok).2.len ≤ s.len + 1 := by
  simp only [rsetAdd]
  split_ifs
  · exact Gapvec.splice_len_le ..
  · exact le_succ _

theorem rsetRemove_refused (v : s.Valid) {ok : Bool}
    (failed : (rsetRemove s lo hi ok).1 = -1) : ok = false ∨ 2 ^ 31 ≤ s.len := by
  by_cases h : lo < hi
  · have upper : rsetLower s lo ≤ s.len := (rsFirstHi_splits v lo true).upper
    have loop := removeLoop_cut s hi s.len (rsetLower s lo) upper (by omega)
    simp only [rsetRemove, not_not.mpr h, if_false] at failed
    by_cases none : removeLoop s hi s.len (rsetLower s lo) = rsetLower s lo
    · rw [if_pos none] at failed
      simp at failed
    rw [if_neg none] at failed
    rcases ((Gapvec.splice_refused_iff v.wf (by decide) (by decide)).mp failed).2 with refused | large
    · exact .inl refused
    · refine .inr ?_
      have pieces : ∀ (a b : List (Span α)), a.length ≤ 1 → b.length ≤ 1 →
          (a ++ b).length ≤ 2 := fun a b h₁ h₂ => by simp only [List.length_append]; omega
      have few := pieces (if (s.gvAt (rsetLower s lo)).lo < lo then [⟨(s.gvAt (rsetLower s lo)).lo, lo⟩] else [])
        (if hi < (s.gvAt (removeLoop s hi s.len (rsetLower s lo) - 1)).hi then
          [⟨hi, (s.gvAt (removeLoop s hi s.len (rsetLower s lo) - 1)).hi⟩] else [])
        (by split_ifs <;> simp) (by split_ifs <;> simp)
      omega
  · simp [rsetRemove, h] at failed

def Below (s : Rset α) (lo hi cur : α) : Set α := {x | lo ≤ x ∧ x < hi ∧ x < cur ∧ x ∉ points s.toList}

/-- What `dyn_rset_complement` knows before span `i`: the output holds the gaps
below the cursor, and the spans already passed end at or before it. -/
structure Progress (s : Rset α) (lo hi : α) (i : Nat) (cur : α) (out : Rset α) : Prop where
  valid : out.Valid
  start : lo ≤ cur
  gaps : points out.toList = Below s lo hi cur
  passed : ∀ k, k < i → (s.gvAt k).hi ≤ cur
  size : out.len ≤ i

theorem gap_free (v : s.Valid)
    (passed : ∀ k, k < i → (s.gvAt k).hi ≤ cur) (ahead : i < s.len → top ≤ (s.gvAt i).lo) {x : α}
    (h₁ : cur ≤ x) (h₂ : x < top) : x ∉ points s.toList := by
  intro member
  obtain ⟨k, hk, low, high⟩ := mem_points_iff.mp member
  rcases lt_trichotomy k i with before | rfl | behind
  · have := passed k before
    order
  · have := ahead hk
    order
  · have := ahead (by omega)
    have := valid_apart v behind hk
    have := valid_proper v (by omega : i < s.len)
    order

theorem below_grow (start : lo ≤ cur) (less : cur ≤ top) (bound : top ≤ hi)
    (free : ∀ x, cur ≤ x → x < top → x ∉ points s.toList) : Below s lo hi cur ∪ Ico cur top = Below s lo hi top := by
  ext x
  constructor
  · rintro (⟨h₁, h₂, h₃, h₄⟩ | ⟨h₁, h₂⟩)
    · exact ⟨h₁, h₂, by order, h₄⟩
    · exact ⟨by order, by order, h₂, free x h₁ h₂⟩
  · rintro ⟨h₁, h₂, h₃, h₄⟩
    by_cases low : x < cur
    · exact .inl ⟨h₁, h₂, low, h₄⟩
    · exact .inr ⟨not_lt.mp low, h₃⟩

theorem below_span (less : cur ≤ top)
    (inside : ∀ x, cur ≤ x → x < top → x ∈ points s.toList) : Below s lo hi cur = Below s lo hi top := by
  ext x
  refine and_congr_right fun _ => and_congr_right fun _ => and_congr_left fun outside =>
    ⟨fun h => by order, fun h => ?_⟩
  by_contra high
  exact outside (inside x (not_lt.mp high) h)

/-- One pass over a span: fill the gap before it and move the cursor to its end. -/
theorem progress_step (v : s.Valid) (ok : Bool) (p : Progress s lo hi i cur out) (hi' : i < s.len)
    (ends : cur < (s.gvAt i).hi) (starts : (s.gvAt i).lo < hi) (added : Int × Rset α)
    (eq : added = if cur < (s.gvAt i).lo then rsetAdd out cur (s.gvAt i).lo ok else (0, out)) :
    (added.1 = 0 ∧ Progress s lo hi (i + 1) (s.gvAt i).hi added.2) ∨
      (added.1 = -1 ∧ (ok = false ∨ 2 ^ 31 ≤ out.len)) := by
  have proper := valid_proper v hi'
  have inside : ∀ x, (s.gvAt i).lo ≤ x → x < (s.gvAt i).hi → x ∈ points s.toList :=
    fun x h₁ h₂ => mem_points_iff.mpr ⟨i, hi', h₁, h₂⟩
  have passed : ∀ k, k < i + 1 → (s.gvAt k).hi ≤ (s.gvAt i).hi := fun k hk => by
    rcases eq_or_lt_of_le (le_of_lt_succ hk) with rfl | less
    · exact le_refl _
    · exact (p.passed k less).trans (le_of_lt ends)
  have free := fun x => gap_free v (x := x) p.passed fun _ => le_refl (s.gvAt i).lo
  have start := p.start
  split_ifs at eq with gap
  · subst eq
    have step := rsetAdd_step p.valid cur (s.gvAt i).lo ok
    rcases step.2 with ⟨rc, eq⟩ | ⟨rc, _⟩
    · refine .inl ⟨rc, step.1, by order, ?_, passed, ?_⟩
      · rw [eq, p.gaps, below_grow start (le_of_lt gap) (le_of_lt starts) free, below_span (le_of_lt proper) inside]
      · have := rsetAdd_len_le out cur (s.gvAt i).lo ok
        have := p.size
        omega
    · exact .inr ⟨rc, rsetAdd_refused p.valid rc⟩
  · subst eq
    refine .inl ⟨rfl, p.valid, by order, ?_, passed, le_succ_of_le p.size⟩
    rw [p.gaps, below_span (le_of_lt ends) fun x h => inside x (by order)]

/-- After the loop: the gaps below the cursor are stored, and nothing between the
cursor and `hi` is in the set. -/
structure Stopped (s : Rset α) (lo hi cur : α) (out : Rset α) : Prop where
  valid : out.Valid
  start : lo ≤ cur
  gaps : points out.toList = Below s lo hi cur
  clear : ∀ x, cur ≤ x → x < hi → x ∉ points s.toList
  size : out.len ≤ s.len

theorem Progress.stopped (v : s.Valid) (p : Progress s lo hi i cur out)
    (bound : i ≤ s.len) (ahead : i < s.len → hi ≤ (s.gvAt i).lo) : Stopped s lo hi cur out :=
  ⟨p.valid, p.start, p.gaps, fun _ h₁ h₂ => gap_free v p.passed ahead h₁ h₂, p.size.trans bound⟩

theorem complementLoop_spec (v : s.Valid) (ok : Nat → Bool)
    (fuel i : Nat) (cur : α) (out : Rset α) (p : Progress s lo hi i cur out)
    (bound : i ≤ s.len) (enough : s.len - i ≤ fuel) (r : Int × α × Rset α)
    (eq : r = complementLoop s hi ok fuel i cur out) :
    (r.1 = 0 ∧ Stopped s lo hi r.2.1 r.2.2) ∨ (r.1 = -1 ∧ ((∃ k, ok k = false) ∨ 2 ^ 31 ≤ s.len)) := by
  induction fuel generalizing i cur out with
  | zero =>
    subst eq
    exact .inl ⟨rfl, p.stopped v bound (by omega)⟩
  | succ fuel ih =>
    simp only [complementLoop] at eq
    by_cases inside : i < s.len
    · rw [if_pos inside] at eq
      by_cases skip : (s.gvAt i).hi ≤ cur
      · rw [if_pos skip] at eq
        have q : Progress s lo hi (i + 1) cur out := by
          refine ⟨p.valid, p.start, p.gaps, fun k hk => ?_, le_succ_of_le p.size⟩
          rcases eq_or_lt_of_le (le_of_lt_succ hk) with rfl | less
          · exact skip
          · exact p.passed k less
        exact ih (i + 1) cur out q inside (by omega) eq
      · rw [if_neg skip] at eq
        by_cases beyond : hi ≤ (s.gvAt i).lo
        · rw [if_pos beyond] at eq
          subst eq
          exact .inl ⟨rfl, p.stopped v bound fun _ => beyond⟩
        · rw [if_neg beyond] at eq
          have moved : (if cur < (s.gvAt i).hi then (s.gvAt i).hi else cur) = (s.gvAt i).hi := if_pos (not_le.mp skip)
          rw [moved] at eq
          rcases progress_step v (ok i) p inside (not_le.mp skip) (not_le.mp beyond) _ rfl with
            ⟨rc, q⟩ | ⟨rc, refused⟩
          · rw [rc, if_neg (by decide)] at eq
            by_cases full : hi ≤ (s.gvAt i).hi
            · rw [if_pos full] at eq
              subst eq
              exact .inl ⟨rfl, q.valid, q.start, q.gaps, fun x h₁ h₂ => by order, q.size.trans inside⟩
            · rw [if_neg full] at eq
              exact ih (i + 1) _ _ q inside (by omega) eq
          · rw [rc] at eq
            subst eq
            refine .inr ⟨rfl, ?_⟩
            rcases refused with refused | large
            · exact .inl ⟨i, refused⟩
            · exact .inr (large.trans (p.size.trans bound))
    · rw [if_neg inside] at eq
      subst eq
      exact .inl ⟨rfl, p.stopped v bound fun h => absurd h inside⟩

theorem below_all (h : hi ≤ cur) : Below s lo hi cur = Ico lo hi \ points s.toList := by
  ext x
  exact ⟨fun ⟨h₁, h₂, _, h₃⟩ => ⟨⟨h₁, h₂⟩, h₃⟩, fun ⟨⟨h₁, h₂⟩, h₃⟩ => ⟨h₁, h₂, h₂.trans_le h, h₃⟩⟩

theorem rsetComplement_spec (v : s.Valid) (lo hi : α) (wf : out.Wf) (ok : Nat → Bool) :
    ((rsetComplement s lo hi out ok).1 = 0 ∧ (rsetComplement s lo hi out ok).2.Valid ∧
      points (rsetComplement s lo hi out ok).2.toList = Set.Ico lo hi \ points s.toList) ∨
    ((rsetComplement s lo hi out ok).1 = -1 ∧ ((∃ k, ok k = false) ∨ 2 ^ 31 ≤ s.len)) := by
  have cleared := rsetClear_valid wf
  have empty : points (rsetClear out).toList = ∅ := points_nil
  by_cases h : lo < hi
  · simp only [rsetComplement, not_not.mpr h, if_false]
    have first : Progress s lo hi 0 lo (rsetClear out) := by
      refine ⟨cleared, le_refl _, ?_, nofun, zero_le _⟩
      rw [empty, eq_comm, eq_empty_iff_forall_notMem]
      rintro x ⟨h₁, _, h₂, _⟩
      order
    rcases complementLoop_spec v ok s.len 0 lo (rsetClear out) first (zero_le _) (by omega)
      _ rfl with ⟨rc, stop⟩ | ⟨rc, refused⟩
    · rw [rc, if_neg (by decide)]
      generalize (complementLoop s hi ok s.len 0 lo (rsetClear out)).2.1 = cur at *
      split_ifs with more
      · have step := rsetAdd_step stop.valid cur hi (ok s.len)
        rcases step.2 with ⟨rc', eq⟩ | ⟨rc', _⟩
        · refine .inl ⟨rc', step.1, ?_⟩
          rw [eq, stop.gaps, below_grow stop.start (le_of_lt more) (le_refl _) stop.clear, below_all (le_refl _)]
        · refine .inr ⟨rc', ?_⟩
          rcases rsetAdd_refused stop.valid rc' with refused | large
          · exact .inl ⟨_, refused⟩
          · exact .inr (large.trans stop.size)
      · refine .inl ⟨rfl, stop.valid, ?_⟩
        rw [stop.gaps, below_all (not_lt.mp more)]
    · rw [rc]
      exact .inr ⟨rfl, refused⟩
  · simp only [rsetComplement, if_pos h]
    exact .inl ⟨trivial, cleared, by rw [empty, Set.Ico_eq_empty h, empty_sdiff]⟩

inductive RsetOp (α : Type) where
  | add (lo hi : α) (ok : Bool)
  | remove (lo hi : α) (ok : Bool)

def RsetOp.granted : RsetOp α → Bool
  | .add _ _ ok => ok
  | .remove _ _ ok => ok

def RsetOp.exec (s : Rset α) : RsetOp α → Int × Rset α
  | .add lo hi ok => rsetAdd s lo hi ok
  | .remove lo hi ok => rsetRemove s lo hi ok

def RsetOp.denote (points : Set α) : RsetOp α → Set α
  | .add lo hi _ => points ∪ Set.Ico lo hi
  | .remove lo hi _ => points \ Set.Ico lo hi

/-- One call on the code and on the set side by side. A call that returns -1 stands
for no set operation. -/
def rsetStep (state : Rset α × Set α) (op : RsetOp α) : Rset α × Set α :=
  ((op.exec state.1).2, if (op.exec state.1).1 = 0 then op.denote state.2 else state.2)

def rsetRun (memory : Nat → Span α) (ops : List (RsetOp α)) : Rset α × Set α := ops.foldl rsetStep (rsetNew memory, ∅)

theorem rsetOp_step (v : s.Valid) (op : RsetOp α) : (op.exec s).2.Valid ∧
    (((op.exec s).1 = 0 ∧ points (op.exec s).2.toList = op.denote (points s.toList)) ∨
      ((op.exec s).1 = -1 ∧ (op.exec s).2.toList = s.toList ∧ (op.granted = false ∨ 2 ^ 31 ≤ s.len))) := by
  cases op with
  | add lo hi ok =>
    have step := rsetAdd_step v lo hi ok
    exact ⟨step.1, step.2.imp id fun h => ⟨h.1, h.2, rsetAdd_refused v h.1⟩⟩
  | remove lo hi ok =>
    have step := rsetRemove_step v lo hi ok
    exact ⟨step.1, step.2.imp id fun h => ⟨h.1, h.2, rsetRemove_refused v h.1⟩⟩

theorem rsetRun_valid (memory : Nat → Span α) (ops : List (RsetOp α)) :
    (rsetRun memory ops).1.Valid ∧ points (rsetRun memory ops).1.toList = (rsetRun memory ops).2 := by
  have initial : points (rsetNew memory).toList = ∅ := points_nil
  refine List.foldlRecOn (motive := fun state : Rset α × Set α =>
    state.1.Valid ∧ points state.1.toList = state.2) ops rsetStep
    ⟨rsetNew_valid memory, initial⟩ ?_
  rintro state ⟨v, same⟩ op _
  have step := rsetOp_step v op
  refine ⟨step.1, ?_⟩
  rcases step.2 with ⟨rc, eq⟩ | ⟨rc, eq, _⟩
  · simp only [rsetStep, rc, if_true, eq, same]
  · simp only [rsetStep, rc, eq, same]
    simp

end DynaJS.Ds
