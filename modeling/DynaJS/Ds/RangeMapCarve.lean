import DynaJS.Ds.RangeMap
import Mathlib.Data.List.TakeWhile

/-! `rmap_carve` against the pieces of a partial function: whatever the interval cuts,
the spans stay in order, points off the interval keep their value, points on it lose
theirs, and every value that goes is released. -/
namespace DynaJS.Ds

open Pieces List Gapvec

variable {α C U V : Type} [LinearOrder α]

def vals (l : List (Piece α C)) : List C := l.map (·.val)

/-- A map whose spans fall into those before the interval, those that meet it and
those behind it. -/
structure Layout (m : Rmap α C) (lo hi : α) (pre mid post : List (Piece α C)) : Prop where
  wf : m.Wf
  list : m.toList = pre ++ mid ++ post
  ordered : InOrder (pre ++ mid ++ post)
  before : ∀ c ∈ pre, c.hi ≤ lo
  ends : ∀ c ∈ mid, lo < c.hi
  starts : ∀ c ∈ mid, c.lo < hi
  behind : ∀ c ∈ post, hi ≤ c.lo

variable {m : Rmap α C}

/-- A span that lies within the interval. -/
def Inside (l : List (Piece α C)) (lo hi : α) : Prop := ∃ c ∈ l, lo ≤ c.lo ∧ c.hi ≤ hi

/-- A span that sticks out of the interval on both sides. -/
def Straddled (l : List (Piece α C)) (lo hi : α) : Prop := ∃ c ∈ l, c.lo < lo ∧ hi < c.hi

theorem Layout.meets {lo hi : α} {pre mid post : List (Piece α C)} (lay : Layout m lo hi pre mid post)
    {d : Piece α C} (member : d ∈ m.toList) (ends : lo < d.hi) (starts : d.lo < hi) : d ∈ mid := by
  rw [lay.list] at member
  rcases mem_append.mp member with member | later
  · rcases mem_append.mp member with before | here
    · exact absurd ends (not_lt.mpr (lay.before d before))
    · exact here
  · exact absurd starts (not_lt.mpr (lay.behind d later))

theorem Layout.inside_iff {lo hi : α} {pre mid post : List (Piece α C)} (lay : Layout m lo hi pre mid post) :
    Inside m.toList lo hi ↔ Inside mid lo hi := by
  constructor
  · rintro ⟨d, member, low, high⟩
    have proper := lay.ordered.proper d (lay.list ▸ member)
    exact ⟨d, lay.meets member (low.trans_lt proper) (proper.trans_le high), low, high⟩
  · rintro ⟨d, member, within⟩
    exact ⟨d, by simp [lay.list, member], within⟩

theorem carve_layout (v : m.Valid) (lo hi : α) :
    let i := rmFirstHiAbove m lo
    let j := m.skipWhile (fun c => decide (c.lo < hi)) m.len i
    ∃ pre mid post, Layout m lo hi pre mid post ∧ i = pre.length ∧ j = pre.length + mid.length := by
  intro i j
  have found := rmFirstHiAbove_splits v lo
  have upper : i ≤ m.len := found.upper
  obtain ⟨low, high, front, back⟩ := m.skipWhile_cut (fun c => decide (c.lo < hi)) m.len i upper (by omega)
  have whole : m.toList = m.toList.take i ++ (m.toList.drop i).take (j - i) ++ m.toList.drop j := by
    rw [append_assoc, ← back, ← front, takeWhile_append_dropWhile, take_append_drop]
  have apart := v.ordered
  rw [whole] at apart
  refine ⟨_, _, _, ⟨v.wf, whole, apart, fun c hc => ?_, fun c hc => ?_, fun c hc => ?_, ?_⟩, ?_, ?_⟩
  · obtain ⟨k, hk, rfl⟩ := mem_take_iff_getElem.mp hc
    have := found.before k (Nat.zero_le _) (by omega)
    simpa [toList] using this
  · obtain ⟨k, hk, rfl⟩ := mem_drop_iff_getElem.mp (mem_of_mem_take hc)
    simp only [toList_length] at hk
    have := found.after (i + k) (Nat.le_add_right _ _) (by omega)
    simpa [toList] using this
  · rw [← front] at hc
    simpa using mem_takeWhile_imp hc
  · -- The first span behind starts at or after `hi`, and the others are in order.
    intro c hc
    cases rest : m.toList.drop j with
    | nil => simp [rest] at hc
    | cons d tail =>
      have stop : hi ≤ d.lo := by
        have head := List.head?_dropWhile_not (fun c : Piece α C => decide (c.lo < hi)) (m.toList.drop i)
        rw [back, rest] at head
        simpa using head
      have order := (inOrder_append.mp apart).2.1
      rw [rest] at order hc
      obtain ⟨_, ahead, _⟩ := inOrder_cons.mp order
      rcases mem_cons.mp hc with rfl | hc
      · exact stop
      · have := ahead c hc
        order
  · simp only [length_take, toList_length]
    omega
  · simp only [length_take, length_drop, toList_length]
    omega

variable {lo hi : α} {pre rest post : List (Piece α C)}

theorem Layout.first {c : Piece α C} (lay : Layout m lo hi pre (c :: rest) post) :
    m.toList = pre ++ c :: (rest ++ post) ∧ InOrder (pre ++ c :: (rest ++ post)) ∧ ∀ d ∈ rest ++ post, c.hi ≤ d.lo := by
  have ordered : InOrder (pre ++ c :: (rest ++ post)) := by simpa using lay.ordered
  exact ⟨by simpa using lay.list, ordered, (inOrder_cons.mp (inOrder_append.mp ordered).2.1).2.1⟩

theorem trim_first {f : C → V} {c : Piece α C} (lay : Layout m lo hi pre (c :: rest) post)
    (whole : c.lo < lo → c.hi ≤ hi) :
    let first := (m.gvAt pre.length).lo < lo
    let m' := if first then m.gvPut pre.length { m.gvAt pre.length with hi := lo } else m
    ∃ pre' mid', Layout m' lo hi pre' mid' post ∧ (if first then pre.length + 1 else pre.length) = pre'.length ∧
      pre'.length + mid'.length = pre.length + (c :: rest).length ∧
      (∀ d, d ∈ mid' ↔ d ∈ c :: rest ∧ lo ≤ d.lo) ∧ Agree f lo hi m.toList m'.toList ∧
      vals m'.toList = vals m.toList ∧ m'.cap = m.cap := by
  obtain ⟨list, ordered, ahead⟩ := lay.first
  have here : m.gvAt pre.length = c := gvAt_middle list
  have later : ∀ d ∈ rest, lo ≤ d.lo := fun d hd =>
    (le_of_lt (lay.ends c (by simp))).trans (ahead d (by simp [hd]))
  intro first m'
  by_cases cut : c.lo < lo
  · have first' : first := by simpa only [first, here] using cut
    have list' : m'.toList = pre ++ { c with hi := lo } :: (rest ++ post) := by
      simp only [m', if_pos first', here]
      exact gvPut_middle _ list
    refine ⟨pre ++ [{ c with hi := lo }], rest, ⟨?_, by simpa using list', ?_, ?_, ?_, ?_, ?_⟩, ?_, ?_, ?_, ?_, ?_, ?_⟩
    · simp only [m', if_pos first']
      exact gvPut_wf lay.wf _ _
    · have := ordered.shrink (d := { c with hi := lo }) cut (le_refl _) (le_of_lt (lay.ends c (by simp)))
      simpa using this
    · exact forall_mem_append.mpr ⟨lay.before, by simp⟩
    · exact fun d hd => lay.ends d (by simp [hd])
    · exact fun d hd => lay.starts d (by simp [hd])
    · exact lay.behind
    · simp [if_pos first']
    · simp only [length_append, length_cons, length_nil]; omega
    · refine fun d => ⟨fun hd => ⟨mem_cons_of_mem _ hd, later d hd⟩, fun ⟨hd, low⟩ => (mem_cons.mp hd).resolve_left ?_⟩
      rintro rfl
      exact absurd cut (not_lt.mpr low)
    · rw [list, list']
      exact agree_trim_end _ _ (whole cut) (lay.ends c (by simp))
    · simp [vals, list, list']
    · simp only [m', if_pos first']
      rfl
  · have first' : ¬ first := by simpa only [first, here] using cut
    have same : m' = m := if_neg first'
    rw [same]
    refine ⟨pre, c :: rest, lay, if_neg first', rfl, fun d => (and_iff_left_of_imp fun hd => ?_).symm, Agree.refl _ _ _,
      rfl, rfl⟩
    rcases mem_cons.mp hd with rfl | hd
    · exact not_lt.mp cut
    · exact later d hd

theorem trim_last {f : C → V} {pre mid post : List (Piece α C)} {i j : Nat} (lay : Layout m lo hi pre mid post)
    (begins : ∀ d ∈ mid, lo ≤ d.lo) (hi' : i = pre.length) (hj : j = pre.length + mid.length) :
    let last := i < j ∧ hi < (m.gvAt (j - 1)).hi
    let m' := if last then m.gvPut (j - 1) { m.gvAt (j - 1) with lo := hi } else m
    ∃ mid' post', m'.Wf ∧ m'.toList = pre ++ mid' ++ post' ∧ (if last then j - 1 else j) = pre.length + mid'.length ∧
      InOrder (pre ++ mid' ++ post') ∧ (∀ d, d ∈ mid' ↔ d ∈ mid ∧ d.hi ≤ hi) ∧
      (∀ d ∈ post', hi ≤ d.lo) ∧ Agree f lo hi m.toList m'.toList ∧
      vals m'.toList = vals m.toList ∧ m'.cap = m.cap := by
  intro last m'
  rcases eq_nil_or_concat mid with rfl | ⟨init, c, rfl⟩
  · have last' : ¬ last := fun h => by
      simp at hj
      omega
    have same : m' = m := if_neg last'
    rw [same]
    refine ⟨[], post, lay.wf, lay.list, ?_, lay.ordered, by simp, lay.behind, Agree.refl _ _ _, rfl, rfl⟩
    rw [if_neg last', hj]
  · have size : j = (pre ++ init).length + 1 := by
      simp only [length_append, length_singleton, concat_eq_append] at hj ⊢
      omega
    have list : m.toList = (pre ++ init) ++ c :: post := by simpa using lay.list
    have ordered : InOrder ((pre ++ init) ++ c :: post) := by simpa using lay.ordered
    have at' : j - 1 = (pre ++ init).length := by omega
    have here : m.gvAt (j - 1) = c := by
      rw [at']
      exact gvAt_middle list
    have inside : i < j := by
      simp only [length_append] at size
      omega
    have low : c.lo < hi := lay.starts c (by simp)
    have earlier : ∀ d ∈ init, d.hi ≤ hi := fun d hd => by
      have := (inOrder_append.mp ordered).2.2 d (by simp [hd]) c (by simp)
      order
    by_cases cut : hi < c.hi
    · have last' : last := ⟨inside, by rw [here]; exact cut⟩
      have list' : m'.toList = (pre ++ init) ++ { c with lo := hi } :: post := by
        simp only [m', if_pos last', here]
        rw [at']
        exact gvPut_middle _ list
      refine ⟨init, { c with lo := hi } :: post, ?_, list', ?_, ?_,
        fun d => ⟨fun hd => ⟨by simp [hd], earlier d hd⟩, ?_⟩,
        ?_, ?_, ?_, ?_⟩
      · simp only [m', if_pos last']
        exact gvPut_wf lay.wf _ _
      · rw [if_pos last', at', length_append]
      · exact ordered.shrink (d := { c with lo := hi }) cut (le_of_lt low) (le_refl _)
      · rintro ⟨hd, high⟩
        rw [concat_eq_append, mem_append, mem_singleton] at hd
        refine hd.resolve_right ?_
        rintro rfl
        exact absurd cut (not_lt.mpr high)
      · exact forall_mem_cons.mpr ⟨le_refl _, lay.behind⟩
      · rw [list, list']
        exact agree_trim_start _ _ (begins c (by simp)) low
      · simp [vals, list, list']
      · simp only [m', if_pos last']
        rfl
    · have last' : ¬ last := fun h => cut (by simpa [here] using h.2)
      have same : m' = m := if_neg last'
      rw [same]
      refine ⟨init.concat c, post, lay.wf, lay.list, ?_, lay.ordered, fun d => (and_iff_left_of_imp fun hd => ?_).symm,
        lay.behind, Agree.refl _ _ _, rfl, rfl⟩
      · rw [if_neg last', hj]
      · simp only [concat_eq_append, mem_append, mem_singleton] at hd
        rcases hd with hd | rfl
        · exact earlier d hd
        · exact not_lt.mp cut

/-- What a carving that did not fail has done. It has split a span, or left room for another one,
or only trimmed spans. The values it let go are released in order, unless it copied one for the
second half of a split span. -/
structure Carved (f : C → V) (cb : Callbacks U C) (m : Rmap α C) (lo hi : α) (ud : U)
    (r : Carve α C U) (pre post : List (Piece α C)) : Prop where
  rc : r.rc = 0
  wf : r.map.Wf
  list : r.map.toList = pre ++ post
  pos : r.pos = pre.length
  clear : Clear lo hi pre post
  agree : Agree f lo hi m.toList (pre ++ post)
  room : (r.map.cap = m.cap ∧ r.map.len = m.len + 1 ∧ Straddled m.toList lo hi ∧ ¬ Inside m.toList lo hi) ∨
    (r.map.len < r.map.cap ∧ (m.len = m.cap ∧ Straddled m.toList lo hi ∨ Inside m.toList lo hi)) ∨
    (r.map.cap = m.cap ∧ r.map.len = m.len ∧ ¬ Straddled m.toList lo hi ∧ ¬ Inside m.toList lo hi)
  owned : (∃ gone, r.ud = gone.foldl cb.release ud ∧ (vals m.toList).Perm (vals (pre ++ post) ++ gone)) ∨
    (∃ c ∈ vals m.toList, r.ud = (cb.dup ud c).1 ∧ (vals (pre ++ post)).Perm ((cb.dup ud c).2 :: vals m.toList))

theorem carveTrim_spec {f : C → V} (cb : Callbacks U C) (h : lo < hi) (ud : U) (ok : Bool) {c : Piece α C}
    (lay : Layout m lo hi pre (c :: rest) post) (whole : c.lo < lo → c.hi ≤ hi) :
    ∃ pre' post', Carved f cb m lo hi ud
      (carveTrim cb m lo hi ud ok pre.length (pre.length + (c :: rest).length)) pre' post' := by
  have none : ¬ Straddled m.toList lo hi := by
    rintro ⟨d, member, low, high⟩
    have ends := lay.ends c mem_cons_self
    rcases mem_cons.mp (lay.meets member (by order) (by order)) with rfl | later
    · exact absurd high (not_lt.mpr (whole low))
    · have ahead := lay.first.2.2 d (by simp [later])
      order
  obtain ⟨pre₁, mid₁, lay₁, pos₁, len₁, begins, agree₁, vals₁, cap₁⟩ := trim_first lay whole
  simp only [carveTrim]
  generalize (if (m.gvAt pre.length).lo < lo then
    m.gvPut pre.length { m.gvAt pre.length with hi := lo } else m) = m₁ at *
  rw [pos₁, ← len₁]
  obtain ⟨mid₂, post₂, wf₂, list₂, pos₂, ordered₂, inside, behind, agree₂, vals₂, cap₂⟩ :=
    trim_last lay₁ (fun d hd => ((begins d).mp hd).2) rfl rfl
  generalize hm₂ : (if pre₁.length < pre₁.length + mid₁.length ∧
    hi < (m₁.gvAt (pre₁.length + mid₁.length - 1)).hi then
      m₁.gvPut (pre₁.length + mid₁.length - 1)
        { m₁.gvAt (pre₁.length + mid₁.length - 1) with lo := hi } else m₁) = m₂ at *
  rw [pos₂]
  have clear : Clear lo hi pre₁ post₂ := ⟨ordered₂.delete, lay₁.before, behind⟩
  have agree : Agree f lo hi m.toList (pre₁ ++ post₂) := by
    refine (agree₁.trans agree₂).trans ?_
    rw [list₂]
    exact agree_delete _ _ _ fun d hd => ⟨((begins d).mp ((inside d).mp hd).1).2, ((inside d).mp hd).2⟩
  have within : Inside m.toList lo hi ↔ ∃ d, d ∈ mid₂ := by
    rw [lay.inside_iff]
    refine exists_congr fun d => ?_
    rw [inside, begins]
    tauto
  have size : m₂.len = m.len := by
    have same := congrArg length (vals₂.trans vals₁)
    simpa [vals] using same
  have values : (vals m.toList).Perm (vals (pre₁ ++ post₂) ++ vals mid₂) := by
    rw [← vals₁, ← vals₂, list₂]
    simp only [vals, map_append, append_assoc]
    exact List.Perm.append_left _ perm_append_comm
  refine ⟨pre₁, post₂, ?_⟩
  have slice := slice_middle list₂
  split_ifs with some₂
  · rw [Nat.add_sub_cancel_left]
    have cut : pre₁.length + mid₂.length ≤ m₂.len := by
      rw [← m₂.toList_length, list₂]
      simp
    have done := m₂.splice_spec wf₂ pre₁.length mid₂.length cut rmapSpanSize [] ok
    -- Nothing is inserted, so the vector cannot need to grow.
    have short : ¬ m₂.cap < m₂.len - mid₂.length + ([] : List (Piece α C)).length := by
      have room := wf₂.room
      simp only [length_nil]
      omega
    have spliced : (m₂.splice rmapSpanSize pre₁.length mid₂.length [] ok).2.toList = pre₁ ++ post₂ := by
      have granted : (m₂.splice rmapSpanSize pre₁.length mid₂.length [] ok).1 = 0 := by simp only [splice, if_neg short]
      rcases done.2 with ⟨_, eq⟩ | ⟨rc, _⟩
      · rw [eq, list₂]
        simp [append_assoc]
      · rw [granted] at rc
        contradiction
    have fewer : (pre₁ ++ post₂).length < m₂.cap := by
      have room := wf₂.room
      rw [← m₂.toList_length, list₂] at room
      simp only [length_append] at room ⊢
      omega
    refine ⟨rfl, done.1, spliced, rfl, clear, agree, .inr (.inl ⟨?_, .inr (within.mpr ?_)⟩),
      .inl ⟨vals mid₂, ?_, values⟩⟩
    · rwa [← toList_length, spliced, splice_cap short]
    · exact exists_mem_of_length_pos (by omega)
    have gone : (List.range' pre₁.length mid₂.length).map (fun k => (m₂.gvAt k).val) =
        vals mid₂ := by
      rw [vals, ← slice, map_map]
      simp only [length_map, length_range']
      rfl
    rw [gone]
  · have none₂ : mid₂ = [] := length_eq_zero_iff.mp (by omega)
    subst none₂
    refine ⟨rfl, wf₂, by simpa using list₂, rfl, clear, agree, .inr (.inr ⟨cap₂.trans cap₁, size, none, ?_⟩),
      .inl ⟨[], rfl, ?_⟩⟩
    · rw [within]
      simp
    · simpa [vals] using values

theorem rmapCarve_spec {f : C → V} (cb : Callbacks U C) (same : ∀ ud c, f (cb.dup ud c).2 = f c) (v : m.Valid)
    (h : lo < hi) (ud : U) (ok : Bool) :
    let r := rmapCarve cb m lo hi ud ok
    (∃ pre post, Carved f cb m lo hi ud r pre post) ∨
    (r.rc = -1 ∧ r.map.Wf ∧ r.map.toList = m.toList ∧ (∃ c, r.ud = cb.release (cb.dup ud c).1 (cb.dup ud c).2) ∧
      (ok = false ∨ 2 ^ 31 ≤ m.len) ∧ m.len = m.cap ∧ Straddled m.toList lo hi) := by
  obtain ⟨pre, mid, post, lay, hi', hj⟩ := carve_layout v lo hi
  simp only [rmapCarve]
  rw [hj, hi']
  cases mid with
  | nil =>
    have list : m.toList = pre ++ post := by simpa using lay.list
    refine .inl ⟨pre, post, ?_⟩
    rw [if_pos (by simp)]
    refine ⟨rfl, lay.wf, list, rfl, ⟨by simpa using lay.ordered, lay.before, lay.behind⟩,
      list ▸ Agree.refl _ _ _, .inr (.inr ⟨rfl, rfl, ?_, ?_⟩), .inl ⟨[], rfl, by simp [list]⟩⟩
    · rintro ⟨d, member, low, high⟩
      exact absurd (lay.meets member (by order) (by order)) not_mem_nil
    · rw [lay.inside_iff]
      simp [Inside]
  | cons c rest =>
    rw [if_neg (by simp)]
    obtain ⟨list, ordered, ahead⟩ := lay.first
    have here : m.gvAt pre.length = c := gvAt_middle list
    by_cases split : (m.gvAt pre.length).lo < lo ∧ hi < (m.gvAt (pre.length + (c :: rest).length - 1)).hi ∧
        pre.length + (c :: rest).length - pre.length = 1
    · rw [if_pos split]
      have only : rest = [] := by
        have := split.2.2
        simp only [length_cons] at this
        exact length_eq_zero_iff.mp (by omega)
      subst only
      have starts : c.lo < lo := by simpa [here] using split.1
      have ends : hi < c.hi := by simpa [here] using split.2.1
      simp only [here]
      generalize copied : cb.dup ud c.val = copy
      have agree := agree_split h pre post (w := copy.2) (by rw [← copied]; exact same ud c.val) starts ends
      have cut : pre.length + 1 ≤ m.len := by
        rw [← m.toList_length, list]
        simp
      have done := m.splice_spec lay.wf (pre.length + 1) 0 cut rmapSpanSize [⟨hi, c.hi, copy.2⟩] ok
      have refused := @splice_refused_iff _ m (pre.length + 1) 0 [⟨hi, c.hi, copy.2⟩] lay.wf
        rmapSpanSize ok (by decide) (by decide)
      have kept := @splice_cap _ m (pre.length + 1) 0 [⟨hi, c.hi, copy.2⟩] rmapSpanSize ok
      have across : Straddled m.toList lo hi := ⟨c, by simp [list], starts, ends⟩
      have room := lay.wf.room
      have times := capacity_dvd lay.wf.capacity
      generalize m.splice rmapSpanSize (pre.length + 1) 0 [⟨hi, c.hi, copy.2⟩] ok = r at *
      rcases done.2 with ⟨rc, eq⟩ | ⟨rc, eq⟩
      · rw [rc, if_neg (by decide)]
        have grown : r.2.toList = pre ++ c :: (⟨hi, c.hi, copy.2⟩ :: post) := by
          have cons : m.toList = (pre ++ [c]) ++ post := by simpa using list
          rw [eq, cons, take_left' (by simp)]
          simp
        have first : r.2.gvAt pre.length = c := gvAt_middle grown
        have final : (r.2.gvPut pre.length { r.2.gvAt pre.length with hi := lo }).toList =
            (pre ++ [{ c with hi := lo }]) ++ ⟨hi, c.hi, copy.2⟩ :: post := by
          rw [gvPut_middle _ grown, first]
          simp
        have halves : InOrder ((pre ++ [{ c with hi := lo }]) ++ ⟨hi, c.hi, copy.2⟩ :: post) := by
          have left := ordered.shrink (d := { c with hi := lo }) starts (le_refl _) (le_of_lt (lay.ends c (by simp)))
          refine InOrder.insert (by simpa using left) ends (forall_mem_append.mpr ⟨fun d hd => ?_, ?_⟩) ahead
          · exact (lay.before d hd).trans (le_of_lt h)
          · simpa using le_of_lt h
        refine .inl ⟨pre ++ [{ c with hi := lo }], ⟨hi, c.hi, copy.2⟩ :: post, rfl,
          gvPut_wf done.1 _ _, final, by simp, ⟨halves, ?_, ?_⟩, ?_, ?_, .inr ?_⟩
        · exact forall_mem_append.mpr ⟨lay.before, by simp⟩
        · exact forall_mem_cons.mpr ⟨le_refl _, lay.behind⟩
        · rw [list]
          simpa using agree
        · have size : r.2.len = m.len + 1 := by
            have lengths := congrArg length grown
            rw [toList_length] at lengths
            rw [lengths, ← m.toList_length, list]
            simp only [length_append, length_cons, nil_append]
            omega
          by_cases fits : m.len + 1 ≤ m.cap
          · refine .inl ⟨kept (by simp only [length_singleton]; omega), size, across, ?_⟩
            rw [lay.inside_iff]
            rintro ⟨d, member, low, -⟩
            rw [mem_singleton.mp member] at low
            order
          · have larger := done.1.room
            have times' := capacity_dvd done.1.capacity
            refine .inr (.inl ⟨?_, .inl ⟨by omega, across⟩⟩)
            change r.2.len < r.2.cap
            omega
        · refine ⟨c.val, by simp [vals, list], by rw [copied], ?_⟩
          rw [copied, list]
          simp only [vals, map_append, map_cons, nil_append, append_assoc, cons_append]
          exact (perm_middle.trans (List.Perm.cons _ perm_middle)).trans
            ((List.Perm.swap _ _ _).trans (List.Perm.cons _ perm_middle.symm))
      · rw [rc, if_pos (by decide)]
        obtain ⟨short, cause⟩ := refused.mp rc
        rw [length_singleton] at short cause
        exact .inr ⟨rfl, done.1, eq, ⟨c.val, by rw [copied]⟩, cause.imp id (by omega), by omega, across⟩
    · rw [if_neg split]
      -- A single span that sticks out on both sides would have been split.
      have whole : c.lo < lo → c.hi ≤ hi := by
        intro starts
        cases rest with
        | nil =>
          by_contra long
          exact split ⟨by rw [here]; exact starts, by simpa [here] using long, by simp⟩
        | cons d rest => exact (ahead d (by simp)).trans (le_of_lt (lay.starts d (by simp)))
      exact .inl (carveTrim_spec cb h ud ok lay whole)

end DynaJS.Ds
