import DynaJS.Ds.Reserve
import DynaJS.Lib.Search

/-! The gap vector of `dyn-ds.c`, the storage of the range set and the range map.
A vector holds `len` elements in `cap` physical slots; the unused slots form one
gap that starts at `gs`. Slots of the gap hold whatever was last written there. -/
namespace DynaJS.Ds

open List Nat

structure Gapvec (α : Type) where
  p : Nat → α
  len : Nat
  cap : Nat
  gs : Nat

namespace Gapvec

variable {α : Type}

variable (g : Gapvec α)

def gvAt (i : Nat) : α := g.p (if i < g.gs then i else i + (g.cap - g.len))

def memmove (p : Nat → α) (dst src n : Nat) : Nat → α :=
  fun k => if dst ≤ k ∧ k < dst + n then p (k - dst + src) else p k

def moveGap (pos : Nat) : Gapvec α :=
  let gap := g.cap - g.len
  if gap ≠ 0 ∧ pos < g.gs then
    { g with p := memmove g.p (pos + gap) pos (g.gs - pos), gs := pos }
  else if gap ≠ 0 ∧ g.gs < pos then
    { g with p := memmove g.p g.gs (g.gs + gap) (pos - g.gs), gs := pos }
  else { g with gs := pos }

def memcpy (p : Nat → α) (dst : Nat) (ins : List α) : Nat → α :=
  fun k => if dst ≤ k then ins.getD (k - dst) (p k) else p k

/-- `gv_splice` after its growth check: open the gap at `pos`, let it swallow
`ndel` elements and write the new ones at its start. -/
def replaceAt (pos ndel : Nat) (ins : List α) : Gapvec α :=
  let g := g.moveGap pos
  { p := memcpy g.p g.gs ins, len := g.len - ndel + ins.length, cap := g.cap,
    gs := g.gs + ins.length }

/-- `gv_splice`: the return code and the vector it leaves. A failed growth has
already moved the gap to the end. -/
def splice (esz pos ndel : Nat) (ins : List α) (ok : Bool) : Int × Gapvec α :=
  let need := g.len - ndel + ins.length
  if g.cap < need then
    let g := g.moveGap g.len
    match dsReserve g.cap need esz ok with
    | none => (-1, g)
    | some c => (0, { g with cap := c }.replaceAt pos ndel ins)
  else (0, g.replaceAt pos ndel ins)

def gvPut (i : Nat) (x : α) : Gapvec α :=
  { g with p := Function.update g.p (if i < g.gs then i else i + (g.cap - g.len)) x }

/-- The binary search of the two range containers. The side of the gap is chosen by
the last element before it, and the other side is searched as one array. -/
def firstWhere (test : α → Bool) : Nat :=
  if 0 < g.gs ∧ test (g.p (g.gs - 1)) = true then
    Search.lowerBound (fun i => test (g.p i)) 0 (g.gs - 1)
  else
    Search.lowerBound (fun i => test (g.p (i + (g.cap - g.len)))) g.gs g.len

def skipWhile (g : Gapvec α) (test : α → Bool) : Nat → Nat → Nat
  | 0, j => j
  | fuel + 1, j => if j < g.len ∧ test (g.gvAt j) = true then skipWhile g test fuel (j + 1) else j

def toList : List α := (List.range g.len).map g.gvAt

structure Wf (g : Gapvec α) : Prop where
  gap : g.gs ≤ g.len
  room : g.len ≤ g.cap
  capacity : Capacity g.cap

@[simp] theorem toList_length (g : Gapvec α) : g.toList.length = g.len := by simp [toList]

theorem toList_getElem? (i : Nat) : g.toList[i]? = if i < g.len then some (g.gvAt i) else none := by
  by_cases inside : i < g.len
  · simp [toList, inside]
  · simp [toList, inside]

variable {g : Gapvec α}

theorem gvAt_mem {i : Nat} (h : i < g.len) : g.gvAt i ∈ g.toList := mem_map.mpr ⟨i, mem_range.mpr h, rfl⟩

theorem drop_toList {j : Nat} (h : j < g.len) : g.toList.drop j = g.gvAt j :: g.toList.drop (j + 1) := by
  rw [drop_eq_getElem_cons (by simpa using h)]
  simp [toList]

@[simp] theorem moveGap_len (g : Gapvec α) (pos : Nat) : (g.moveGap pos).len = g.len := by
  simp only [moveGap]; split_ifs <;> rfl

@[simp] theorem moveGap_cap (g : Gapvec α) (pos : Nat) : (g.moveGap pos).cap = g.cap := by
  simp only [moveGap]; split_ifs <;> rfl

@[simp] theorem moveGap_gs (g : Gapvec α) (pos : Nat) : (g.moveGap pos).gs = pos := by
  simp only [moveGap]; split_ifs <;> rfl

theorem moveGap_gvAt (pos i : Nat) : (g.moveGap pos).gvAt i = g.gvAt i := by
  simp only [moveGap]
  split_ifs
  · simp only [gvAt, memmove]
    split_ifs <;> first | omega | rfl | (congr 1; omega)
  · simp only [gvAt, memmove]
    split_ifs <;> first | omega | rfl | (congr 1; omega)
  · simp only [gvAt]
    congr 1
    split_ifs <;> omega

variable {pos ndel : Nat} {pre post : List α}

theorem moveGap_wf (wf : g.Wf) (hp : pos ≤ g.len) : (g.moveGap pos).Wf :=
  ⟨by simpa using hp, by simpa using wf.room, by simpa using wf.capacity⟩

theorem moveGap_toList (pos : Nat) : (g.moveGap pos).toList = g.toList := by
  simp only [toList, moveGap_len]
  exact map_congr_left fun i _ => moveGap_gvAt pos i

variable {ins : List α}

theorem replaceAt_wf (wf : g.Wf) (hp : pos + ndel ≤ g.len) (fits : g.len - ndel + ins.length ≤ g.cap) :
    (g.replaceAt pos ndel ins).Wf := by
  refine ⟨?_, ?_, ?_⟩
  · simp only [replaceAt, moveGap_gs, moveGap_len]; omega
  · simpa only [replaceAt, moveGap_len, moveGap_cap] using fits
  · simpa only [replaceAt, moveGap_cap] using wf.capacity

/-- Slots before the gap come from the old prefix, the gap start holds the new
elements, and the slots behind the gap are the old suffix. -/
theorem replaceAt_gvAt (wf : g.Wf) (hp : pos + ndel ≤ g.len) (fits : g.len - ndel + ins.length ≤ g.cap) (i : Nat) :
    (g.replaceAt pos ndel ins).gvAt i =
      if i < pos then g.gvAt i
      else ins.getD (i - pos) (g.gvAt (i + ndel - ins.length)) := by
  have room := wf.room
  split_ifs with low
  · rw [← moveGap_gvAt (g := g) pos i]
    simp only [replaceAt, gvAt, moveGap_gs, moveGap_len, moveGap_cap, memcpy]
    rw [if_pos (by omega : i < pos + ins.length), if_pos low, if_neg (by omega)]
  by_cases new : i - pos < ins.length
  · simp only [replaceAt, gvAt, moveGap_gs, moveGap_len, moveGap_cap, memcpy]
    rw [if_pos (by omega : i < pos + ins.length), if_pos (by omega)]
    simp [getD_eq_getElem?_getD, getElem?_eq_getElem new]
  · have behind : ins.getD (i - pos) (g.gvAt (i + ndel - ins.length)) = g.gvAt (i + ndel - ins.length) := by
      simp [getD_eq_getElem?_getD, getElem?_eq_none (Nat.le_of_not_lt new)]
    rw [behind, ← moveGap_gvAt pos (i + ndel - ins.length)]
    simp only [replaceAt, gvAt, moveGap_gs, moveGap_len, moveGap_cap, memcpy]
    rw [if_neg (by omega : ¬ i < pos + ins.length), if_pos (by omega), if_neg (by omega),
      getD_eq_getElem?_getD, getElem?_eq_none (by omega), Option.getD_none]
    congr 1
    omega

theorem replaceAt_toList (wf : g.Wf) (hp : pos + ndel ≤ g.len) (fits : g.len - ndel + ins.length ≤ g.cap) :
    (g.replaceAt pos ndel ins).toList = g.toList.take pos ++ ins ++ g.toList.drop (pos + ndel) := by
  apply ext_getElem?
  intro i
  have size : (g.replaceAt pos ndel ins).len = g.len - ndel + ins.length := by
    simp only [replaceAt, moveGap_len]
  rw [toList_getElem?, size, append_assoc, getElem?_append, getElem?_append,
    length_take, toList_length, min_eq_left (by omega)]
  by_cases inside : i < g.len - ndel + ins.length
  · rw [if_pos inside, replaceAt_gvAt wf hp fits i]
    by_cases low : i < pos
    · rw [if_pos low, if_pos low, getElem?_take_of_lt low, toList_getElem?, if_pos (by omega)]
    · rw [if_neg low, if_neg low]
      by_cases new : i - pos < ins.length
      · simp [if_pos new, getD_eq_getElem?_getD, getElem?_eq_getElem new]
      · rw [if_neg new, getElem?_drop, toList_getElem?, if_pos (by omega),
          getD_eq_getElem?_getD, getElem?_eq_none (by omega), Option.getD_none]
        congr 2
        omega
  · rw [if_neg inside, if_neg (by omega), if_neg (by omega), getElem?_drop, toList_getElem?, if_neg (by omega)]

/-- What an edit returns: 0 and the new elements, or -1 and the old ones. -/
def Edited (g : Gapvec α) (r : Int × Gapvec α) (l : List α) : Prop :=
  r.2.Wf ∧ ((r.1 = 0 ∧ r.2.toList = l) ∨ (r.1 = -1 ∧ r.2.toList = g.toList))

theorem splice_spec (wf : g.Wf) (pos ndel : Nat) (hp : pos + ndel ≤ g.len) (esz : Nat) (ins : List α) (ok : Bool) :
    g.Edited (g.splice esz pos ndel ins ok) (g.toList.take pos ++ ins ++ g.toList.drop (pos + ndel)) := by
  unfold splice
  by_cases short : g.cap < g.len - ndel + ins.length
  · simp only [if_pos short, moveGap_cap]
    have moved := moveGap_wf wf (Nat.le_refl g.len)
    have same := moveGap_toList (g := g) g.len
    cases grown : dsReserve g.cap (g.len - ndel + ins.length) esz ok with
    | none => exact ⟨moved, .inr ⟨rfl, same⟩⟩
    | some c =>
      have bounds := dsReserve_sound wf.capacity grown
      -- The gap is at the end, so the new capacity only lengthens it.
      let wider : Gapvec α := { g.moveGap g.len with cap := c }
      have wide : wider.Wf := ⟨by simp [wider], by have := wf.room; simp only [wider, moveGap_len]; omega, bounds.2.2⟩
      have content : wider.toList = g.toList := by
        rw [← same]
        simp only [wider, toList, moveGap_len]
        apply map_congr_left
        intro i hi
        have : i < g.len := mem_range.mp hi
        simp only [gvAt, moveGap_gs, if_pos this]
      have fits : wider.len - ndel + ins.length ≤ wider.cap := by simpa only [wider, moveGap_len] using bounds.1
      have inside : pos + ndel ≤ wider.len := by simpa only [wider, moveGap_len] using hp
      refine ⟨replaceAt_wf wide inside fits, .inl ⟨rfl, ?_⟩⟩
      rw [replaceAt_toList wide inside fits, content]
  · simp only [if_neg short]
    have fits : g.len - ndel + ins.length ≤ g.cap := by omega
    exact ⟨replaceAt_wf wf hp fits, .inl ⟨rfl, replaceAt_toList wf hp fits⟩⟩

theorem splice_len_le (esz pos ndel : Nat) (ins : List α) (ok : Bool) :
    (g.splice esz pos ndel ins ok).2.len ≤ g.len + ins.length := by
  simp only [splice]
  split_ifs
  · split
    · simp
    · simp only [replaceAt, moveGap_len]; omega
  · simp only [replaceAt, moveGap_len]; omega

theorem splice_cap {esz : Nat} {ok : Bool} (fits : ¬ g.cap < g.len - ndel + ins.length) :
    (g.splice esz pos ndel ins ok).2.cap = g.cap := by
  simp only [splice, if_neg fits, replaceAt, moveGap_cap]

/-- A splice without room is refused exactly if the `realloc` is, or past 2^31 slots. -/
theorem splice_refused_iff (wf : g.Wf) {esz : Nat} {ok : Bool} (element : 0 < esz) (small : esz ≤ 2 ^ 32) :
    (g.splice esz pos ndel ins ok).1 = -1 ↔
      g.cap < g.len - ndel + ins.length ∧ (ok = false ∨ 2 ^ 31 < g.len - ndel + ins.length) := by
  rw [← dsReserve_none_iff wf.capacity element small]
  simp only [splice, moveGap_cap]
  split_ifs with short
  · cases reserved : dsReserve g.cap (g.len - ndel + ins.length) esz ok with
    | none => simp
    | some c => simp
  · simp [dsReserve, not_lt.mp short]

theorem gvPut_wf (wf : g.Wf) i (x : α) : (g.gvPut i x).Wf := ⟨wf.gap, wf.room, wf.capacity⟩

theorem gvPut_toList {i : Nat} (hi : i < g.len) (x : α) : (g.gvPut i x).toList = g.toList.set i x := by
  apply ext_getElem?
  intro k
  rw [toList_getElem?, getElem?_set, toList_getElem?, toList_length]
  by_cases inside : k < g.len
  · rw [if_pos (show k < (g.gvPut i x).len from inside), if_pos inside]
    by_cases same : i = k
    · subst same
      rw [if_pos rfl, if_pos hi]
      exact congrArg some (Function.update_self ..)
    · rw [if_neg same]
      have slots : (if k < g.gs then k else k + (g.cap - g.len)) ≠ (if i < g.gs then i else i + (g.cap - g.len)) := by
        split_ifs <;> omega
      exact congrArg some (Function.update_of_ne slots ..)
  · rw [if_neg (show ¬ k < (g.gvPut i x).len from inside), if_neg inside, if_neg (by omega)]

theorem gvAt_middle {c : α} (layout : g.toList = pre ++ c :: post) : g.gvAt pre.length = c := by
  have entry := g.toList_getElem? pre.length
  have inside : pre.length < g.len := by
    rw [← g.toList_length, layout]
    simp
  rw [if_pos inside, layout, getElem?_append_right (Nat.le_refl _), Nat.sub_self] at entry
  exact (Option.some.inj entry).symm

theorem gvPut_middle {c : α} (x : α)
    (layout : g.toList = pre ++ c :: post) : (g.gvPut pre.length x).toList = pre ++ x :: post := by
  have inside : pre.length < g.len := by
    rw [← g.toList_length, layout]
    simp
  rw [gvPut_toList inside, layout, set_append_right _ _ (Nat.le_refl _), Nat.sub_self, set_cons_zero]

theorem slice_middle {mid : List α} (layout : g.toList = pre ++ mid ++ post) :
    (List.range' pre.length mid.length).map g.gvAt = mid := by
  induction mid generalizing pre with
  | nil => rfl
  | cons c mid ih =>
    have rest := @ih (pre ++ [c]) (by simp [layout])
    simp only [length_append, length_singleton] at rest
    rw [length_cons, range'_succ, map_cons, rest,
      gvAt_middle (by simpa using layout)]

/-- Whichever side of the gap it searches, `firstWhere` cuts the whole vector. -/
theorem firstWhere_splits (wf : g.Wf) (test : α → Bool) (mono : Search.Monotone (fun i => test (g.gvAt i)) 0 g.len) :
    Search.Splits (fun i => test (g.gvAt i)) 0 g.len (g.firstWhere test) := by
  have gap := wf.gap
  have before : ∀ i, i < g.gs → g.gvAt i = g.p i := fun i h => by simp [gvAt, h]
  have behind : ∀ i, g.gs ≤ i → g.gvAt i = g.p (i + (g.cap - g.len)) := fun i h => by
    simp [gvAt, not_lt.mpr h]
  unfold firstWhere
  split_ifs with side
  · have found := Search.lowerBound_splits (fun i => test (g.p i)) 0 (g.gs - 1)
      (zero_le _) fun i j h₁ h₂ h₃ hit => by
        dsimp only at hit ⊢
        rw [← before i (by omega)] at hit
        rw [← before j (by omega)]
        exact mono i j h₁ h₂ (by omega) hit
    refine ⟨zero_le _, by have := found.upper; omega, fun i h₁ h₂ => ?_, fun i h₁ h₂ => ?_⟩
    · rw [before i (by have := found.upper; omega)]
      exact found.before i h₁ h₂
    · by_cases early : i < g.gs - 1
      · rw [before i (by omega)]
        exact found.after i h₁ early
      · refine mono (g.gs - 1) i (zero_le _) (by omega) h₂ ?_
        dsimp only
        rw [before _ (by omega)]
        exact side.2
  · have found := Search.lowerBound_splits (fun i => test (g.p (i + (g.cap - g.len)))) g.gs g.len gap
      fun i j h₁ h₂ h₃ hit => by
        dsimp only at hit ⊢
        rw [← behind i h₁] at hit
        rw [← behind j (by omega)]
        exact mono i j (zero_le _) h₂ h₃ hit
    refine ⟨zero_le _, found.upper, fun i h₁ h₂ => ?_, fun i h₁ h₂ => ?_⟩
    · by_cases early : i < g.gs
      · by_contra hit
        refine side ⟨by omega, ?_⟩
        rw [← before _ (by omega)]
        exact mono i (g.gs - 1) (zero_le _) (by omega) (by omega) (by simpa using hit)
      · rw [behind i (by omega)]
        exact found.before i (by omega) h₂
    · have := found.lower
      rw [behind i (by omega)]
      exact found.after i h₁ h₂

/-- The position of a finished search cuts the list of elements the way
`takeWhile` does. -/
theorem splits_cut {test : α → Bool} {r : Nat} (found : Search.Splits (fun i => test (g.gvAt i)) 0 g.len r) :
    g.toList.takeWhile (fun c => !test c) = g.toList.take r ∧
    g.toList.dropWhile (fun c => !test c) = g.toList.drop r := by
  apply Search.cut_at
  · intro c hc
    obtain ⟨i, hi, rfl⟩ := mem_take_iff_getElem.mp hc
    have := found.before i (zero_le _) (by omega)
    simpa [toList] using this
  · intro c hc
    obtain ⟨i, hi, rfl⟩ := mem_drop_iff_getElem.mp hc
    simp only [toList_length] at hi
    have := found.after (r + i) (by omega) (by omega)
    simpa [toList] using this

theorem skipWhile_cut (test : α → Bool) (fuel j : Nat) (hj : j ≤ g.len) (enough : g.len - j ≤ fuel) :
    j ≤ g.skipWhile test fuel j ∧ g.skipWhile test fuel j ≤ g.len ∧
    (g.toList.drop j).takeWhile test = (g.toList.drop j).take (g.skipWhile test fuel j - j) ∧
    (g.toList.drop j).dropWhile test = g.toList.drop (g.skipWhile test fuel j) := by
  induction fuel generalizing j with
  | zero =>
    have last : g.toList.drop j = [] := drop_eq_nil_of_le (by simp; omega)
    simp [skipWhile, last, hj]
  | succ fuel ih =>
    by_cases more : j < g.len ∧ test (g.gvAt j) = true
    · have rest := ih (j + 1) (by omega) (by omega)
      simp only [skipWhile, if_pos more, drop_toList more.1]
      have next : g.skipWhile test fuel (j + 1) - j = g.skipWhile test fuel (j + 1) - (j + 1) + 1 := by omega
      simp only [takeWhile_cons, dropWhile_cons, more.2, if_true, rest.2.2.1, rest.2.2.2, next, take_succ_cons]
      exact ⟨by omega, rest.2.1, trivial, trivial⟩
    · simp only [skipWhile, if_neg more, Nat.sub_self, take_zero]
      refine ⟨Nat.le_refl _, hj, ?_⟩
      by_cases inside : j < g.len
      · have stop : ¬ test (g.gvAt j) = true := fun h => more ⟨inside, h⟩
        simp [drop_toList inside, stop]
      · have last : g.toList.drop j = [] := drop_eq_nil_of_le (by simp; omega)
        simp [last]

end Gapvec
end DynaJS.Ds
