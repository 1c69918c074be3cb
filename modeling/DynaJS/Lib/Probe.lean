import Mathlib.Tactic

/-! Open addressing with linear probing on a ring of slots. An entry sits at or after
its home slot with no empty slot in between; deletion moves later entries back over
the hole instead of leaving a mark. -/
namespace DynaJS.Probe

open Function Option Finset

variable {E K : Type} {n : Nat}

def next (n i : Nat) : Nat := if i + 1 < n then i + 1 else 0

def dist (n a b : Nat) : Nat := if a ≤ b then b - a else b + n - a

theorem next_lt {i : Nat} (h : i < n) : next n i < n := by
  unfold next; split <;> omega

@[simp] theorem dist_self (a : Nat) : dist n a a = 0 := by simp [dist]

variable {a b : Nat}

theorem dist_lt (ha : a < n) (hb : b < n) : dist n a b < n := by
  unfold dist; split <;> omega

theorem dist_inj {a b c : Nat} (ha : a < n) (hb : b < n) (hc : c < n) (h : dist n a b = dist n a c) : b = c := by
  unfold dist at h; split at h <;> split at h <;> omega

theorem dist_pos (ha : a < n) (h : a ≠ b) : 0 < dist n a b := by
  unfold dist; split <;> omega

/-- Before the way around is complete, the next slot is one step further. -/
theorem dist_next (ha : a < n) (hb : b < n) (h : next n b ≠ a) : dist n a (next n b) = dist n a b + 1 := by
  unfold next at h ⊢; unfold dist
  split at h <;> split_ifs <;> omega

theorem dist_from_next (ha : a < n) (hb : b < n) (h : a ≠ b) : dist n (next n a) b + 1 = dist n a b := by
  unfold next dist
  split_ifs <;> omega

def walk (n : Nat) (cells : Nat → Option E) (hit : E → Bool) : Nat → Nat → Nat
  | 0, i => i
  | fuel + 1, i =>
    match cells i with
    | none => i
    | some e => if hit e then i else walk n cells hit fuel (next n i)

structure Stops (n : Nat) (cells : Nat → Option E) (hit : E → Bool) (i r : Nat) : Prop where
  inside : r < n
  passed : ∀ q, q < n → dist n i q < dist n i r → ∃ e, cells q = some e ∧ hit e = false
  here : cells r = none ∨ ∃ e, cells r = some e ∧ hit e = true

variable {cells : Nat → Option E} {e d : E} {i j : Nat}

theorem ne_of_full (full : cells i = some e) (empty : cells j = none) : i ≠ j := by
  rintro rfl
  simp [empty] at full

theorem update_none_iff : update cells i none j = some d ↔ j ≠ i ∧ cells j = some d := by
  by_cases here : j = i <;> simp [here]

theorem update_some_iff : update cells i (some e) j = some d ↔ j = i ∧ e = d ∨ j ≠ i ∧ cells j = some d := by
  by_cases here : j = i <;> simp [here]

theorem walk_stops (hit : E → Bool) {z : Nat} (hz : z < n)
    (empty : cells z = none) (fuel i : Nat) (hi : i < n) (enough : dist n i z < fuel) :
    Stops n cells hit i (walk n cells hit fuel i) := by
  induction fuel generalizing i with
  | zero => omega
  | succ fuel ih =>
    unfold walk
    cases slot : cells i with
    | none => exact ⟨hi, fun q _ h => by simp at h, .inl slot⟩
    | some e =>
      by_cases found : hit e = true
      · simp only [found, if_true]
        exact ⟨hi, fun q _ h => by simp at h, .inr ⟨e, slot, found⟩⟩
      simp only [found]
      have step := dist_from_next hi hz (ne_of_full slot empty)
      have rest := ih (next n i) (next_lt hi) (by omega)
      refine ⟨rest.inside, fun q hq near => ?_, rest.here⟩
      by_cases first : q = i
      · exact ⟨e, first ▸ slot, by simpa using found⟩
      · have from_q := dist_from_next hi hq (Ne.symm first)
        by_cases last : walk n cells hit fuel (next n i) = i
        · simp only [Bool.false_eq_true, if_false, last, dist_self] at near
          omega
        · have from_r := dist_from_next hi rest.inside (Ne.symm last)
          simp only [Bool.false_eq_true, if_false] at near
          exact rest.passed q hq (by omega)

variable (home : E → Nat) (key : E → K)

def Reach (n : Nat) (cells : Nat → Option E) : Prop := ∀ p, p < n → ∀ e, cells p = some e → home e < n ∧
    ∀ q, q < n → dist n (home e) q < dist n (home e) p → cells q ≠ none

def Distinct (n : Nat) (cells : Nat → Option E) : Prop :=
  ∀ p q e e', p < n → q < n → cells p = some e → cells q = some e' → key e = key e' → p = q

def load (n : Nat) (cells : Nat → Option E) : Nat := ((range n).filter fun p => (cells p).isSome).card

def Stored (n : Nat) (cells : Nat → Option E) (e : E) : Prop := ∃ p, p < n ∧ cells p = some e

variable {home key}

theorem load_lt_exists (h : load n cells < n) : ∃ z, z < n ∧ cells z = none := by
  by_contra full
  push Not at full
  have all : (range n).filter (fun p => (cells p).isSome) = range n := by
    refine filter_true_of_mem fun p hp => ?_
    exact isSome_iff_ne_none.mpr (full p (mem_range.mp hp))
  rw [load, all, card_range] at h
  omega

theorem load_fill (hi : i < n) (empty : cells i = none)
    (e : E) : load n (update cells i (some e)) = load n cells + 1 := by
  have grown : (range n).filter (fun p => (update cells i (some e) p).isSome) =
      insert i ((range n).filter fun p => (cells p).isSome) := by
    ext p
    by_cases same : p = i
    · subst same
      simp [hi]
    · simp [same]
  rw [load, grown, card_insert_of_notMem (by simp [empty]), load]

theorem load_clear (hi : i < n) (slot : cells i = some e) : load n (update cells i none) + 1 = load n cells := by
  have back := load_fill hi (update_self i none cells) e
  rwa [update_idem, ← slot, update_eq_self, eq_comm] at back

/-- The lookup: walking from the home of a key ends at its entry or proves there is
none. -/
theorem find_spec {hit : E → Bool} {i r : Nat} (reach : Reach home n cells) (stops : Stops n cells hit i r)
    (start : ∀ e, hit e = true → home e = i) (hi : i < n) :
    (∃ e, cells r = some e ∧ hit e = true) ∨ (cells r = none ∧ ∀ e, hit e = true → ¬ Stored n cells e) := by
  rcases stops.here with empty | found
  · refine .inr ⟨empty, fun e hit' ⟨p, hp, slot⟩ => ?_⟩
    have from_home := reach p hp e slot
    rw [start e hit'] at from_home
    rcases Nat.lt_trichotomy (dist n i p) (dist n i r) with near | same | far
    · obtain ⟨e', slot', miss⟩ := stops.passed p hp near
      rw [slot] at slot'
      cases some.inj slot'
      rw [hit'] at miss
      contradiction
    · exact ne_of_full slot empty (dist_inj hi hp stops.inside same)
    · exact from_home.2 r stops.inside far empty
  · exact .inl found

theorem place_spec {r : Nat} (reach : Reach home n cells)
    (stops : Stops n cells (fun _ => false) (home e) r) (inside : home e < n) :
    Reach home n (update cells r (some e)) := by
  -- Every slot is as full as before or fuller.
  have fuller : ∀ q, cells q ≠ none → update cells r (some e) q ≠ none := by
    intro q occupied
    by_cases same : q = r
    · simp [same]
    · rwa [update_of_ne same]
  intro p hp d slot
  rcases update_some_iff.mp slot with ⟨rfl, rfl⟩ | ⟨_, slot⟩
  · refine ⟨inside, fun q hq near => fuller q ?_⟩
    obtain ⟨e', occupied, _⟩ := stops.passed q hq near
    simp [occupied]
  · exact ⟨(reach p hp d slot).1, fun q hq near => fuller q ((reach p hp d slot).2 q hq near)⟩

theorem place_distinct {r : Nat} (distinct : Distinct key n cells) (new : ∀ d, Stored n cells d → key d ≠ key e) :
    Distinct key n (update cells r (some e)) := by
  intro p q d d' hp hq slot slot' same
  rcases update_some_iff.mp slot with ⟨rfl, rfl⟩ | ⟨_, old⟩ <;>
    rcases update_some_iff.mp slot' with ⟨rfl, rfl⟩ | ⟨_, old'⟩
  · rfl
  · exact absurd same.symm (new d' ⟨q, hq, old'⟩)
  · exact absurd same (new d ⟨p, hp, old⟩)
  · exact distinct p q d d' hp hq old old' same

theorem stored_place {r : Nat} (hr : r < n) (empty : cells r = none)
    (e d : E) : Stored n (update cells r (some e)) d ↔ d = e ∨ Stored n cells d := by
  constructor
  · rintro ⟨p, hp, slot⟩
    rcases update_some_iff.mp slot with ⟨_, rfl⟩ | ⟨_, old⟩
    · exact .inl rfl
    · exact .inr ⟨p, hp, old⟩
  · rintro (rfl | ⟨p, hp, slot⟩)
    · exact ⟨r, hr, update_self ..⟩
    · exact ⟨p, hp, update_some_iff.mpr (.inr ⟨ne_of_full slot empty, slot⟩)⟩

/-- The backward shift: with a hole at `i`, look at the slots from `j` on and move each
entry whose way from home leads over the hole. -/
def shift (home : E → Nat) (n : Nat) : Nat → (Nat → Option E) → Nat → Nat → Nat → Option E
  | 0, cells, _, _ => cells
  | fuel + 1, cells, i, j =>
    match cells j with
    | none => cells
    | some e =>
      if dist n i j ≤ dist n (home e) j then
        shift home n fuel (update (update cells i (some e)) j none) j (next n j)
      else shift home n fuel cells i (next n j)

def erase (home : E → Nat) (n : Nat) (cells : Nat → Option E) (i : Nat) : Nat → Option E :=
  shift home n n (update cells i none) i (next n i)

/-- The state of a backward shift: only the hole may interrupt an entry's way from
home, and only for entries that have not been looked at, `d` steps and more behind it. -/
structure Holed (home : E → Nat) (n : Nat) (cells : Nat → Option E) (i d : Nat) : Prop where
  hole : cells i = none
  way : ∀ p, p < n → ∀ e, cells p = some e → home e < n ∧ ∀ q, q < n → dist n (home e) q < dist n (home e) p →
      cells q ≠ none ∨ (q = i ∧ d ≤ dist n i p)

/-- Nothing behind an empty slot can have a way over a hole before it. -/
theorem Holed.reach (hi : i < n) (hj : j < n)
    (holed : Holed home n cells i (dist n i j)) (other : i ≠ j) (empty : cells j = none) :
    Reach home n cells := by
  intro p hp e slot
  obtain ⟨inside, way⟩ := holed.way p hp e slot
  refine ⟨inside, fun q hq near => ?_⟩
  rcases way q hq near with occupied | ⟨rfl, far⟩
  · exact occupied
  · -- The way leads from the hole over the empty slot `j` to `p`.
    exfalso
    have apart := ne_of_full slot empty
    have over_j : dist n (home e) j < dist n (home e) p := by
      unfold dist at *
      split_ifs at * <;> omega
    rcases way j hj over_j with occupied | ⟨same, _⟩
    · exact occupied empty
    · exact other same.symm

theorem Holed.keep (hi : i < n) (hj : j < n) (holed : Holed home n cells i (dist n i j)) (slot : cells j = some e)
    (stay : dist n (home e) j < dist n i j) : Holed home n cells i (dist n i j + 1) := by
  refine ⟨holed.hole, fun p hp d slot' => ?_⟩
  obtain ⟨inside, way⟩ := holed.way p hp d slot'
  refine ⟨inside, fun q hq near => ?_⟩
  rcases way q hq near with occupied | ⟨rfl, far⟩
  · exact .inl occupied
  · refine .inr ⟨rfl, ?_⟩
    by_cases here : p = j
    · subst here
      rw [slot] at slot'
      cases some.inj slot'
      exfalso
      unfold dist at *
      split_ifs at * <;> omega
    · have : dist n q p ≠ dist n q j := fun same => here (dist_inj hi hp hj same)
      omega

theorem Holed.move (hi : i < n) (hj : j < n) (other : i ≠ j)
    (holed : Holed home n cells i (dist n i j)) (slot : cells j = some e)
    (moves : dist n i j ≤ dist n (home e) j) :
    Holed home n (update (update cells i (some e)) j none) j 1 := by
  refine ⟨update_self .., fun p hp d slot' => ?_⟩
  obtain ⟨away, slot'⟩ := update_none_iff.mp slot'
  have beyond : 1 ≤ dist n j p := dist_pos hj (Ne.symm away)
  -- Every slot but the new hole is as full as before or fuller.
  have fuller : ∀ q, q ≠ j → cells q ≠ none ∨ q = i → update (update cells i (some e)) j none q ≠ none := by
    intro q hq occupied
    rw [update_of_ne hq]
    by_cases here : q = i
    · simp [here]
    · rw [update_of_ne here]
      exact occupied.resolve_right here
  rcases update_some_iff.mp slot' with ⟨rfl, rfl⟩ | ⟨_, old⟩
  · obtain ⟨inside, way⟩ := holed.way j hj e slot
    refine ⟨inside, fun q hq near => ?_⟩
    have shorter : dist n (home e) q < dist n (home e) j := by
      unfold dist at *
      split_ifs at * <;> omega
    have not_j : q ≠ j := fun same => by rw [same] at shorter; omega
    refine .inl (fuller q not_j ?_)
    exact (way q hq shorter).imp id And.left
  · obtain ⟨inside, way⟩ := holed.way p hp d old
    refine ⟨inside, fun q hq near => ?_⟩
    by_cases at_j : q = j
    · exact .inr ⟨at_j, beyond⟩
    · exact .inl (fuller q at_j ((way q hq near).imp id And.left))

structure Rearranged (key : E → K) (n : Nat) (cells cells' : Nat → Option E) : Prop where
  stored : ∀ e, Stored n cells' e ↔ Stored n cells e
  distinct : Distinct key n cells → Distinct key n cells'
  load : load n cells' = load n cells

theorem Rearranged.refl (cells : Nat → Option E) : Rearranged key n cells cells := ⟨fun _ => Iff.rfl, id, rfl⟩

theorem Rearranged.trans {a b c : Nat → Option E} (h : Rearranged key n a b)
    (k : Rearranged key n b c) : Rearranged key n a c :=
  ⟨fun e => (k.stored e).trans (h.stored e), fun d => k.distinct (h.distinct d), k.load.trans h.load⟩

theorem rearranged_move (hi : i < n) (hj : j < n) (hole : cells i = none) (slot : cells j = some e) :
    Rearranged key n cells (update (update cells i (some e)) j none) := by
  have other : j ≠ i := ne_of_full slot hole
  have at_j : update cells i (some e) j = some e := update_some_iff.mpr (.inr ⟨other, slot⟩)
  -- Where the entry of a slot came from.
  have source : ∀ p d, update (update cells i (some e)) j none p = some d →
      (p = i ∧ e = d) ∨ (p ≠ j ∧ cells p = some d) := by
    intro p d slot'
    obtain ⟨away, slot'⟩ := update_none_iff.mp slot'
    exact (update_some_iff.mp slot').imp_right fun old => ⟨away, old.2⟩
  refine ⟨fun d => ⟨?_, ?_⟩, ?_, ?_⟩
  · rintro ⟨p, hp, slot'⟩
    rcases source p d slot' with ⟨_, rfl⟩ | ⟨_, old⟩
    · exact ⟨j, hj, slot⟩
    · exact ⟨p, hp, old⟩
  · rintro ⟨p, hp, slot'⟩
    by_cases moved : p = j
    · refine ⟨i, hi, ?_⟩
      rw [update_of_ne (Ne.symm other), update_self, ← slot', moved, slot]
    · exact ⟨p, hp, update_none_iff.mpr ⟨moved, update_some_iff.mpr (.inr ⟨ne_of_full slot' hole, slot'⟩)⟩⟩
  · intro distinct p q d d' hp hq slot₁ slot₂ same
    rcases source p d slot₁ with ⟨rfl, rfl⟩ | ⟨p_j, old₁⟩ <;>
      rcases source q d' slot₂ with ⟨rfl, rfl⟩ | ⟨q_j, old₂⟩
    · rfl
    · exact absurd (distinct q j _ _ hq hj old₂ slot same.symm) q_j
    · exact absurd (distinct p j _ _ hp hj old₁ slot same) p_j
    · exact distinct p q d d' hp hq old₁ old₂ same
  · have filled := load_fill hi hole e
    have cleared := load_clear hj at_j
    omega

/-- The shift ends at the next empty slot with every way from home whole again. -/
theorem shift_spec (key : E → K) {z : Nat} (hz : z < n) (fuel : Nat) (cells : Nat → Option E) (i j : Nat)
    (hi : i < n) (hj : j < n) (empty : cells z = none) (hole : i ≠ z)
    (way : dist n j z < dist n i z) (holed : Holed home n cells i (dist n i j))
    (enough : dist n j z < fuel) :
    Reach home n (shift home n fuel cells i j) ∧ Rearranged key n cells (shift home n fuel cells i j) := by
  induction fuel generalizing cells i j with
  | zero => omega
  | succ fuel ih =>
    have other : i ≠ j := fun same => by rw [same] at way; omega
    unfold shift
    cases slot : cells j with
    | none => exact ⟨holed.reach hi hj other slot, .refl _⟩
    | some e =>
      have not_z := ne_of_full slot empty
      have step := dist_from_next hj hz not_z
      dsimp only
      split_ifs with moves
      · have nearer : dist n (next n j) z < dist n j z := by omega
        have next_ne : next n j ≠ j := fun same => by rw [same] at nearer; omega
        have one : dist n j (next n j) = 1 := by
          rw [dist_next hj hj next_ne, dist_self]
        have still : update (update cells i (some e)) j none z = none := by
          rw [update_of_ne (Ne.symm not_z), update_of_ne (Ne.symm hole)]
          exact empty
        have rest := ih _ j (next n j) hj (next_lt hj) still not_z nearer
          (one ▸ holed.move hi hj other slot moves) (by omega)
        exact ⟨rest.1, (rearranged_move hi hj holed.hole slot).trans rest.2⟩
      · have around : next n j ≠ i := fun same => by
          rw [same] at step
          omega
        have further := dist_next hi hj around
        exact ih _ i (next n j) hi (next_lt hj) empty hole (by omega)
          (further ▸ holed.keep hi hj slot (by omega)) (by omega)

theorem erase_spec (hi : i < n) (slot : cells i = some e) (reach : Reach home n cells) (distinct : Distinct key n cells)
    (room : load n cells < n) :
    Reach home n (erase home n cells i) ∧ Distinct key n (erase home n cells i) ∧
    load n (erase home n cells i) + 1 = load n cells ∧
    ∀ d, Stored n (erase home n cells i) d ↔ Stored n cells d ∧ key d ≠ key e := by
  obtain ⟨z, hz, empty⟩ := load_lt_exists room
  have hole := ne_of_full slot empty
  have step := dist_from_next hi hz hole
  have next_ne : next n i ≠ i := fun same => by rw [same] at step; omega
  have one : dist n i (next n i) = 1 := by rw [dist_next hi hi next_ne, dist_self]
  have still : update cells i none z = none := by
    rw [update_of_ne (Ne.symm hole)]
    exact empty
  have holed : Holed home n (update cells i none) i (dist n i (next n i)) := by
    refine ⟨update_self .., fun p hp d slot' => ?_⟩
    obtain ⟨away, slot'⟩ := update_none_iff.mp slot'
    refine ⟨(reach p hp d slot').1, fun q hq near => ?_⟩
    by_cases here : q = i
    · exact .inr ⟨here, by rw [one]; exact dist_pos hi (Ne.symm away)⟩
    · rw [update_of_ne here]
      exact .inl ((reach p hp d slot').2 q hq near)
  have done := shift_spec key hz n (update cells i none) i (next n i) hi
    (next_lt hi) still hole (by omega) holed (dist_lt (next_lt hi) hz)
  have cleared : Distinct key n (update cells i none) := by
    intro p q d d' hp hq slot₁ slot₂ same
    exact distinct p q d d' hp hq (update_none_iff.mp slot₁).2 (update_none_iff.mp slot₂).2 same
  refine ⟨done.1, done.2.distinct cleared, ?_, fun d => (done.2.stored d).trans ⟨?_, ?_⟩⟩
  · rw [erase, done.2.load]
    exact load_clear hi slot
  · rintro ⟨p, hp, slot'⟩
    obtain ⟨away, slot'⟩ := update_none_iff.mp slot'
    exact ⟨⟨p, hp, slot'⟩, fun same => away (distinct p i d e hp hi slot' slot same)⟩
  · rintro ⟨⟨p, hp, slot'⟩, differs⟩
    have away : p ≠ i := fun same => by
      rw [same, slot] at slot'
      exact differs (congrArg key (some.inj slot')).symm
    exact ⟨p, hp, update_none_iff.mpr ⟨away, slot'⟩⟩

end DynaJS.Probe
