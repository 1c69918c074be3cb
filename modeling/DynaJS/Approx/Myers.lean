import DynaJS.Approx.Text
import DynaJS.Lib.Edit
import DynaJS.Lib.Probe

/-! The bit-parallel kernel `DYN_LEV_MYERS_BODY` and the two tables it reads: one column of
the distance table is held in two words, as the signs of its vertical differences. -/
namespace DynaJS.Approx

open Function Edit List Nat Probe
open BitVec

structure Differences where
  vp : BitVec 64
  vn : BitVec 64
  score : Nat

def crossing (eq vp : BitVec 64) : BitVec 64 := (((eq &&& vp) + vp) ^^^ vp) ||| eq

def horizontalPlus (eq : BitVec 64) (s : Differences) : BitVec 64 := s.vn ||| ~~~(crossing eq s.vp ||| s.vp)

def horizontalMinus (eq : BitVec 64) (s : Differences) : BitVec 64 := s.vp &&& crossing eq s.vp

def myersStep (top eq : BitVec 64) (s : Differences) : Differences :=
  let xv := eq ||| s.vn
  let ph := horizontalPlus eq s
  let mh := horizontalMinus eq s
  let score := if ph &&& top ≠ 0 then s.score + 1 else s.score
  let score := if mh &&& top ≠ 0 then score - 1 else score
  let ph := (ph <<< 1) ||| 1
  let mh := mh <<< 1
  ⟨mh ||| ~~~(xv ||| ph), ph &&& xv, score⟩

def myersBody {C : Type} (eqOf : C → BitVec 64) (m : Nat) (txt : List C) : Nat :=
  (txt.foldl (fun s c => myersStep (1#64 <<< (m - 1)) (eqOf c) s) ⟨~~~0, 0, m⟩).score

def byteMasks : List UInt8 → Nat → (Nat → BitVec 64) → Nat → BitVec 64
  | [], _, eqt => eqt
  | c :: pat, i, eqt => byteMasks pat (i + 1) (update eqt c.toNat (eqt c.toNat ||| 1#64 <<< i))

def levMyersU8 (pat txt : List UInt8) : Nat :=
  myersBody (fun c => byteMasks pat 0 (fun _ => 0) c.toNat) pat.length txt

def eqEmpty : Nat := 0xFFFFFFFF

def eqSlots : Nat := 256

structure EqTable where
  key : Nat → Nat
  mask : Nat → BitVec 64

def eqSlot (c : Nat) : Nat :=
  let c := c * 2654435761 % 2 ^ 32
  (c ^^^ (c >>> 16)) &&& (eqSlots - 1)

def eqSeek (key : Nat → Nat) (c : Nat) : Nat → Nat → Nat
  | 0, s => s
  | fuel + 1, s =>
    if key s ≠ eqEmpty ∧ key s ≠ c then eqSeek key c fuel ((s + 1) &&& (eqSlots - 1)) else s

def eqAdd (e : EqTable) (c i : Nat) : EqTable :=
  let s := eqSeek e.key c eqSlots (eqSlot c)
  let e := if e.key s = eqEmpty then ⟨update e.key s c, update e.mask s 0⟩ else e
  { e with mask := update e.mask s (e.mask s ||| 1#64 <<< i) }

def eqAddAll : List Nat → Nat → EqTable → EqTable
  | [], _, e => e
  | c :: pat, i, e => eqAddAll pat (i + 1) (eqAdd e c i)

variable (masks : Nat → BitVec 64)

def eqBuild (pat : List Nat) : EqTable := eqAddAll pat 0 ⟨fun _ => eqEmpty, masks⟩

def eqGetFrom (e : EqTable) (c : Nat) : Nat → Nat → BitVec 64
  | 0, _ => 0
  | fuel + 1, s =>
    if e.key s ≠ eqEmpty then
      if e.key s = c then e.mask s else eqGetFrom e c fuel ((s + 1) &&& (eqSlots - 1))
    else 0

def eqGet (e : EqTable) (c : Nat) : BitVec 64 := eqGetFrom e c eqSlots (eqSlot c)

def levMyersCp (pat txt : List Nat) : Nat :=
  myersBody (eqGet (eqBuild masks pat)) pat.length txt

section Kernel

variable {differ : Nat → Nat → Bool} {m j : Nat} {eq : BitVec 64} {s : Differences}

structure Tracks (differ : Nat → Nat → Bool) (m j : Nat) (s : Differences) : Prop where
  plus : ∀ i, i < m → s.vp.getLsbD i = decide (table differ (i + 1) j = table differ i j + 1)
  minus : ∀ i, i < m → s.vn.getLsbD i = decide (table differ i j = table differ (i + 1) j + 1)
  bottom : s.score = table differ m j

section Round

variable (tracks : Tracks differ m j s) (sees : ∀ i, i < m → eq.getLsbD i = !differ i j)
include tracks sees

variable {i : Nat}

/-- The carry into bit `i` of the addition says that row `i` falls from this column to the next. -/
theorem carry_falls (hi : i ≤ m) :
    carry i (eq &&& s.vp) s.vp false = decide (table differ i (j + 1) + 1 = table differ i j) := by
  induction i with
  | zero =>
    rw [carry_zero, table_zero, table_zero, decide_eq_false (by omega)]
  | succ i ih =>
    have steps := table_steps differ i j
    have cell := table_succ differ i j
    rw [carry_succ, getLsbD_and, tracks.plus i hi, sees i hi, ih (by omega), Bool.eq_iff_iff]
    cases apart : differ i j <;> rw [apart] at cell
    all_goals
      simp only [Bool.false_eq_true, if_false, if_true, Bool.atLeastTwo, Bool.not_false, Bool.not_true, Bool.true_and,
        Bool.false_and, Bool.and_self, Bool.or_eq_true, Bool.and_eq_true, decide_eq_true_eq, false_or] at cell ⊢
      omega

theorem crossing_bit (word : m ≤ 64) (hi : i < m) :
    (crossing eq s.vp).getLsbD i = (!differ i j || decide (table differ i (j + 1) + 1 = table differ i j)) := by
  rw [crossing, getLsbD_or, getLsbD_xor, getLsbD_add (by omega), carry_falls tracks sees (by omega),
    getLsbD_and, sees i hi]
  cases differ i j <;> cases s.vp.getLsbD i <;> simp

theorem horizontalPlus_bit (word : m ≤ 64) (hi : i < m) :
    (horizontalPlus eq s).getLsbD i = decide (table differ (i + 1) (j + 1) = table differ (i + 1) j + 1) := by
  have steps := table_steps differ i j
  have cell := table_succ differ i j
  rw [horizontalPlus, getLsbD_or, getLsbD_not, getLsbD_or, crossing_bit tracks sees word hi,
    tracks.plus i hi, tracks.minus i hi, decide_eq_true (show i < 64 by omega), Bool.true_and, Bool.eq_iff_iff]
  cases apart : differ i j <;> rw [apart] at cell
  all_goals
    simp only [Bool.false_eq_true, if_false, if_true, Bool.not_false, Bool.not_true, Bool.true_or, Bool.false_or,
      Bool.or_eq_true, Bool.not_eq_true', Bool.or_eq_false_iff, decide_eq_true_eq, decide_eq_false_iff_not, or_false]
      at cell ⊢
    omega

theorem horizontalMinus_bit (word : m ≤ 64) (hi : i < m) :
    (horizontalMinus eq s).getLsbD i = decide (table differ (i + 1) (j + 1) + 1 = table differ (i + 1) j) := by
  rw [← carry_falls tracks sees hi, horizontalMinus, getLsbD_and, crossing_bit tracks sees word hi,
    carry_succ, carry_falls tracks sees (le_of_lt hi), getLsbD_and, sees i hi]
  cases differ i j <;> cases s.vp.getLsbD i <;> simp [Bool.atLeastTwo]

omit tracks sees in
theorem top_bit {x : BitVec 64} (hm : 0 < m) (word : m ≤ 64) :
    x &&& 1#64 <<< (m - 1) ≠ 0 ↔ x.getLsbD (m - 1) = true := by
  rw [← twoPow_eq, and_twoPow]
  cases x.getLsbD (m - 1) with
  | true =>
    rw [if_pos rfl]
    refine ⟨fun _ => rfl, fun _ zero => ?_⟩
    have bit := congrArg (fun y => getLsbD y (m - 1)) zero
    simp only [getLsbD_twoPow, ofNat_eq_ofNat, getLsbD_zero, decide_true, Bool.and_true,
      decide_eq_false_iff_not] at bit
    omega
  | false => simp

theorem myersStep_tracks (hm : 0 < m) (word : m ≤ 64) :
    Tracks differ m (j + 1) (myersStep (1#64 <<< (m - 1)) eq s) := by
  -- the shifted words tell how row `i`, above bit `i`, moves
  have rises : ∀ i, i < m → ((horizontalPlus eq s <<< 1) ||| 1).getLsbD i =
      decide (table differ i (j + 1) = table differ i j + 1) := by
    intro i hi
    cases i with
    | zero => simp [table_zero]
    | succ i =>
      rw [← horizontalPlus_bit tracks sees word (by omega)]
      have inside : i + 1 < 64 := by omega
      simp [inside, getLsbD_eq_getElem (show i < 64 by omega)]
  have falls : ∀ i, i < m → (horizontalMinus eq s <<< 1).getLsbD i =
      decide (table differ i (j + 1) + 1 = table differ i j) := by
    intro i hi
    cases i with
    | zero =>
      rw [table_zero, table_zero, decide_eq_false (by omega)]
      simp
    | succ i =>
      rw [← horizontalMinus_bit tracks sees word (by omega)]
      have inside : i + 1 < 64 := by omega
      simp [inside, getLsbD_eq_getElem (show i < 64 by omega)]
  refine ⟨fun i hi => ?_, fun i hi => ?_, ?_⟩
  · have steps := table_steps differ i j
    have cell := table_succ differ i j
    change (horizontalMinus eq s <<< 1 ||| ~~~(eq ||| s.vn ||| (horizontalPlus eq s <<< 1 ||| 1))).getLsbD i = _
    rw [getLsbD_or, getLsbD_not, getLsbD_or, getLsbD_or, rises i hi, falls i hi, sees i hi,
      tracks.minus i hi, decide_eq_true (show i < 64 by omega), Bool.true_and, Bool.eq_iff_iff]
    cases apart : differ i j <;> rw [apart] at cell
    all_goals
      simp only [Bool.false_eq_true, if_false, if_true, Bool.not_false, Bool.not_true, Bool.true_or, Bool.false_or,
        Bool.or_eq_true, Bool.not_eq_true', Bool.or_eq_false_iff, decide_eq_true_eq, decide_eq_false_iff_not, or_false]
        at cell ⊢
      omega
  · have steps := table_steps differ i j
    have cell := table_succ differ i j
    change ((horizontalPlus eq s <<< 1 ||| 1) &&& (eq ||| s.vn)).getLsbD i = _
    rw [getLsbD_and, rises i hi, getLsbD_or, sees i hi, tracks.minus i hi, Bool.eq_iff_iff]
    cases apart : differ i j <;> rw [apart] at cell
    all_goals
      simp only [Bool.false_eq_true, if_false, if_true, Bool.not_false, Bool.not_true, Bool.true_or, Bool.false_or,
        Bool.and_true, Bool.and_eq_true, decide_eq_true_eq] at cell ⊢
      omega
  · obtain ⟨k, rfl⟩ : ∃ k, m = k + 1 := ⟨m - 1, by omega⟩
    have back := table_back differ (k + 1) j
    have across := table_across differ (k + 1) j
    have plus : horizontalPlus eq s &&& 1#64 <<< (k + 1 - 1) ≠ 0 ↔
        table differ (k + 1) (j + 1) = table differ (k + 1) j + 1 := by
      rw [top_bit hm word, Nat.add_sub_cancel, horizontalPlus_bit tracks sees word (Nat.lt_succ_self k),
        decide_eq_true_eq]
    have minus : horizontalMinus eq s &&& 1#64 <<< (k + 1 - 1) ≠ 0 ↔
        table differ (k + 1) (j + 1) + 1 = table differ (k + 1) j := by
      rw [top_bit hm word, Nat.add_sub_cancel, horizontalMinus_bit tracks sees word (Nat.lt_succ_self k),
        decide_eq_true_eq]
    change (if horizontalMinus eq s &&& 1#64 <<< (k + 1 - 1) ≠ 0 then
      (if horizontalPlus eq s &&& 1#64 <<< (k + 1 - 1) ≠ 0 then s.score + 1 else s.score) - 1
      else if horizontalPlus eq s &&& 1#64 <<< (k + 1 - 1) ≠ 0 then s.score + 1 else s.score) = _
    rw [if_congr minus rfl rfl, if_congr plus rfl rfl, tracks.bottom]
    split_ifs <;> omega

end Round

theorem tracks_start (differ : Nat → Nat → Bool) {m : Nat} (word : m ≤ 64) : Tracks differ m 0 ⟨~~~0, 0, m⟩ := by
  refine ⟨fun i hi => ?_, fun i hi => ?_, ?_⟩
  · rw [table_side, table_side]
    rw [getLsbD_not, decide_eq_true (by omega), decide_eq_true rfl]
    exact congrArg (fun b => true && !b) getLsbD_zero
  · rw [table_side, table_side, decide_eq_false (by omega)]
    exact getLsbD_zero
  · rw [table_side]

theorem myersSteps_track {C : Type} (eqOf : C → BitVec 64) (hm : 0 < m) (word : m ≤ 64) (txt : List C)
    (tracks : Tracks differ m j s)
    (sees : ∀ k c, txt[k]? = some c → ∀ i, i < m → (eqOf c).getLsbD i = !differ i (j + k)) :
    Tracks differ m (j + txt.length) (txt.foldl (fun s c => myersStep (1#64 <<< (m - 1)) (eqOf c) s) s) := by
  induction txt generalizing j s with
  | nil => exact tracks
  | cons c txt ih =>
    have one := myersStep_tracks tracks (sees 0 c rfl) hm word
    have rest := ih one fun k d found i hi => by
      rw [sees (k + 1) d found i hi, show j + (k + 1) = j + 1 + k by omega]
    rwa [show j + 1 + txt.length = j + (c :: txt).length by rw [length_cons]; omega] at rest

/-- The kernel returns the distance when each mask marks where its character stands in the
pattern. -/
theorem myersBody_eq {C : Type} (value : C → Nat) (eqOf : C → BitVec 64) (pat : List Nat) (txt : List C)
    (hm : 0 < pat.length) (word : pat.length ≤ 64)
    (marks : ∀ c ∈ txt, ∀ i, i < pat.length → (eqOf c).getLsbD i = decide (pat[i]? = some (value c))) :
    myersBody eqOf pat.length txt = distance pat (txt.map value) := by
  have run := myersSteps_track eqOf hm word txt
    (tracks_start (fun i j => pat[i]? != (txt.map value)[j]?) word) fun k c found i hi => by
      rw [marks c (mem_of_getElem? found) i hi, zero_add, List.getElem?_map, found, Option.map_some, bne,
        Bool.not_not, Bool.eq_iff_iff, decide_eq_true_eq, beq_iff_eq]
  rw [myersBody, run.bottom, zero_add, ← length_map value, table_eq _ _ le_rfl le_rfl, take_length, take_length]

end Kernel

section Bytes

theorem one_shift_bit {i b : Nat} (hi : i < 64) : (1#64 <<< i).getLsbD b = decide (b = i) := by
  rw [← twoPow_eq, getLsbD_twoPow, decide_eq_true hi]
  exact decide_eq_decide.mpr eq_comm

theorem byteMasks_bit (pat : List UInt8) (i : Nat) (eqt : Nat → BitVec 64) (word : i + pat.length ≤ 64) (c b : Nat) :
    (byteMasks pat i eqt c).getLsbD b =
      ((eqt c).getLsbD b || (decide (i ≤ b) && decide ((pat.map UInt8.toNat)[b - i]? = some c))) := by
  induction pat generalizing i eqt with
  | nil => simp [byteMasks]
  | cons d pat ih =>
    rw [length_cons] at word
    rw [byteMasks, ih _ _ (by omega), map_cons]
    have bit : (update eqt d.toNat (eqt d.toNat ||| 1#64 <<< i) c).getLsbD b =
        ((eqt c).getLsbD b || (decide (b = i) && decide (d.toNat = c))) := by
      by_cases same : d.toNat = c
      · rw [← same, update_self, getLsbD_or, one_shift_bit (by omega), decide_eq_true rfl, Bool.and_true]
      · rw [update_of_ne (Ne.symm same), decide_eq_false same, Bool.and_false, Bool.or_false]
    rw [bit, Bool.or_assoc]
    congr 1
    rcases Nat.lt_trichotomy b i with below | rfl | above
    · rw [decide_eq_false (by omega), decide_eq_false (show ¬i + 1 ≤ b by omega),
        decide_eq_false (show ¬i ≤ b by omega)]
      rfl
    · rw [Nat.sub_self]
      simp
    · rw [decide_eq_false (by omega), decide_eq_true (show i + 1 ≤ b by omega), decide_eq_true (show i ≤ b by omega),
        show b - i = b - (i + 1) + 1 by omega, List.getElem?_cons_succ, Bool.false_and, Bool.false_or]

theorem levMyersU8_eq (pat txt : List UInt8) (hm : 0 < pat.length) (word : pat.length ≤ 64) :
    levMyersU8 pat txt = distance (pat.map UInt8.toNat) (txt.map UInt8.toNat) := by
  rw [levMyersU8, ← length_map UInt8.toNat]
  refine myersBody_eq UInt8.toNat _ _ txt (by rwa [length_map]) (by rwa [length_map]) fun c _ i _ => ?_
  rw [byteMasks_bit pat 0 _ (by omega)]
  exact congrArg (· || _) getLsbD_zero

end Bytes

section Points

/-- The slots in use, as the probing library sees them. -/
def eqCells (key : Nat → Nat) (s : Nat) : Option Nat := if key s = eqEmpty then none else some (key s)

variable {key : Nat → Nat}

variable {s c i : Nat}

theorem eqCells_none : eqCells key s = none ↔ key s = eqEmpty := by
  rw [eqCells]
  split <;> simp_all

theorem eqCells_some : eqCells key s = some c ↔ key s ≠ eqEmpty ∧ key s = c := by
  rw [eqCells]
  split <;> simp_all

theorem eqCells_update (real : c ≠ eqEmpty) : eqCells (update key s c) = update (eqCells key) s (some c) := by
  funext p
  by_cases here : p = s
  · rw [here, update_self, eqCells_some, update_self]
    exact ⟨real, rfl⟩
  · rw [update_of_ne here, eqCells, update_of_ne here, eqCells]

theorem eqSlot_lt c : eqSlot c < eqSlots := lt_of_le_of_lt and_le_right (by decide)

theorem ring_next (hs : s < eqSlots) : (s + 1) &&& (eqSlots - 1) = Probe.next eqSlots s := by
  unfold eqSlots at hs ⊢
  rw [Probe.next, show 256 - 1 = 2 ^ 8 - 1 by rfl, and_two_pow_sub_one_eq_mod]
  split <;> omega

theorem eqSeek_walk (key : Nat → Nat) (c fuel s : Nat) (hs : s < eqSlots) :
    eqSeek key c fuel s = walk eqSlots (eqCells key) (fun d => d == c) fuel s := by
  induction fuel generalizing s with
  | zero => rfl
  | succ fuel ih =>
    rw [eqSeek, walk, ring_next hs, ih _ (next_lt hs), eqCells]
    by_cases empty : key s = eqEmpty
    · rw [if_neg (by simp [empty]), if_pos empty]
    · rw [if_neg empty]
      by_cases here : key s = c
      · rw [if_neg (by simp [here])]
        simp [here]
      · rw [if_pos ⟨empty, here⟩]
        simp [here]

theorem eqGetFrom_seek (e : EqTable) (c : Nat) {z : Nat} (hz : z < eqSlots) (empty : e.key z = eqEmpty) (fuel s : Nat)
    (hs : s < eqSlots) (enough : dist eqSlots s z < fuel) :
    eqGetFrom e c fuel s =
      if e.key (eqSeek e.key c fuel s) = eqEmpty then 0 else e.mask (eqSeek e.key c fuel s) := by
  induction fuel generalizing s with
  | zero => omega
  | succ fuel ih =>
    rw [eqGetFrom]
    by_cases free : e.key s = eqEmpty
    · have stays : eqSeek e.key c (fuel + 1) s = s := by rw [eqSeek, if_neg fun both => both.1 free]
      rw [if_neg (not_not_intro free), stays, if_pos free]
    rw [if_pos free]
    by_cases here : e.key s = c
    · have stays : eqSeek e.key c (fuel + 1) s = s := by rw [eqSeek, if_neg fun both => both.2 here]
      rw [if_pos here, stays, if_neg free]
    · have other : s ≠ z := fun same => free (same ▸ empty)
      have step := dist_from_next hs hz other
      have goes : eqSeek e.key c (fuel + 1) s = eqSeek e.key c fuel (next eqSlots s) := by
        rw [eqSeek, if_pos ⟨free, here⟩, ring_next hs]
      rw [if_neg here, goes, ring_next hs]
      exact ih _ (next_lt hs) (by omega)

structure Built (pat : List Nat) (i : Nat) (e : EqTable) : Prop where
  reach : Probe.Reach eqSlot eqSlots (eqCells e.key)
  distinct : Probe.Distinct id eqSlots (eqCells e.key)
  load : load eqSlots (eqCells e.key) ≤ i
  masks : ∀ p, p < eqSlots → e.key p ≠ eqEmpty → ∀ b, b < 64 →
    (e.mask p).getLsbD b = (decide (b < i) && decide (pat[b]? = some (e.key p)))
  stored : ∀ b c, b < i → pat[b]? = some c → Probe.Stored eqSlots (eqCells e.key) c

theorem built_start (pat : List Nat) (masks : Nat → BitVec 64) : Built pat 0 ⟨fun _ => eqEmpty, masks⟩ := by
  have none : ∀ p, eqCells (fun _ => eqEmpty) p = none := fun p => eqCells_none.mpr rfl
  refine ⟨fun p _ d slot => ?_, fun p q d d' _ _ slot => ?_, ?_, fun p _ taken => absurd rfl taken,
    fun b c below => absurd below (not_lt_zero b)⟩
  · rw [none p] at slot
    contradiction
  · rw [none p] at slot
    contradiction
  · simp [load, none]

variable {pat : List Nat} {e : EqTable}

theorem Built.seek (built : Built pat i e) (room : i < eqSlots) (c : Nat) :
    ∃ z, z < eqSlots ∧ e.key z = eqEmpty ∧
      Probe.Stops eqSlots (eqCells e.key) (fun d => d == c) (eqSlot c) (eqSeek e.key c eqSlots (eqSlot c)) := by
  obtain ⟨z, hz, empty⟩ := load_lt_exists (lt_of_le_of_lt built.load room)
  refine ⟨z, hz, eqCells_none.mp empty, ?_⟩
  rw [eqSeek_walk _ _ _ _ (eqSlot_lt c)]
  exact walk_stops _ hz empty _ _ (eqSlot_lt c) (dist_lt (eqSlot_lt c) hz)

/-- The probe ends at the character's slot, or at a free one when the table does not have it. -/
theorem Built.found (built : Built pat i e) (room : i < eqSlots) (c : Nat) :
    (e.key (eqSeek e.key c eqSlots (eqSlot c)) ≠ eqEmpty ∧ e.key (eqSeek e.key c eqSlots (eqSlot c)) = c) ∨
      (e.key (eqSeek e.key c eqSlots (eqSlot c)) = eqEmpty ∧ ¬Probe.Stored eqSlots (eqCells e.key) c) := by
  obtain ⟨z, hz, empty, stops⟩ := built.seek room c
  rcases find_spec built.reach stops (fun d same => by rw [beq_iff_eq.mp same]) (eqSlot_lt c) with
    ⟨d, slot, same⟩ | ⟨free, absent⟩
  · obtain ⟨real, value⟩ := eqCells_some.mp slot
    exact .inl ⟨real, value.trans (beq_iff_eq.mp same)⟩
  · exact .inr ⟨eqCells_none.mp free, absent c (beq_self_eq_true c)⟩

theorem eqAdd_built (built : Built pat i e) (word : i < 64)
    (at_i : pat[i]? = some c) (real : c ≠ eqEmpty) : Built pat (i + 1) (eqAdd e c i) := by
  have room : i < eqSlots := by
    unfold eqSlots
    omega
  obtain ⟨z, -, -, stops⟩ := built.seek room c
  have found := built.found room c
  rw [eqAdd]
  generalize eqSeek e.key c eqSlots (eqSlot c) = s at stops found ⊢
  have elsewhere : ∀ p, p < eqSlots → e.key p ≠ eqEmpty → e.key p ≠ c → ∀ b, b < 64 →
      (e.mask p).getLsbD b = (decide (b < i + 1) && decide (pat[b]? = some (e.key p))) := by
    intro p hp other apart b hb
    rw [built.masks p hp other b hb]
    by_cases last : b = i
    · rw [last, at_i, decide_eq_false (fun eq => apart (Option.some.inj eq).symm),
        Bool.and_false, Bool.and_false]
    · rw [decide_eq_decide.mpr (show b < i ↔ b < i + 1 by omega)]
  rcases found with ⟨taken, here⟩ | ⟨free, absent⟩
  · rw [if_neg taken]
    refine ⟨built.reach, built.distinct, le_succ_of_le built.load, fun p hp other b hb => ?_,
      fun b d below at_b => ?_⟩
    · dsimp only
      by_cases same : p = s
      · subst same
        rw [update_self, getLsbD_or, one_shift_bit word, built.masks p hp other b hb, here]
        by_cases last : b = i
        · rw [last, at_i]
          simp
        · rw [decide_eq_false last, Bool.or_false, decide_eq_decide.mpr (show b < i ↔ b < i + 1 by omega)]
      · rw [update_of_ne same]
        exact elsewhere p hp other (fun key => same (built.distinct p s c c hp stops.inside
          (eqCells_some.mpr ⟨other, key⟩) (eqCells_some.mpr ⟨taken, here⟩) rfl)) b hb
    · by_cases last : b = i
      · rw [last, at_i] at at_b
        exact ⟨s, stops.inside, eqCells_some.mpr ⟨taken, here.trans (Option.some.inj at_b)⟩⟩
      · exact built.stored b d (by omega) at_b
  · have empty : eqCells e.key s = none := eqCells_none.mpr free
    rw [if_pos free]
    refine ⟨?_, ?_, ?_, fun p hp other b hb => ?_, fun b d below at_b => ?_⟩
    · rw [eqCells_update real]
      refine place_spec built.reach ⟨stops.inside, fun q hq near => ?_, .inl empty⟩ (eqSlot_lt c)
      obtain ⟨d, slot, -⟩ := stops.passed q hq near
      exact ⟨d, slot, rfl⟩
    · rw [eqCells_update real]
      refine place_distinct built.distinct fun d held same => absent ?_
      rwa [show d = c from same] at held
    · rw [eqCells_update real, load_fill stops.inside empty]
      exact succ_le_succ built.load
    · change update e.key s c p ≠ eqEmpty at other
      change (update (update e.mask s 0) s (update e.mask s 0 s ||| 1#64 <<< i) p).getLsbD b =
          (decide (b < i + 1) && decide (pat[b]? = some (update e.key s c p)))
      by_cases same : p = s
      · subst same
        have none_before : ∀ b, b < i → pat[b]? ≠ some c := fun b below at_b => absent (built.stored b c below at_b)
        rw [update_self, update_self, update_self, getLsbD_or, one_shift_bit word]
        rw [show getLsbD 0 b = false from getLsbD_zero, Bool.false_or]
        by_cases last : b = i
        · rw [last, at_i]
          simp
        · rw [decide_eq_false last]
          by_cases below : b < i
          · rw [decide_eq_false (none_before b below), Bool.and_false]
          · rw [decide_eq_false (by omega), Bool.false_and]
      · rw [update_of_ne same] at other
        rw [update_of_ne same, update_of_ne same, update_of_ne same]
        exact elsewhere p hp other (fun key => absent ⟨p, hp, eqCells_some.mpr ⟨other, key⟩⟩) b hb
    · rw [eqCells_update real, stored_place stops.inside empty]
      by_cases last : b = i
      · rw [last, at_i] at at_b
        exact .inl (Option.some.inj at_b).symm
      · exact .inr (built.stored b d (by omega) at_b)

theorem eqAddAll_built (rest : List Nat) (built : Built pat i e)
    (tail : pat.drop i = rest) (inside : i ≤ pat.length) (word : pat.length ≤ 64) (real : ∀ c ∈ pat, c ≠ eqEmpty) :
    Built pat pat.length (eqAddAll rest i e) := by
  induction rest generalizing i e with
  | nil =>
    have last : i = pat.length := le_antisymm inside (drop_eq_nil_iff.mp tail)
    rw [← last]
    exact built
  | cons c rest ih =>
    have below : i < pat.length := by
      by_contra past
      rw [drop_eq_nil_of_le (by omega)] at tail
      contradiction
    have split : pat[i] = c ∧ pat.drop (i + 1) = rest := by
      rw [drop_eq_getElem_cons below] at tail
      exact List.cons.inj tail
    have at_i : pat[i]? = some c := by rw [List.getElem?_eq_getElem below, split.1]
    exact ih (eqAdd_built built (by omega) at_i (real c (mem_of_getElem? at_i))) split.2 below

theorem eqGet_bit (word : pat.length ≤ 64) (real : ∀ c ∈ pat, c ≠ eqEmpty)
    (c b : Nat) (hb : b < 64) : (eqGet (eqBuild masks pat) c).getLsbD b = decide (pat[b]? = some c) := by
  have built := eqAddAll_built pat (built_start pat masks) rfl (Nat.zero_le _) word real
  have room : pat.length < eqSlots := by
    unfold eqSlots
    omega
  rw [← eqBuild] at built
  obtain ⟨z, hz, empty, stops⟩ := built.seek room c
  rw [eqGet, eqGetFrom_seek _ _ hz empty _ _ (eqSlot_lt c) (dist_lt (eqSlot_lt c) hz)]
  rcases built.found room c with ⟨taken, here⟩ | ⟨free, absent⟩
  · rw [if_neg taken, built.masks _ stops.inside taken b hb, here]
    by_cases inside : b < pat.length
    · rw [decide_eq_true inside, Bool.true_and]
    · rw [decide_eq_false inside, Bool.false_and, List.getElem?_eq_none (by omega), decide_eq_false nofun]
  · rw [if_pos free, decide_eq_false fun at_b => absent (built.stored b c ?_ at_b)]
    · exact getLsbD_zero
    · exact (List.getElem?_eq_some_iff.mp at_b).1

theorem levMyersCp_eq (pat txt : List Nat) (hm : 0 < pat.length) (word : pat.length ≤ 64)
    (real : ∀ c ∈ pat, c ≠ eqEmpty) : levMyersCp masks pat txt = distance pat txt := by
  have kernel := myersBody_eq id (eqGet (eqBuild masks pat)) pat txt hm word fun c _ i hi =>
    eqGet_bit masks word real c i (by omega)
  rwa [map_id] at kernel

end Points

end DynaJS.Approx
