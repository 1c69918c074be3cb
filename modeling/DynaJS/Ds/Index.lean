import DynaJS.Ds.Reserve
import DynaJS.Lib.Probe

/-! The hash index `dyn_ix` of `dyn-ds.c`, shared by the multiset, the multimap, the
bimap and the table: linear probing over a power of two of slots, with a backward shift
on deletion. A slot is empty when its stored hash is zero. -/
namespace DynaJS.Ds

open Function Nat Probe

structure IxSlot (K : Type) where
  h : Nat
  key : K
  idx : Nat
deriving DecidableEq

structure Ix (K : Type) where
  cap : Nat
  used : Nat
  slot : Nat → Option (IxSlot K)

variable {K : Type}

def ixEmpty : Ix K := ⟨0, 0, fun _ => none⟩

def freeSlot (slot : Nat → Option (IxSlot K)) (mask : Nat) : Nat → Nat → Nat
  | 0, i => i
  | fuel + 1, i => if (slot i).isSome then freeSlot slot mask fuel ((i + 1) &&& mask) else i

def ixPutRaw (slot : Nat → Option (IxSlot K)) (mask : Nat) (e : IxSlot K) : Nat → Option (IxSlot K) :=
  update slot (freeSlot slot mask (mask + 1) (e.h % 2 ^ 32 &&& mask)) (some e)

variable (ix : Ix K)

def ixGrow (ok : Bool) : Option (Ix K) :=
  let nc := if ix.cap = 0 then 8 else ix.cap * 2 % 2 ^ 32
  if 0x40000000 < ix.cap then none
  else if ok then
    some { ix with
      cap := nc
      slot := (List.range ix.cap).foldl (fun ns i =>
        match ix.slot i with
        | none => ns
        | some e => ixPutRaw ns (nc - 1) e) fun _ => none }
  else none

def findLoop [DecidableEq K] (slot : Nat → Option (IxSlot K)) (mask h : Nat) (k : K) : Nat → Nat → Option Nat
  | 0, _ => none
  | fuel + 1, i =>
    match slot i with
    | none => none
    | some e => if e.h = h ∧ e.key = k then some i else findLoop slot mask h k fuel ((i + 1) &&& mask)

def ixFind [DecidableEq K] (h : Nat) (k : K) : Option Nat :=
  if ix.cap = 0 then none
  else findLoop ix.slot (ix.cap - 1) h k ix.cap (h % 2 ^ 32 &&& (ix.cap - 1))

/-- `ix_reserve`: the load test is `uint32_t` arithmetic. -/
def ixReserve (ok : Bool) : Option (Ix K) :=
  if ix.cap * 7 % 2 ^ 32 ≤ (ix.used + 1) * 10 % 2 ^ 32 then ixGrow ix ok else some ix

def ixInsert (h : Nat) (k : K) (idx : Nat) (ok : Bool) : Option (Ix K) := (ixReserve ix ok).map fun ix =>
    { ix with slot := ixPutRaw ix.slot (ix.cap - 1) ⟨h, k, idx⟩, used := ix.used + 1 }

def eraseLoop (mask : Nat) : Nat → (Nat → Option (IxSlot K)) → Nat → Nat → Nat → Option (IxSlot K)
  | 0, slot, _, _ => slot
  | fuel + 1, slot, i, j =>
    match slot j with
    | none => slot
    | some e =>
      let k := e.h % 2 ^ 32 &&& mask
      if (if i < j then k ≤ i ∨ j < k else k ≤ i ∧ j < k) then
        eraseLoop mask fuel (update (update slot i (some e)) j none) j ((j + 1) &&& mask)
      else eraseLoop mask fuel slot i ((j + 1) &&& mask)

def ixErase (pos : Nat) : Ix K := { ix with
    slot := eraseLoop (ix.cap - 1) ix.cap (update ix.slot pos none) pos ((pos + 1) &&& (ix.cap - 1))
    used := ix.used - 1 }

def Ix.idxAt (pos : Nat) : Nat :=
  match ix.slot pos with
  | none => 0
  | some e => e.idx

def Ix.setIdx (pos idx : Nat) : Ix K :=
  { ix with slot := update ix.slot pos ((ix.slot pos).map fun e => { e with idx := idx }) }

def ixMove [DecidableEq K] (h : Nat) (k : K) (idx : Nat) : Ix K :=
  match ixFind ix h k with
  | none => ix
  | some pos => ix.setIdx pos idx

def ixGet [DecidableEq K] (hash : K → Nat) (ix : Ix K) (k : K) : Option Nat := (ixFind ix (hash k) k).map ix.idxAt

/-! Masking with a power of two less one is the arithmetic of the ring. -/

variable {cap : Nat}

theorem capacity_pow (h : Capacity cap) (pos : 0 < cap) : ∃ k, k ≤ 31 ∧ cap = 2 ^ k := by
  rcases h with rfl | ⟨k, hk, rfl⟩
  · omega
  · exact ⟨k + 3, by omega, by rw [pow_add]; omega⟩

theorem mask_home (h : Capacity cap) (pos : 0 < cap) (x : Nat) : x % 2 ^ 32 &&& (cap - 1) = x % cap := by
  obtain ⟨k, hk, rfl⟩ := capacity_pow h pos
  rw [and_two_pow_sub_one_eq_mod, mod_mod_of_dvd _ (pow_dvd_pow 2 (by omega))]

theorem mask_next {cap i : Nat} (h : Capacity cap) (hi : i < cap) : (i + 1) &&& (cap - 1) = next cap i := by
  obtain ⟨k, hk, rfl⟩ := capacity_pow h (by omega)
  rw [and_two_pow_sub_one_eq_mod, next]
  split_ifs with inside
  · exact mod_eq_of_lt inside
  · rw [show i + 1 = 2 ^ k by omega, mod_self]

def IxSlot.home (cap : Nat) (e : IxSlot K) : Nat := e.h % cap

theorem freeSlot_walk (h : Capacity cap) (slot : Nat → Option (IxSlot K)) (fuel i : Nat) (hi : i < cap) :
    freeSlot slot (cap - 1) fuel i = walk cap slot (fun _ => false) fuel i := by
  induction fuel generalizing i with
  | zero => rfl
  | succ fuel ih =>
    unfold freeSlot walk
    cases slot i with
    | none => rfl
    | some e => simp [mask_next h hi, ih _ (next_lt hi)]

theorem findLoop_walk [DecidableEq K] (hc : Capacity cap) (slot : Nat → Option (IxSlot K)) (h : Nat)
    (k : K) {z : Nat} (hz : z < cap) (empty : slot z = none) (fuel i : Nat) (hi : i < cap)
    (enough : dist cap i z < fuel) :
    findLoop slot (cap - 1) h k fuel i =
      (slot (walk cap slot (fun e => decide (e.h = h ∧ e.key = k)) fuel i)).map
        fun _ => walk cap slot (fun e => decide (e.h = h ∧ e.key = k)) fuel i := by
  induction fuel generalizing i with
  | zero => omega
  | succ fuel ih =>
    unfold findLoop walk
    cases found : slot i with
    | none => simp [found]
    | some e =>
      have step := dist_from_next hi hz (ne_of_full found empty)
      by_cases hit : e.h = h ∧ e.key = k
      · simp [hit, found]
      · simp only [hit, decide_false, Bool.false_eq_true, if_false, mask_next hc hi]
        exact ih _ (next_lt hi) (by omega)

/-- The test of `ix_erase` asks whether the hole lies on the entry's way from home. -/
theorem erase_test {cap i j k : Nat} (hi : i < cap) (hk : k < cap) (other : i ≠ j) :
    (if i < j then k ≤ i ∨ j < k else k ≤ i ∧ j < k) ↔ Probe.dist cap i j ≤ Probe.dist cap k j := by
  unfold Probe.dist
  split_ifs <;> omega

theorem eraseLoop_shift (hc : Capacity cap) (pos : 0 < cap) (fuel : Nat)
    (slot : Nat → Option (IxSlot K)) (i j : Nat) (hi : i < cap) (hj : j < cap)
    (hole : slot i = none) :
    eraseLoop (cap - 1) fuel slot i j = shift (IxSlot.home cap) cap fuel slot i j := by
  induction fuel generalizing slot i j with
  | zero => rfl
  | succ fuel ih =>
    unfold eraseLoop shift
    cases found : slot j with
    | none => rfl
    | some e =>
      have other := (ne_of_full found hole).symm
      have home : e.h % 2 ^ 32 &&& (cap - 1) = e.home cap := mask_home hc pos e.h
      have inside : e.home cap < cap := mod_lt _ pos
      dsimp only
      rw [home, mask_next hc hj]
      by_cases moves : dist cap i j ≤ dist cap (e.home cap) j
      · rw [if_pos ((erase_test hi inside other).mpr moves), if_pos moves]
        exact ih _ j _ hj (next_lt hj) (update_self ..)
      · rw [if_neg (fun test => moves ((erase_test hi inside other).mp test)), if_neg moves]
        exact ih _ i _ hi (next_lt hj) hole

/-- What every operation keeps. The load stays below seven tenths; the last two bounds
are where the 32-bit load test stops growth for good. -/
structure Ix.Valid (hash : K → Nat) (ix : Ix K) : Prop where
  capacity : Capacity ix.cap
  load : load ix.cap ix.slot = ix.used
  room : ix.used * 10 < ix.cap * 7 ∨ ix.cap = 0
  hashes : ∀ p, p < ix.cap → ∀ e, ix.slot p = some e → e.h = hash e.key
  reach : Probe.Reach (IxSlot.home ix.cap) ix.cap ix.slot
  distinct : Probe.Distinct IxSlot.key ix.cap ix.slot
  half : ix.cap ≤ 2 ^ 30 → ix.used ≤ 375809639
  full : ix.used ≤ 375809640

variable {hash : K → Nat}

theorem ixEmpty_valid : (ixEmpty : Ix K).Valid hash := by
  refine ⟨.inl rfl, rfl, .inr rfl, ?_, ?_, ?_, ?_, ?_⟩ <;> simp [ixEmpty, Probe.Reach, Probe.Distinct]

/-- What lookups rest on: entries are where their hash leads, and there is an empty
slot. -/
structure Ix.Sound (hash : K → Nat) (ix : Ix K) : Prop where
  capacity : Capacity ix.cap
  load : load ix.cap ix.slot = ix.used
  spare : ix.used < ix.cap ∨ ix.cap = 0
  hashes : ∀ p, p < ix.cap → ∀ e, ix.slot p = some e → e.h = hash e.key
  reach : Probe.Reach (IxSlot.home ix.cap) ix.cap ix.slot
  distinct : Probe.Distinct IxSlot.key ix.cap ix.slot

variable {ix : Ix K}

theorem Ix.Valid.sound (v : ix.Valid hash) : ix.Sound hash where
  capacity := v.capacity
  load := v.load
  spare := v.room.imp (fun _ => by omega) id
  hashes := v.hashes
  reach := v.reach
  distinct := v.distinct

theorem Ix.Sound.hole (v : ix.Sound hash) (pos : 0 < ix.cap) : ∃ z, z < ix.cap ∧ ix.slot z = none := by
  apply Probe.load_lt_exists
  rw [v.load]
  rcases v.spare with spare | zero <;> omega

def Ix.Maps (hash : K → Nat) (ix : Ix K) (k : K) (i : Nat) : Prop := Probe.Stored ix.cap ix.slot ⟨hash k, k, i⟩

theorem Ix.Sound.maps_unique (v : ix.Sound hash) {k : K} {i j : Nat}
    (hi : ix.Maps hash k i) (hj : ix.Maps hash k j) : i = j := by
  obtain ⟨p, hp, slot⟩ := hi
  obtain ⟨q, hq, slot'⟩ := hj
  have same := v.distinct p q _ _ hp hq slot slot' rfl
  subst same
  rw [slot] at slot'
  simpa using slot'

theorem Ix.Sound.stored_maps (v : ix.Sound hash) {e : IxSlot K}
    (stored : Probe.Stored ix.cap ix.slot e) : ix.Maps hash e.key e.idx := by
  obtain ⟨p, hp, slot⟩ := stored
  refine ⟨p, hp, ?_⟩
  rw [slot, ← v.hashes p hp e slot]

variable [DecidableEq K]

theorem Ix.Sound.find_spec (v : ix.Sound hash) (k : K) :
    (∃ p i, ixFind ix (hash k) k = some p ∧ p < ix.cap ∧ ix.slot p = some ⟨hash k, k, i⟩) ∨
      (ixFind ix (hash k) k = none ∧ ∀ i, ¬ ix.Maps hash k i) := by
  by_cases none : ix.cap = 0
  · refine .inr ⟨by simp [ixFind, none], ?_⟩
    rintro i ⟨p, hp, _⟩
    omega
  have pos : 0 < ix.cap := by omega
  obtain ⟨z, hz, empty⟩ := v.hole pos
  have start : hash k % ix.cap < ix.cap := mod_lt _ pos
  simp only [ixFind, if_neg none, mask_home v.capacity pos]
  rw [findLoop_walk v.capacity ix.slot (hash k) k hz empty ix.cap _ start (Probe.dist_lt start hz)]
  have stops := Probe.walk_stops (fun e => decide (e.h = hash k ∧ e.key = k))
    hz empty ix.cap _ start (Probe.dist_lt start hz)
  have found := Probe.find_spec v.reach stops (fun e hit => by
    simp only [decide_eq_true_eq] at hit
    rw [IxSlot.home, hit.1]) start
  generalize Probe.walk ix.cap ix.slot (fun e => decide (e.h = hash k ∧ e.key = k)) ix.cap
    (hash k % ix.cap) = r at *
  rcases found with ⟨e, slot, hit⟩ | ⟨slot, absent⟩
  · simp only [decide_eq_true_eq] at hit
    refine .inl ⟨r, e.idx, by simp [slot], stops.inside, ?_⟩
    rw [slot, ← hit.1, ← hit.2]
  · refine .inr ⟨by simp [slot], fun i => absent _ ?_⟩
    simp

theorem Ix.Sound.get_iff (v : ix.Sound hash) (k : K) (i : Nat) : ixGet hash ix k = some i ↔ ix.Maps hash k i := by
  rcases v.find_spec k with ⟨p, j, found, hp, slot⟩ | ⟨missing, absent⟩
  · have here : ix.Maps hash k j := ⟨p, hp, slot⟩
    simp only [ixGet, found, Option.map_some, Ix.idxAt, slot, Option.some.injEq]
    constructor
    · rintro rfl
      exact here
    · exact v.maps_unique here
  · simp only [ixGet, missing, Option.map_none, reduceCtorEq, false_iff]
    exact absent i

theorem ixGet_iff (v : ix.Valid hash) (k : K) (i : Nat) : ixGet hash ix k = some i ↔ ix.Maps hash k i :=
  v.sound.get_iff k i

end DynaJS.Ds
