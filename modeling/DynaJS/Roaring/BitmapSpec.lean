import DynaJS.Roaring.Bitmap
import DynaJS.Roaring.ContainerSpec

/-! What a bitmap denotes, and the single-chunk operations: each replaces the
values of one chunk and leaves the others alone. -/
namespace DynaJS.Roaring

open DynaJS.BitSet List

structure Rb.Valid (r : Rb) : Prop where
  sorted : r.keys.Pairwise (· < ·)
  valid : ∀ c ∈ r.c, c.Valid
  small : ∀ c ∈ r.c, c.key < chunkSize
  room : r.c.length ≤ r.cap

def InChunk (cs : List Ct) (k v : Nat) : Prop := ∃ c ∈ cs, c.key = k ∧ v ∈ c.body.members

def Rb.Has (r : Rb) (x : Nat) : Prop := InChunk r.c (x / chunkSize) (x % chunkSize)

structure Around (L R : List Ct) (k : Nat) : Prop where
  below : ∀ c ∈ L, c.key < k
  above : ∀ c ∈ R, k < c.key
  sortedL : L.Pairwise fun c d => c.key < d.key
  sortedR : R.Pairwise fun c d => c.key < d.key
  valid : ∀ c ∈ L ++ R, c.Valid
  small : ∀ c ∈ L ++ R, c.key < chunkSize

theorem keys_sorted {r : Rb} : r.keys.Pairwise (· < ·) ↔ r.c.Pairwise fun c d => c.key < d.key := pairwise_map

variable {L R : List Ct}

theorem Around.join {k cap : Nat} (around : Around L R k) {t : Ct} (key : t.key = k)
    (valid : t.Valid) (small : k < chunkSize) (room : L.length + R.length + 1 ≤ cap) :
    Rb.Valid ⟨L ++ t :: R, cap⟩ := by
  refine ⟨keys_sorted.mpr ?_, fun c member => ?_, fun c member => ?_, ?_⟩
  · refine pairwise_append.mpr ⟨around.sortedL, pairwise_cons.mpr ⟨?_, around.sortedR⟩, ?_⟩
    · intro d member
      rw [key]
      exact around.above d member
    · intro c low d high
      have := around.below c low
      rcases mem_cons.mp high with rfl | high
      · omega
      · have := around.above d high
        omega
  · rcases mem_append.mp member with low | high
    · exact around.valid c (mem_append_left _ low)
    · rcases mem_cons.mp high with rfl | high
      · exact valid
      · exact around.valid c (mem_append_right _ high)
  · rcases mem_append.mp member with low | high
    · exact around.small c (mem_append_left _ low)
    · rcases mem_cons.mp high with rfl | high
      · rw [key]
        exact small
      · exact around.small c (mem_append_right _ high)
  · simp only [length_append, length_cons]
    omega

theorem Around.skip {k cap : Nat} (around : Around L R k)
    (room : L.length + R.length ≤ cap) : Rb.Valid ⟨L ++ R, cap⟩ := by
  refine ⟨keys_sorted.mpr ?_, around.valid, around.small, ?_⟩
  · refine pairwise_append.mpr ⟨around.sortedL, around.sortedR, fun c low d high => ?_⟩
    have := around.below c low
    have := around.above d high
    omega
  · simpa only [length_append] using room

theorem Around.absent {k : Nat} (around : Around L R k) (v : Nat) : ¬ InChunk (L ++ R) k v := by
  rintro ⟨c, member, key, _⟩
  rcases mem_append.mp member with low | high
  · have := around.below c low
    omega
  · have := around.above c high
    omega

theorem inChunk_join {k : Nat} (around : Around L R k) {t : Ct} (key : t.key = k) (j v : Nat) :
    InChunk (L ++ t :: R) j v ↔ if j = k then v ∈ t.body.members else InChunk (L ++ R) j v := by
  have split : InChunk (L ++ t :: R) j v ↔ (t.key = j ∧ v ∈ t.body.members) ∨ InChunk (L ++ R) j v := by
    simp only [InChunk, mem_append, mem_cons]
    constructor
    · rintro ⟨c, low | rfl | high, rest⟩
      · exact .inr ⟨c, .inl low, rest⟩
      · exact .inl rest
      · exact .inr ⟨c, .inr high, rest⟩
    · rintro (here | ⟨c, low | high, rest⟩)
      · exact ⟨t, .inr (.inl rfl), here⟩
      · exact ⟨c, .inl low, rest⟩
      · exact ⟨c, .inr (.inr high), rest⟩
  rw [split]
  by_cases same : j = k
  · subst same
    simp [key, around.absent v]
  · have other : ¬ t.key = j := by rw [key]; exact fun eq => same eq.symm
    simp [same, other]

def Updates (r r' : Rb) (k : Nat) (s : Finset Nat) : Prop :=
  r'.Valid ∧ ∀ j v, InChunk r'.c j v ↔ if j = k then v ∈ s else InChunk r.c j v

inductive Located (r : Rb) (k : Nat) : Prop where
  | here (L R : List Ct) (c : Ct) (split : r.c = L ++ c :: R) (key : c.key = k) (valid : c.Valid)
      (around : Around L R k) (found : rbFind r k = (true, L.length))
  | absent (L R : List Ct) (split : r.c = L ++ R) (around : Around L R k) (found : rbFind r k = (false, L.length))

theorem rbFind_located {r : Rb} (valid : r.Valid) (k : Nat) : Located r k := by
  have cut := Search.lowerBound_cut valid.sorted k
  have hit := cut.mem_iff valid.sorted
  obtain ⟨pos, place⟩ : ∃ pos, pos = Search.lowerBound (fun m => ¬ r.keys.getD m 0 < k) 0 r.keys.length := ⟨_, rfl⟩
  rw [← place] at cut hit
  have inside : pos ≤ r.c.length := by simpa [Rb.keys] using cut.inside
  have result : rbFind r k = (decide (k ∈ r.keys), pos) := by
    simp only [rbFind, ← place, hit]
  have sorted := keys_sorted.mp valid.sorted
  have below : ∀ c ∈ r.c.take pos, c.key < k := fun c member =>
    cut.below c.key (by rw [Rb.keys, ← map_take]; exact mem_map_of_mem member)
  have above : ∀ c ∈ r.c.drop pos, k ≤ c.key := fun c member =>
    cut.above c.key (by rw [Rb.keys, ← map_drop]; exact mem_map_of_mem member)
  have length : (r.c.take pos).length = pos := by simp [inside]
  by_cases member : k ∈ r.keys
  · have here := hit.mpr member
    have lt : pos < r.c.length := by simpa [Rb.keys] using here.1
    have key : r.c[pos].key = k := by
      have := here.2
      rw [getD_eq_getElem _ _ here.1] at this
      simpa [Rb.keys] using this
    have split : r.c = r.c.take pos ++ r.c[pos] :: r.c.drop (pos + 1) := by
      rw [← drop_eq_getElem_cons lt, take_append_drop]
    have parts := sorted
    rw [split] at parts
    obtain ⟨sortedL, sortedR, _⟩ := pairwise_append.mp parts
    obtain ⟨after, sortedR⟩ := pairwise_cons.mp sortedR
    refine .here _ _ _ split key (valid.valid _ (getElem_mem lt)) ⟨below, ?_, sortedL, sortedR, ?_, ?_⟩
      (by rw [result, length]; simp [member])
    · intro c high
      rw [← key]
      exact after c high
    · intro c part
      refine valid.valid c ?_
      rcases mem_append.mp part with low | high
      · exact mem_of_mem_take low
      · exact mem_of_mem_drop high
    · intro c part
      refine valid.small c ?_
      rcases mem_append.mp part with low | high
      · exact mem_of_mem_take low
      · exact mem_of_mem_drop high
  · have parts := sorted
    rw [← take_append_drop pos r.c] at parts
    obtain ⟨sortedL, sortedR, _⟩ := pairwise_append.mp parts
    refine .absent _ _ (take_append_drop pos r.c).symm ⟨below, ?_, sortedL, sortedR, ?_, ?_⟩
      (by rw [result, length]; simp [member])
    · intro c high
      refine lt_of_le_of_ne (above c high) fun same => member ?_
      rw [same]
      exact mem_map_of_mem (mem_of_mem_drop high)
    · rw [take_append_drop]
      exact valid.valid
    · rw [take_append_drop]
      exact valid.small

def chunkOf (cs : List Ct) (k : Nat) : Finset Nat :=
  ((cs.find? fun c => c.key = k).map fun c => c.body.members).getD ∅

def Rb.chunk (r : Rb) (k : Nat) : Finset Nat := chunkOf r.c k

section Parts

variable {r : Rb} {L R : List Ct} {c : Ct} {k : Nat}

section

variable (split : r.c = L ++ c :: R)
include split

theorem chunk_here (key : c.key = k) (around : Around L R k) : r.chunk k = c.body.members := by
  have before : L.find? (fun c => c.key = k) = none := by
    refine List.find?_eq_none.mpr fun d member => ?_
    have := around.below d member
    simp only [decide_eq_true_eq]
    omega
  simp [Rb.chunk, chunkOf, split, List.find?_append, before, key]

omit split in
theorem chunk_absent (split : r.c = L ++ R) (around : Around L R k) : r.chunk k = ∅ := by
  have nowhere : (L ++ R).find? (fun c => c.key = k) = none := by
    refine List.find?_eq_none.mpr fun d member => ?_
    simp only [decide_eq_true_eq]
    rcases mem_append.mp member with low | high
    · have := around.below d low
      omega
    · have := around.above d high
      omega
  simp [Rb.chunk, chunkOf, split, nowhere]

theorem at_here : r.at L.length = c := by
  simp [Rb.at, split]

theorem setAt_here (t : Ct) : setAt r L.length t = ⟨L ++ t :: R, r.cap⟩ := by
  simp [setAt, split]

theorem removeAt_here : removeAt r L.length = ⟨L ++ R, r.cap⟩ := by
  simp [removeAt, split, eraseIdx_append_of_length_le (Nat.le_refl L.length)]

end

section

variable (valid : r.Valid)
include valid

section

variable (split : r.c = L ++ c :: R)
include split

theorem room_here : L.length + R.length + 1 ≤ r.cap := by
  have := valid.room
  rw [split] at this
  simp only [length_append, length_cons] at this
  omega

theorem updates_set (key : c.key = k)
    (around : Around L R k) {t : Ct} {s : Finset Nat} (holds : t.Holds k s) (some : s.Nonempty) :
    Updates r (setAt r L.length t) k s := by
  have small : k < chunkSize := key ▸ valid.small c (by simp [split])
  rw [setAt_here split]
  refine ⟨around.join holds.key (holds.valid some) small (room_here valid split), fun j v => ?_⟩
  rw [inChunk_join around holds.key, holds.members, split, inChunk_join around key]
  by_cases same : j = k <;> simp [same]

theorem updates_remove (key : c.key = k) (around : Around L R k) : Updates r (removeAt r L.length) k ∅ := by
  have room := room_here valid split
  rw [removeAt_here split]
  refine ⟨around.skip (by omega), fun j v => ?_⟩
  rw [split, inChunk_join around key]
  by_cases same : j = k
  · subst same
    simp [around.absent v]
  · simp [same]

end

theorem inChunk_chunk (k v : Nat) : InChunk r.c k v ↔ v ∈ r.chunk k := by
  rcases rbFind_located valid k with ⟨L, R, c, split, key, _, around, _⟩ | ⟨L, R, split, around, _⟩
  · rw [chunk_here split key around, split, inChunk_join around key]
    simp
  · rw [chunk_absent split around, split]
    simp [around.absent v]

theorem updates_refl (k : Nat) : Updates r r k (r.chunk k) := by
  refine ⟨valid, fun j v => ?_⟩
  by_cases same : j = k
  · simp [same, inChunk_chunk valid]
  · simp [same]

end

theorem doubleCap_enough (need fuel ncap : Nat) (enough : need ≤ fuel + ncap) (pos : 0 < ncap) :
    need ≤ doubleCap need fuel ncap := by
  induction fuel generalizing ncap with
  | zero => simpa [doubleCap] using enough
  | succ fuel ih =>
    unfold doubleCap
    split_ifs with small
    · exact ih _ (by omega) (by omega)
    · omega

theorem rbReserve_spec (r : Rb) (need : Nat) (mem : Memory) :
    (∃ r', rbReserve r need mem = some r' ∧ r'.c = r.c ∧ need ≤ r'.cap ∧ r.cap ≤ r'.cap) ∨
    (rbReserve r need mem = none ∧ mem .reserve = false) := by
  have enough : need ≤ doubleCap need need (if r.cap = 0 then 4 else r.cap * 2) :=
    doubleCap_enough _ _ _ (by omega) (by split_ifs <;> omega)
  unfold rbReserve
  by_cases fits : need ≤ r.cap
  · rw [if_pos fits]
    exact .inl ⟨r, rfl, rfl, fits, Nat.le_refl _⟩
  · rw [if_neg fits]
    by_cases ok : mem .reserve = true
    · rw [if_pos ok]
      exact .inl ⟨_, rfl, rfl, enough, by simp only; omega⟩
    · rw [if_neg ok]
      exact .inr ⟨rfl, by simpa using ok⟩

variable (split : r.c = L ++ R)
include split

theorem insertAt_spec (mem : Memory) :
    (∃ r', insertAt r L.length k mem = some r' ∧ r'.c = L ++ ⟨k, .none, 0, 0⟩ :: R ∧
      L.length + R.length + 1 ≤ r'.cap ∧ r.cap ≤ r'.cap) ∨
    (insertAt r L.length k mem = none ∧ mem .reserve = false) := by
  unfold insertAt
  rcases rbReserve_spec r (r.c.length + 1) mem with ⟨r', done, same, fits, more⟩ | ⟨failed, site⟩
  · rw [done]
    refine .inl ⟨_, rfl, ?_, ?_, more⟩
    · simp [same, split]
    · rw [split, length_append] at fits
      exact fits
  · rw [failed]
    exact .inr ⟨rfl, site⟩

theorem updates_insert (around : Around L R k) (small : k < chunkSize)
    {r' : Rb} (made : r'.c = L ++ ⟨k, .none, 0, 0⟩ :: R) (room : L.length + R.length + 1 ≤ r'.cap)
    {t : Ct} {s : Finset Nat} (holds : t.Holds k s) (some : s.Nonempty) :
    Updates r (setAt r' L.length t) k s := by
  rw [setAt_here made]
  refine ⟨around.join holds.key (holds.valid some) small room, fun j v => ?_⟩
  rw [inChunk_join around holds.key, holds.members, split]

theorem updates_uninsert (around : Around L R k)
    {r' : Rb} (made : r'.c = L ++ ⟨k, .none, 0, 0⟩ :: R) (room : L.length + R.length + 1 ≤ r'.cap) :
    Updates r (removeAt r' L.length) k ∅ := by
  rw [removeAt_here made]
  refine ⟨around.skip (by omega), fun j v => ?_⟩
  rw [split]
  by_cases same : j = k
  · subst same
    simp [around.absent v]
  · simp [same]

end Parts

end DynaJS.Roaring
