import DynaJS.Roaring.BitmapSpec

/-! `rb_add`, `rb_remove` and one chunk of `rb_range`: what each does to its chunk,
and what it leaves behind when an allocation fails. -/
namespace DynaJS.Roaring

open DynaJS.BitSet List Finset

variable {r : Rb}

theorem high_small {x : Nat} (inside : x < 2 ^ 32) : x / chunkSize < chunkSize := by
  unfold chunkSize
  omega

theorem low_small x : x % chunkSize < chunkSize := Nat.mod_lt _ (by decide)

def Adds (r : Rb) (k lo : Nat) (mem : Memory) (result : Int × Rb) : Prop :=
  ((result.1 = 0 ∨ result.1 = 1) ∧ Updates r result.2 k (insert lo (r.chunk k))) ∨
  (result.1 = -1 ∧ Updates r result.2 k (r.chunk k) ∧ ∃ site, mem site = false)

theorem adds_known (valid : r.Valid) {k lo : Nat} (mem : Memory) (known : lo ∈ r.chunk k) :
    Adds r k lo mem (0, r) := by
  refine .inl ⟨.inl rfl, ?_⟩
  rw [insert_eq_self.mpr known]
  exact updates_refl valid k

theorem addArray_adds (valid : r.Valid) {L R : List Ct} {c : Ct} (split : r.c = L ++ c :: R)
    (around : Around L R c.key) {a : List Nat} (body : c.body = .arr a) {lo : Nat}
    (inside : lo < chunkSize) (mem : Memory) :
    Adds r c.key lo mem (addArray r L.length c a lo mem) := by
  have chunk := chunk_here split rfl around
  have fit := valid.valid c (by simp [split])
  obtain ⟨k, _, card, cap⟩ := c
  subst body
  obtain ⟨sorted, small, size, pos, most, room⟩ := fit
  simp only at size pos most room
  -- The shortcut for a value past the last one finds the same cut as the search.
  have search : Search.Cut a lo (if card ≠ 0 ∧ a.getD (card - 1) 0 < lo then (false, card) else arrHas a lo).2 ∧
      (if card ≠ 0 ∧ a.getD (card - 1) 0 < lo then (false, card) else arrHas a lo).1 = decide (lo ∈ a) := by
    split_ifs with last
    · have below : ∀ v ∈ a, v < lo := fun v member => by
        obtain ⟨i, lt, rfl⟩ := mem_iff_getElem.mp member
        have top := last.2
        rw [getD_eq_getElem _ _ (by omega)] at top
        rcases Nat.lt_or_ge i (card - 1) with before | after
        · have := pairwise_iff_getElem.mp sorted i (card - 1) lt (by omega) before
          omega
        · have same : i = card - 1 := by omega
          subst same
          exact top
      refine ⟨⟨by omega, fun v member => below v (mem_of_mem_take member), ?_⟩, ?_⟩
      · rw [drop_of_length_le (by omega)]
        simp
      · simp only [Bool.false_eq, decide_eq_false_iff_not]
        exact fun member => Nat.lt_irrefl _ (below lo member)
    · exact arrHas_cut sorted lo
  unfold addArray
  simp only
  generalize (if card ≠ 0 ∧ a.getD (card - 1) 0 < lo then (false, card) else arrHas a lo) = found at search ⊢
  obtain ⟨cut, hit⟩ := search
  by_cases known : lo ∈ a
  · rw [if_pos (by rw [hit]; exact decide_eq_true known)]
    exact adds_known valid mem (by rw [chunk]; exact mem_toFinset.mpr known)
  rw [if_neg (by rw [hit]; simpa using known)]
  obtain ⟨sorted', same, length⟩ := cut_insert sorted cut known
  have inside' : ∀ v ∈ a.take found.2 ++ lo :: a.drop found.2, v < chunkSize := fun v member => by
    have : v ∈ insert lo a.toFinset := by rw [← same]; exact mem_toFinset.mpr member
    rcases mem_insert.mp this with rfl | old
    · exact inside
    · exact small v (mem_toFinset.mp old)
  have grows : ∀ cap', a.length + 1 ≤ cap' → a.length + 1 ≤ arrMax → Adds r k lo mem
      (1, setAt r L.length ⟨k, .arr (a.take found.2 ++ lo :: a.drop found.2), card + 1, cap'⟩) :=
    fun cap' roomy few => by
      have array := holds_array k cap' sorted' inside' (by omega) (by omega)
      rw [length, same, ← size] at array
      refine .inl ⟨.inr rfl, ?_⟩
      rw [chunk]
      exact updates_set valid split rfl around array (insert_nonempty _ _)
  by_cases atMost : card = arrMax
  · rw [if_pos atMost]
    split_ifs with ok
    · refine .inl ⟨.inr rfl, ?_⟩
      rw [chunk]
      have words : wordMembers (setBit (arrToWords a) lo) = insert lo a.toFinset := by
        rw [wordMembers_setBit _ inside, wordMembers_arrToWords small]
      have holds := holds_words k cap (card + 1) words
        (by rw [card_insert_of_notMem (by simpa using known), card_toFinset_sorted sorted]; omega)
        (by omega) (by rw [atMost]; decide)
      exact updates_set valid split rfl around holds (insert_nonempty _ _)
    · exact .inr ⟨rfl, updates_refl valid _, _, by simpa using ok⟩
  · rw [if_neg atMost]
    by_cases filled : card = cap
    · rw [if_pos filled]
      by_cases ok : mem .grow = true
      · rw [if_pos ok]
        refine grows _ ?_ (by omega)
        split_ifs <;> omega
      · rw [if_neg ok]
        exact .inr ⟨rfl, updates_refl valid _, _, by simpa using ok⟩
    · rw [if_neg filled]
      exact grows cap (by omega) (by omega)

theorem rbAdd_adds (valid : r.Valid) {x : Nat} (inside : x < 2 ^ 32) (heap : Heap) :
    Adds r (x / chunkSize) (x % chunkSize) (heap (x / chunkSize)) (rbAdd r x heap) := by
  have small := high_small inside
  have low := low_small x
  unfold rbAdd
  generalize x / chunkSize = k at small ⊢
  generalize x % chunkSize = lo at low ⊢
  rcases rbFind_located valid k with ⟨L, R, c, split, rfl, fit, around, found⟩ | ⟨L, R, split, around, found⟩
  · have chunk := chunk_here split rfl around
    simp only [found, at_here split, not_true_eq_false, if_false]
    cases body : c.body with
    | none => simp [Ct.Valid, body] at fit
    | full =>
      refine adds_known valid _ ?_
      rw [chunk, body, Body.members]
      exact Finset.mem_range.mpr low
    | arr a => exact addArray_adds valid split around body low _
    | bmp w =>
      rw [body] at chunk
      have member : bit w lo = decide (lo ∈ r.chunk c.key) := by
        rw [chunk, ← bit_wordsOf (.bmp w) low, wordsOf]
      have size := fit.card_eq
      simp only [Ct.Valid, body] at fit
      by_cases known : lo ∈ r.chunk c.key
      · simp only [member, decide_eq_true known, if_true]
        exact adds_known valid _ known
      simp only [member, decide_eq_false known, Bool.false_eq_true, if_false]
      have words : wordMembers (setBit w lo) = insert lo (r.chunk c.key) := by
        rw [wordMembers_setBit w low, chunk, wordMembers, Body.members]
      have more : c.card + 1 = (insert lo (r.chunk c.key)).card := by
        rw [card_insert_of_notMem known, chunk, size, body]
      split_ifs with all
      · have whole : insert lo (r.chunk c.key) = Finset.range chunkSize := by
          rw [← words]
          refine Finset.eq_of_subset_of_card_le (Finset.filter_subset _ _) ?_
          rw [words, ← more, all, card_range]
        refine .inl ⟨.inr rfl, updates_set valid split rfl around ?_ (insert_nonempty _ _)⟩
        rw [all, whole]
        exact holds_full c.key c.cap
      · refine .inl ⟨.inr rfl, updates_set valid split rfl around ?_ (insert_nonempty _ _)⟩
        exact holds_words _ _ _ words more (by omega) (by omega)
  · have chunk := chunk_absent split around
    simp only [found, Bool.false_eq_true, not_false_eq_true, if_true]
    rcases insertAt_spec (k := k) split (heap k) with ⟨r', done, made, room, _⟩ | ⟨failed, site⟩
    · simp only [done]
      split_ifs with ok
      · refine .inl ⟨.inr rfl, ?_⟩
        have array := holds_array k 4 (pairwise_singleton _ _)
          (by simpa using low) (by simp [arrMax]) (by simp)
        have single : insert lo (r.chunk k) = [lo].toFinset := by rw [chunk]; rfl
        rw [single]
        exact updates_insert split around small made room array ⟨lo, by simp⟩
      · refine .inr ⟨rfl, ?_, _, by simpa using ok⟩
        rw [chunk]
        exact updates_uninsert split around made room
    · simp only [failed]
      exact .inr ⟨rfl, updates_refl valid k, _, site⟩

/-- A value that leaves its chunk; or a failed allocation, which changes nothing
when the chunk was full and loses the whole chunk when it was about to become an
array. -/
inductive Removes (r : Rb) (k lo : Nat) (mem : Memory) (result : Int × Rb) : Prop where
  | done (code : result.1 = 0 ∨ result.1 = 1) (updates : Updates r result.2 k ((r.chunk k).erase lo))
  | kept (code : result.1 = -1) (updates : Updates r result.2 k (r.chunk k))
      (size : (r.chunk k).card = chunkSize) (site : mem .words = false)
  | lost (code : result.1 = -1) (updates : Updates r result.2 k ∅)
      (size : (r.chunk k).card = arrMax + 1) (site : mem .adopt = false)

theorem removeBit_removes (valid : r.Valid) {L R : List Ct} {c : Ct} (split : r.c = L ++ c :: R)
    (around : Around L R c.key) {w : Words} (words : wordMembers w = c.body.members)
    (many : arrMax < c.card) {lo : Nat} (inside : lo < chunkSize)
    (member : bit w lo = true ∨ c.card < chunkSize) (mem : Memory) :
    Removes r c.key lo mem (removeBit r L.length c w lo mem) := by
  have chunk := chunk_here split rfl around
  have size := (valid.valid c (by simp [split])).card_eq
  rw [← words] at chunk size
  have holds_lo : bit w lo = decide (lo ∈ r.chunk c.key) := by
    rw [chunk]
    simp [wordMembers, inside]
  unfold removeBit
  by_cases known : lo ∈ r.chunk c.key
  · simp only [holds_lo, decide_eq_true known, not_true_eq_false, if_false]
    have less : wordMembers (clearBit w lo) = (r.chunk c.key).erase lo := by
      rw [wordMembers_clearBit, chunk]
    have count : c.card - 1 = popcnt (clearBit w lo) := by
      rw [popcnt_eq, less, card_erase_of_mem known, chunk, size]
    have some : ((r.chunk c.key).erase lo).Nonempty := by
      rw [← card_pos, ← less, ← popcnt_eq, ← count]
      have : arrMax = 4096 := rfl
      omega
    split_ifs with small
    · rw [count]
      rcases adoptWords_spec { c with card := popcnt (clearBit w lo) } (clearBit w lo) mem with
        ⟨t, done, holds⟩ | ⟨failed, site, _⟩
      · rw [done]
        rw [less] at holds
        exact .done (.inr rfl) (updates_set valid split rfl around holds some)
      · rw [failed]
        refine .lost rfl (updates_remove valid split rfl around) ?_ site
        rw [chunk, ← size]
        omega
    · have most := wordMembers_le w
      refine .done (.inr rfl) (updates_set valid split rfl around ?_ some)
      refine holds_words _ _ _ less ?_ (by omega) (by omega)
      rw [count, popcnt_eq, less]
  · simp only [holds_lo, decide_eq_false known, Bool.false_eq_true, not_false_eq_true, if_true]
    have partial_ : c.card < chunkSize := member.resolve_left (by rw [holds_lo]; simpa using known)
    refine .done (.inl rfl) ?_
    rw [erase_eq_of_notMem known]
    refine updates_set valid split rfl around (holds_words _ _ _ chunk.symm ?_ many partial_) ?_
    · rw [chunk, size]
    · rw [← card_pos, chunk, ← size]
      omega

theorem rbRemove_removes (valid : r.Valid) (x : Nat) (heap : Heap) :
    Removes r (x / chunkSize) (x % chunkSize) (heap (x / chunkSize)) (rbRemove r x heap) := by
  have low := low_small x
  unfold rbRemove
  generalize x / chunkSize = k
  generalize x % chunkSize = lo at low ⊢
  have nothing : lo ∉ r.chunk k → Removes r k lo (heap k) (0, r) := fun out => by
    refine .done (.inl rfl) ?_
    rw [erase_eq_of_notMem out]
    exact updates_refl valid k
  rcases rbFind_located valid k with ⟨L, R, c, split, rfl, fit, around, found⟩ | ⟨L, R, split, around, found⟩
  · have chunk := chunk_here split rfl around
    simp only [found, at_here split, not_true_eq_false, if_false]
    cases body : c.body with
    | none => simp [Ct.Valid, body] at fit
    | arr a =>
      rw [body, Body.members] at chunk
      simp only [Ct.Valid, body] at fit
      obtain ⟨cut, hit⟩ := arrHas_cut fit.1 lo
      by_cases known : lo ∈ a
      · simp only [hit, decide_eq_true known, not_true_eq_false, if_false]
        obtain ⟨sorted, same, length⟩ := cut_erase fit.1 cut known
        split_ifs with last
        · have empty : (r.chunk c.key).erase lo = ∅ := by
            rw [chunk, ← same, toFinset_eq_empty_iff]
            exact length_eq_zero_iff.mp (by omega)
          refine .done (.inr rfl) ?_
          rw [empty]
          exact updates_remove valid split rfl around
        · have array := holds_array c.key c.cap sorted
            (fun v member => fit.2.1 v (mem_of_mem_eraseIdx member)) (by omega) (by omega)
          rw [length, same, ← chunk, ← fit.2.2.1] at array
          refine .done (.inr rfl) (updates_set valid split rfl around array ?_)
          rw [← card_pos, ← array.card]
          simp only
          omega
      · simp only [hit, decide_eq_false known, Bool.false_eq_true, not_false_eq_true, if_true]
        refine nothing ?_
        rw [chunk]
        simpa using known
    | full =>
      simp only [Ct.Valid, body] at fit
      have ones : wordMembers rbOnes = c.body.members := by
        rw [body, Body.members]
        ext v
        simp [wordMembers, bit_rbOnes]
      by_cases ok : heap c.key .words = true
      · simp only [if_pos ok]
        exact removeBit_removes valid split around ones (by rw [fit]; decide) low (.inl (bit_rbOnes lo)) _
      · simp only [if_neg ok]
        refine .kept rfl (updates_refl valid _) ?_ (by simpa using ok)
        rw [chunk, body, Body.members, card_range]
    | bmp w =>
      simp only [Ct.Valid, body] at fit
      exact removeBit_removes valid split around (by rw [body]; rfl) fit.2.1 low (.inr fit.2.2) _
  · simp only [found, Bool.false_eq_true, not_false_eq_true, if_true]
    refine nothing ?_
    rw [chunk_absent split around]
    exact notMem_empty lo

section Range

theorem bit_update (w : Words) (i : Nat) (x : BitVec 64) (v : Nat) :
    bit (update w i x) v = if v / 64 = i then x.getLsbD (v % 64) else bit w v := by
  unfold bit update
  split_ifs <;> rfl

variable (add : Bool)

theorem bit_fillLoop (b fuel i : Nat) (w : Words) (enough : b + 1 - i ≤ fuel) (v : Nat) :
    bit (fillLoop add b fuel i w) v = if i ≤ v ∧ v ≤ b then add else bit w v := by
  induction fuel generalizing i w with
  | zero =>
    rw [if_neg (by omega)]
    rfl
  | succ fuel ih =>
    unfold fillLoop
    by_cases inside : i ≤ b
    · rw [if_pos inside]
      by_cases whole : i % 64 = 0 ∧ i + 63 ≤ b
      · rw [if_pos whole, ih _ _ (by omega), bit_update]
        by_cases here : v / 64 = i / 64
        · rw [if_neg (by omega), if_pos here, if_pos (by omega : i ≤ v ∧ v ≤ b)]
          cases add
          · simp
          · simp only [if_true, BitVec.getLsbD_allOnes, decide_eq_true_eq]
            omega
        · rw [if_neg here]
          by_cases later : i + 64 ≤ v ∧ v ≤ b
          · rw [if_pos later, if_pos (by omega)]
          · rw [if_neg later, if_neg (by omega)]
      · rw [if_neg whole, ih _ _ (by omega)]
        by_cases here : v = i
        · subst here
          rw [if_pos (by omega : v ≤ v ∧ v ≤ b)]
          cases add
          · simp [bit_clearBit]
          · simp [bit_setBit]
        · have other : bit (if add = true then setBit w i else clearBit w i) v = bit w v := by
            cases add
            · simp [bit_clearBit, here]
            · simp [bit_setBit, here]
          rw [other]
          by_cases later : i + 1 ≤ v ∧ v ≤ b
          · rw [if_pos later, if_pos (by omega)]
          · rw [if_neg later, if_neg (by omega)]
    · rw [if_neg inside, if_neg (by omega)]

def ranged (s : Finset Nat) (a b : Nat) : Finset Nat :=
  if add then s ∪ Finset.Icc a b else s \ Finset.Icc a b

theorem mem_ranged (s : Finset Nat) (a b v : Nat) :
    v ∈ ranged add s a b ↔ if a ≤ v ∧ v ≤ b then add = true else v ∈ s := by
  unfold ranged
  cases add
  · simp only [Bool.false_eq_true, if_false, mem_sdiff, mem_Icc]
    split_ifs with inside <;> simp [inside]
  · simp only [if_true, mem_union, mem_Icc]
    split_ifs with inside <;> simp [inside]

/-- What a round of `rb_range` does: the chunk as it should be; or a failed
allocation, which changes nothing unless the array for the new values of a chunk
that was there could not be had. -/
inductive Ranges (r : Rb) (k : Nat) (s : Finset Nat) (mem : Memory) (result : Bool × Rb) : Prop where
  | done (code : result.1 = true) (updates : Updates r result.2 k s)
  | kept (code : result.1 = false) (updates : Updates r result.2 k (r.chunk k))
      (site : mem .reserve = false ∨ mem .words = false ∨ (mem .adopt = false ∧ r.chunk k = ∅))
  | lost (code : result.1 = false) (updates : Updates r result.2 k ∅)
      (some : (r.chunk k).Nonempty) (site : mem .adopt = false)

theorem ranged_whole {s : Finset Nat} (inside : ∀ v ∈ s, v < chunkSize) :
    ranged add s 0 (chunkSize - 1) = if add then Finset.range chunkSize else ∅ := by
  have pos : 0 < chunkSize := by decide
  ext v
  rw [mem_ranged]
  cases add
  · simp only [Bool.false_eq_true, if_false, notMem_empty, iff_false]
    split_ifs with small
    · simp
    · intro member
      have := inside v member
      omega
  · simp only [if_true, Finset.mem_range]
    split_ifs with small
    · simp only [true_iff]
      omega
    · constructor
      · exact inside v
      · omega

theorem chunk_inside (valid : r.Valid) (k : Nat) : ∀ v ∈ r.chunk k, v < chunkSize := by
  intro v member
  obtain ⟨c, here, _, inner⟩ := (inChunk_chunk valid k v).mpr member
  exact (valid.valid c here).inside inner

theorem rangeChunk_ranges (valid : r.Valid) {k a b : Nat} (small : k < chunkSize) (le : a ≤ b)
    (most : b < chunkSize) (add : Bool) (mem : Memory) :
    Ranges r k (ranged add (r.chunk k) a b) mem (rangeChunk r k a b add mem) := by
  have nonempty : add = true → (ranged add (r.chunk k) a b).Nonempty := fun on =>
    ⟨a, by rw [mem_ranged, if_pos (by omega)]; exact on⟩
  have filled : ∀ old, (∀ v, v < chunkSize → bit old v = decide (v ∈ r.chunk k)) →
      wordMembers (fillLoop add b (b + 1) a old) = ranged add (r.chunk k) a b := fun old same => by
    ext v
    simp only [wordMembers, Finset.mem_filter, Finset.mem_range, mem_ranged,
      bit_fillLoop add b (b + 1) a old (by omega)]
    split_ifs with inside
    · simp only [and_iff_right_iff_imp]
      omega
    · constructor
      · rintro ⟨low, set⟩
        rw [same v low] at set
        simpa using set
      · intro member
        have low := chunk_inside valid k v member
        exact ⟨low, by rw [same v low]; simpa using member⟩
  unfold rangeChunk
  rcases rbFind_located valid k with ⟨L, R, c, split, rfl, fit, around, found⟩ | ⟨L, R, split, around, found⟩
  · have chunk := chunk_here split rfl around
    simp only [found, at_here split, not_true_eq_false, false_and, if_false, if_true]
    by_cases whole : a = 0 ∧ b = chunkSize - 1
    · obtain ⟨rfl, rfl⟩ := whole
      rw [ranged_whole add (chunk_inside valid _)]
      cases add
      · exact .done rfl (updates_remove valid split rfl around)
      · exact .done rfl (updates_set valid split rfl around (holds_full c.key c.cap)
          ⟨0, Finset.mem_range.mpr (by decide)⟩)
    · rw [if_neg whole]
      split_ifs with ok
      · exact .kept rfl (updates_refl valid _) (.inr (.inl ok))
      have words := filled (wordsOf c.body) fun v low => by rw [bit_wordsOf _ low, chunk]
      rcases adoptWords_spec { c with body := .none, card := 0 }
          (fillLoop add b (b + 1) a (wordsOf c.body)) mem with ⟨t, done, holds⟩ | ⟨failed, site, _⟩
      · rw [done]
        rw [words] at holds
        refine .done rfl ?_
        by_cases empty : t.card = 0
        · simp only [if_pos empty]
          rw [holds.card] at empty
          rw [card_eq_zero.mp empty]
          exact updates_remove valid split rfl around
        · simp only [if_neg empty]
          rw [holds.card] at empty
          exact updates_set valid split rfl around holds (card_pos.mp (by omega))
      · rw [failed]
        refine .lost rfl (updates_remove valid split rfl around) ?_ site
        rw [chunk]
        exact fit.nonempty
  · have chunk := chunk_absent split around
    simp only [found, Bool.false_eq_true, not_false_eq_true, true_and, if_false]
    by_cases whole : a = 0 ∧ b = chunkSize - 1
    · obtain ⟨rfl, rfl⟩ := whole
      rw [ranged_whole add (chunk_inside valid _)]
      simp only [and_self, if_true]
      cases add
      · refine .done rfl ?_
        simpa [chunk] using updates_refl valid k
      · simp only [not_true_eq_false, if_false, if_true]
        rcases insertAt_spec (k := k) split mem with ⟨r', done, made, room, _⟩ | ⟨failed, site⟩
        · simp only [done, at_here made]
          exact .done rfl (updates_insert split around small made room (holds_full k 0)
            ⟨0, Finset.mem_range.mpr (by decide)⟩)
        · simp only [failed]
          exact .kept rfl (updates_refl valid k) (.inl site)
    · rw [if_neg whole]
      cases add
      · refine .done rfl ?_
        have same : ranged false (r.chunk k) a b = r.chunk k := by
          rw [chunk]
          ext v
          simp [mem_ranged]
        rw [same]
        simpa using updates_refl valid k
      · simp only [not_true_eq_false, if_false]
        split_ifs with ok
        · exact .kept rfl (updates_refl valid _) (.inr (.inl ok))
        have words := filled (fun _ => 0) fun v low => by rw [chunk]; simp [bit]
        rcases insertAt_spec (k := k) split mem with ⟨r', done, made, room, _⟩ | ⟨failed, site⟩
        · simp only [done, at_here made]
          rcases adoptWords_spec ⟨k, .none, 0, 0⟩ (fillLoop true b (b + 1) a fun _ => 0) mem with
            ⟨t, adopted, holds⟩ | ⟨failed, site, _⟩
          · rw [adopted]
            rw [words] at holds
            have some := nonempty rfl
            have card : ¬ t.card = 0 := by
              rw [holds.card]
              have := card_pos.mpr some
              omega
            simp only [if_neg card]
            exact .done rfl (updates_insert split around small made room holds some)
          · rw [failed]
            refine .kept rfl ?_ (.inr (.inr ⟨site, chunk⟩))
            rw [chunk]
            exact updates_uninsert split around made room
        · simp only [failed]
          exact .kept rfl (updates_refl valid k) (.inl site)

end Range

end DynaJS.Roaring
