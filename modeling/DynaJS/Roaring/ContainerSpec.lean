import DynaJS.Roaring.Container

/-! What the containers denote: sets of values below 65536. Every operation builds
a container for the set it should, in the representation its size asks for. -/
namespace DynaJS.Roaring

open DynaJS.BitSet List

def Body.members : Body → Finset Nat
  | .none => ∅
  | .arr a => a.toFinset
  | .bmp w => (Finset.range chunkSize).filter fun v => bit w v
  | .full => Finset.range chunkSize

def Ct.Valid (c : Ct) : Prop :=
  match c.body with
  | .none => False
  | .arr a => a.Pairwise (· < ·) ∧ (∀ v ∈ a, v < chunkSize) ∧ c.card = a.length ∧ 1 ≤ c.card ∧
      c.card ≤ arrMax ∧ c.card ≤ c.cap
  | .bmp w => c.card = popcnt w ∧ arrMax < c.card ∧ c.card < chunkSize
  | .full => c.card = chunkSize

def RbOp.apply (op : RbOp) (s t : Finset Nat) : Finset Nat := (s ∪ t).filter fun v => op.takes (v ∈ s) (v ∈ t)

theorem RbOp.mem_apply (op : RbOp) (s t : Finset Nat) (v : Nat) :
    v ∈ op.apply s t ↔ op.takes (v ∈ s) (v ∈ t) = true := by
  simp only [RbOp.apply, Finset.mem_filter, Finset.mem_union, and_iff_right_iff_imp]
  intro taken
  by_contra out
  simp only [not_or] at out
  cases op <;> simp [RbOp.takes, out.1, out.2] at taken

theorem bit_foldl_setBit (a : List Nat) (w : Words) (v : Nat) :
    bit (a.foldl setBit w) v = (bit w v || decide (v ∈ a)) := by
  induction a generalizing w with
  | nil => simp
  | cons u rest ih =>
    rw [foldl_cons, ih, bit_setBit]
    by_cases same : v = u <;> simp [same]

theorem bit_arrToWords (a : List Nat) (v : Nat) : bit (arrToWords a) v = decide (v ∈ a) := by
  unfold arrToWords
  rw [bit_foldl_setBit]
  simp [bit]

theorem bit_rbOnes (v : Nat) : bit rbOnes v = true := by
  simp only [bit, rbOnes, BitVec.getLsbD_allOnes, decide_eq_true_eq]
  omega

theorem bit_word (op : RbOp) (wa wb : Words) (v : Nat) :
    bit (fun i => op.word (wa i) (wb i)) v = op.takes (bit wa v) (bit wb v) := by
  have inside : v % 64 < 64 := by omega
  cases op <;> simp [bit, RbOp.word, RbOp.takes, inside]

variable (w : Words)

def wordMembers : Finset Nat := (Finset.range chunkSize).filter fun v => bit w v

theorem wordCount_bits : wordCount * 64 = chunkSize := by decide

theorem elements_toFinset : (elements w wordCount).toFinset = wordMembers w := by
  ext v
  simp only [mem_toFinset, mem_elements, wordMembers, Finset.mem_filter, Finset.mem_range, wordCount_bits]

theorem popcnt_length : popcnt w = (elements w wordCount).length := by
  unfold popcnt
  exact count_eq w wordCount

theorem popcnt_eq : popcnt w = (wordMembers w).card := by
  rw [popcnt_length, ← elements_toFinset]
  exact (card_toFinset_sorted (elements_sorted w wordCount)).symm

theorem bit_wordsOf (body : Body) {v : Nat} (inside : v < chunkSize) :
    bit (wordsOf body) v = decide (v ∈ body.members) := by
  cases body with
  | none => simp [wordsOf, Body.members, bit]
  | arr a => simp [wordsOf, Body.members, bit_arrToWords]
  | bmp w => simp [wordsOf, Body.members, inside]
  | full => simp [wordsOf, Body.members, bit_rbOnes, inside]

variable {c : Ct}

theorem Ct.Valid.inside (valid : c.Valid) {v : Nat} (member : v ∈ c.body.members) : v < chunkSize := by
  rcases c with ⟨_, _ | a | w | _, _, _⟩
  · exact valid.elim
  · exact valid.2.1 v (mem_toFinset.mp member)
  · exact Finset.mem_range.mp (Finset.mem_filter.mp member).1
  · exact Finset.mem_range.mp member

theorem Ct.Valid.card_eq (valid : c.Valid) : c.card = c.body.members.card := by
  rcases c with ⟨_, _ | a | w | _, _, _⟩
  · exact valid.elim
  · exact valid.2.2.1.trans (card_toFinset_sorted valid.1).symm
  · exact valid.1.trans (popcnt_eq w)
  · exact valid.trans (Finset.card_range _).symm

theorem Ct.Valid.nonempty (valid : c.Valid) : c.body.members.Nonempty := by
  rw [← Finset.card_pos, ← valid.card_eq]
  rcases c with ⟨_, _ | a | w | _, _, _⟩
  · exact valid.elim
  · exact valid.2.2.2.1
  · exact Nat.zero_lt_of_lt valid.2.1
  · exact valid.symm ▸ (by decide)

structure Ct.Holds (c : Ct) (key : Nat) (s : Finset Nat) : Prop where
  key : c.key = key
  card : c.card = s.card
  members : c.body.members = s
  valid : s.Nonempty → c.Valid

theorem Ct.Valid.holds (valid : c.Valid) : c.Holds c.key c.body.members := ⟨rfl, valid.card_eq, rfl, fun _ => valid⟩

theorem holds_empty (key : Nat) : Ct.Holds ⟨key, .none, 0, 0⟩ key ∅ :=
  ⟨rfl, rfl, rfl, fun bad => absurd bad Finset.not_nonempty_empty⟩

variable {a : List Nat}

theorem holds_array (key cap : Nat) (sorted : a.Pairwise (· < ·))
    (inside : ∀ v ∈ a, v < chunkSize) (most : a.length ≤ arrMax) (room : a.length ≤ cap) :
    Ct.Holds ⟨key, .arr a, a.length, cap⟩ key a.toFinset := by
  refine ⟨rfl, (card_toFinset_sorted sorted).symm, rfl, fun some => ?_⟩
  have pos : 1 ≤ a.length := by
    rw [← card_toFinset_sorted sorted]
    exact Finset.card_pos.mpr some
  exact ⟨sorted, inside, rfl, pos, most, room⟩

theorem holds_full (key cap : Nat) : Ct.Holds ⟨key, .full, chunkSize, cap⟩ key (Finset.range chunkSize) :=
  ⟨rfl, (Finset.card_range _).symm, by rw [Body.members], fun _ => rfl⟩

theorem holds_words (key cap card : Nat) {w : Words} {s : Finset Nat} (same : wordMembers w = s)
    (size : card = s.card) (many : arrMax < card) (most : card < chunkSize) :
    Ct.Holds ⟨key, .bmp w, card, cap⟩ key s :=
  ⟨rfl, size, same, fun _ => ⟨by rw [popcnt_eq, same]; exact size, many, most⟩⟩

theorem wordMembers_setBit {lo : Nat} (inside : lo < chunkSize) :
    wordMembers (setBit w lo) = insert lo (wordMembers w) := by
  ext v
  simp only [wordMembers, Finset.mem_filter, Finset.mem_range, bit_setBit, Bool.or_eq_true,
    decide_eq_true_eq, Finset.mem_insert]
  constructor
  · rintro ⟨small, old | same⟩
    · exact .inr ⟨small, old⟩
    · exact .inl same
  · rintro (rfl | ⟨small, old⟩)
    · exact ⟨inside, .inr rfl⟩
    · exact ⟨small, .inl old⟩

theorem wordMembers_clearBit (lo : Nat) : wordMembers (clearBit w lo) = (wordMembers w).erase lo := by
  ext v
  simp only [wordMembers, Finset.mem_filter, Finset.mem_range, bit_clearBit, Bool.and_eq_true,
    Bool.not_eq_true', decide_eq_false_iff_not, Finset.mem_erase]
  tauto

theorem wordMembers_arrToWords (inside : ∀ v ∈ a, v < chunkSize) : wordMembers (arrToWords a) = a.toFinset := by
  ext v
  simp only [wordMembers, Finset.mem_filter, Finset.mem_range, bit_arrToWords, decide_eq_true_eq,
    mem_toFinset, and_iff_right_iff_imp]
  exact inside v

theorem wordMembers_le : (wordMembers w).card ≤ chunkSize := by
  have := Finset.card_filter_le (Finset.range chunkSize) fun v => bit w v
  simpa [wordMembers] using this

/-- The words of a set go into the representation its size asks for; only an array
needs memory. -/
theorem adoptWords_spec (out : Ct) (w : Words) (mem : Memory) :
    (∃ t, adoptWords out w (popcnt w) mem = some t ∧ t.Holds out.key (wordMembers w)) ∨
    (adoptWords out w (popcnt w) mem = none ∧ mem .adopt = false ∧ 1 ≤ popcnt w ∧ popcnt w ≤ arrMax) := by
  have size := popcnt_eq w
  have most := wordMembers_le w
  unfold adoptWords
  by_cases none : popcnt w = 0
  · rw [if_pos none]
    have empty : wordMembers w = ∅ := Finset.card_eq_zero.mp (by omega)
    refine .inl ⟨_, rfl, ⟨rfl, by simp [none, empty], by simp [Body.members, empty], ?_⟩⟩
    rw [empty]
    exact fun bad => absurd bad Finset.not_nonempty_empty
  · rw [if_neg none]
    by_cases all : popcnt w = chunkSize
    · rw [if_pos all]
      have whole : wordMembers w = Finset.range chunkSize :=
        Finset.eq_of_subset_of_card_le (Finset.filter_subset _ _) (by simp; omega)
      refine .inl ⟨_, rfl, ⟨rfl, ?_, by rw [whole, Body.members], fun _ => all⟩⟩
      simp only [size]
    · rw [if_neg all]
      by_cases small : popcnt w ≤ arrMax
      · rw [if_pos small]
        split_ifs with ok
        · have length := (popcnt_length w).symm
          have array := holds_array out.key (popcnt w) (elements_sorted w wordCount)
            (fun v member => wordCount_bits ▸ (mem_elements.mp member).1) (by rw [length]; exact small)
            (Nat.le_of_eq length)
          rw [length, elements_toFinset] at array
          exact .inl ⟨_, rfl, array⟩
        · exact .inr ⟨rfl, by simpa using ok, by omega, small⟩
      · rw [if_neg small]
        refine .inl ⟨_, rfl, ⟨rfl, ?_, rfl, fun _ => ⟨rfl, by simp only; omega, by simp only; omega⟩⟩⟩
        simp only [size]

theorem ctCopy_spec {src : Ct} (valid : src.Valid) (mem : Memory) :
    (∃ t, ctCopy src mem = some t ∧ t.Holds src.key src.body.members) ∨
    (ctCopy src mem = none ∧ ∃ s, mem s = false) := by
  obtain ⟨key, body, card, cap⟩ := src
  have size := valid.card_eq
  unfold ctCopy
  cases body with
  | none => exact valid.elim
  | arr a =>
    by_cases ok : mem .array = true
    · simp only [if_pos ok]
      refine .inl ⟨_, rfl, ⟨rfl, size, rfl, fun _ => ?_⟩⟩
      exact ⟨valid.1, valid.2.1, valid.2.2.1, valid.2.2.2.1, valid.2.2.2.2.1, Nat.le_refl _⟩
    · simp only [if_neg ok]
      exact .inr ⟨trivial, _, by simpa using ok⟩
  | bmp w =>
    by_cases ok : mem .words = true
    · simp only [if_pos ok]
      exact .inl ⟨_, rfl, ⟨rfl, size, rfl, fun _ => valid⟩⟩
    · simp only [if_neg ok]
      exact .inr ⟨trivial, _, by simpa using ok⟩
  | full => exact .inl ⟨_, rfl, ⟨rfl, size, rfl, fun _ => valid⟩⟩

section Pairs

variable (op : RbOp)

theorem RbOp.takes_left : op.takes true false = decide (op ≠ .and) := by
  cases op <;> rfl

theorem RbOp.takes_right : op.takes false true = decide (op = .or ∨ op = .xor) := by
  cases op <;> rfl

theorem RbOp.takes_both : op.takes true true = decide (op = .and ∨ op = .or) := by
  cases op <;> rfl

theorem RbOp.takes_none : op.takes false false = false := by
  cases op <;> rfl

variable {x : Nat} {s : Finset Nat} {a b : Ct}

theorem not_mem_of_lt {y : Nat} {ys : List Nat} (sorted : (y :: ys).Pairwise (· < ·)) (lt : x < y) : x ∉ y :: ys := by
  intro member
  rcases mem_cons.mp member with rfl | later
  · omega
  · have := (pairwise_cons.mp sorted).1 x later
    omega

theorem head_not_mem {xs : List Nat} (sorted : (x :: xs).Pairwise (· < ·)) : x ∉ xs := by
  intro member
  have := (pairwise_cons.mp sorted).1 x member
  omega

/-- The head `x` is decided here and the rest by the tails, which do not have it. -/
theorem RbOp.takes_head (xs' ys' : List Nat) {v : Nat} {xs ys l : List Nat} (out : x ∉ xs ∧ x ∉ ys)
    (others : v ≠ x → (v ∈ xs' ↔ v ∈ xs) ∧ (v ∈ ys' ↔ v ∈ ys))
    (tail : v ∈ l ↔ op.takes (v ∈ xs) (v ∈ ys) = true) :
    v ∈ (if op.takes (x ∈ xs') (x ∈ ys') then x :: l else l) ↔ op.takes (v ∈ xs') (v ∈ ys') = true := by
  by_cases same : v = x
  · subst same
    rw [decide_eq_false out.1, decide_eq_false out.2, op.takes_none] at tail
    split_ifs with taken
    · simp [taken]
    · simp [tail, taken]
  · have member : v ∈ (if op.takes (x ∈ xs') (x ∈ ys') then x :: l else l) ↔ v ∈ l := by
      split_ifs <;> simp [same]
    simp only [member, tail, others same]

theorem mem_mergeArrays (xs ys : List Nat) (sx : xs.Pairwise (· < ·)) (sy : ys.Pairwise (· < ·)) (v : Nat) :
    v ∈ mergeArrays op xs ys ↔ op.takes (v ∈ xs) (v ∈ ys) = true := by
  fun_induction mergeArrays op xs ys with
  | case1 => simp [op.takes_none]
  | case2 x xs take ih | case3 x xs take ih =>
    have step := op.takes_head (x :: xs) [] ⟨head_not_mem sx, not_mem_nil⟩ (by simp +contextual)
      (ih (pairwise_cons.mp sx).2 sy)
    simpa [op.takes_left, take] using step
  | case4 y ys take ih | case5 y ys take ih =>
    have step := op.takes_head [] (y :: ys) ⟨not_mem_nil, head_not_mem sy⟩ (by simp +contextual)
      (ih sx (pairwise_cons.mp sy).2)
    simpa [op.takes_right, take] using step
  | case6 x xs y ys lt take ih | case7 x xs y ys lt take ih =>
    have out := not_mem_of_lt sy lt
    have step := op.takes_head (x :: xs) (y :: ys) ⟨head_not_mem sx, out⟩ (by simp +contextual)
      (ih (pairwise_cons.mp sx).2 sy)
    rw [decide_eq_true mem_cons_self, decide_eq_false out, op.takes_left] at step
    simpa [take] using step
  | case8 x xs y ys ge lt take ih | case9 x xs y ys ge lt take ih =>
    have out := not_mem_of_lt sx lt
    have step := op.takes_head (x :: xs) (y :: ys) ⟨out, head_not_mem sy⟩ (by simp +contextual)
      (ih sx (pairwise_cons.mp sy).2)
    rw [decide_eq_false out, decide_eq_true mem_cons_self, op.takes_right] at step
    simpa [take] using step
  | case10 x xs y ys ge le take ih | case11 x xs y ys ge le take ih =>
    obtain rfl : x = y := by omega
    have step := op.takes_head (x :: xs) (x :: ys) ⟨head_not_mem sx, head_not_mem sy⟩
      (by simp +contextual) (ih (pairwise_cons.mp sx).2 (pairwise_cons.mp sy).2)
    simpa [op.takes_both, take] using step

variable {xs ys : List Nat}

theorem mergeArrays_from {v : Nat} (member : v ∈ mergeArrays op xs ys) : v ∈ xs ∨ v ∈ ys := by
  fun_induction mergeArrays op xs ys <;> grind

theorem mergeArrays_sorted (xs ys : List Nat) (sx : xs.Pairwise (· < ·))
    (sy : ys.Pairwise (· < ·)) : (mergeArrays op xs ys).Pairwise (· < ·) := by
  have from_ : ∀ {xs ys : List Nat} {v : Nat}, v ∈ mergeArrays op xs ys → v ∈ xs ∨ v ∈ ys := mergeArrays_from op
  fun_induction mergeArrays op xs ys <;> grind [pairwise_cons]

theorem mergeArrays_toFinset (sx : xs.Pairwise (· < ·)) (sy : ys.Pairwise (· < ·)) :
    (mergeArrays op xs ys).toFinset = op.apply xs.toFinset ys.toFinset := by
  ext v
  rw [mem_toFinset, mem_mergeArrays op xs ys sx sy, op.mem_apply]
  simp only [mem_toFinset]

theorem mergeArrays_length (sx : xs.Pairwise (· < ·)) (sy : ys.Pairwise (· < ·)) :
    (mergeArrays op xs ys).length ≤ mergeCap op xs.length ys.length := by
  rw [← card_toFinset_sorted (mergeArrays_sorted op xs ys sx sy), mergeArrays_toFinset op sx sy,
    ← card_toFinset_sorted sx, ← card_toFinset_sorted sy]
  have either : (op.apply xs.toFinset ys.toFinset).card ≤ xs.toFinset.card + ys.toFinset.card :=
    (Finset.card_filter_le _ _).trans (Finset.card_union_le _ _)
  have left : op = .and ∨ op = .andnot → op.apply xs.toFinset ys.toFinset ⊆ xs.toFinset := by
    intro kind v member
    rw [op.mem_apply] at member
    rcases kind with rfl | rfl <;> simp [RbOp.takes] at member <;> simp [member]
  cases op with
  | and =>
    refine Nat.le_min.mpr ⟨Finset.card_le_card (left (.inl rfl)), Finset.card_le_card ?_⟩
    intro v member
    rw [RbOp.mem_apply] at member
    simp [RbOp.takes] at member
    simp [member]
  | andnot => exact Finset.card_le_card (left (.inr rfl))
  | or => exact either
  | xor => exact either

/-- What an operation on two containers comes to: the container of the combined
set with its size, or a failed allocation. -/
def Makes (r : Option (Nat × Ct)) (key : Nat) (s : Finset Nat) (mem : Memory) : Prop :=
  (∃ t, r = some (s.card, t) ∧ t.Holds key s) ∨ (r = none ∧ ∃ site, mem site = false)

theorem makes_empty {key : Nat} (mem : Memory) (empty : s = ∅) : Makes (some (0, ⟨key, .none, 0, 0⟩)) key s mem := by
  subst empty
  exact .inl ⟨_, rfl, holds_empty key⟩

theorem adoptWords_makes (key : Nat) (w : Words) (mem : Memory) {card : Nat}
    (same : wordMembers w = s) (size : card = s.card) :
    Makes ((adoptWords ⟨key, .none, 0, 0⟩ w card mem).map (card, ·)) key s mem := by
  have count : card = popcnt w := by rw [size, ← same, popcnt_eq w]
  rw [count]
  rcases adoptWords_spec ⟨key, .none, 0, 0⟩ w mem with ⟨t, done, holds⟩ | ⟨failed, site, _⟩
  · rw [same] at holds
    refine .inl ⟨t, ?_, holds⟩
    rw [done, ← size, count]
    rfl
  · rw [failed]
    exact .inr ⟨rfl, _, site⟩

theorem wordsOp_makes (key : Nat) {wa wb : Words} (op : RbOp) (mem : Memory) {t : Finset Nat}
    (left : ∀ v, v < chunkSize → bit wa v = decide (v ∈ s))
    (right : ∀ v, v < chunkSize → bit wb v = decide (v ∈ t))
    (insideL : ∀ v ∈ s, v < chunkSize) (insideR : ∀ v ∈ t, v < chunkSize) :
    Makes (wordsOp key wa wb op mem) key (op.apply s t) mem := by
  have same : wordMembers (fun i => op.word (wa i) (wb i)) = op.apply s t := by
    ext v
    simp only [wordMembers, Finset.mem_filter, Finset.mem_range, bit_word, op.mem_apply]
    constructor
    · rintro ⟨inside, taken⟩
      rwa [left v inside, right v inside] at taken
    · intro taken
      have inside : v < chunkSize := by
        by_contra out
        have notL : v ∉ s := fun member => out (insideL v member)
        have notR : v ∉ t := fun member => out (insideR v member)
        simp [notL, notR, op.takes_none] at taken
      exact ⟨inside, by rwa [left v inside, right v inside]⟩
  unfold wordsOp
  split_ifs with ok
  · exact .inr ⟨rfl, _, ok⟩
  · exact adoptWords_makes key _ mem same (by rw [popcnt_eq, same])

theorem arrArrOp_makes {x y : List Nat} (validA : a.Valid) (validB : b.Valid)
    (bodyA : a.body = .arr x) (bodyB : b.body = .arr y) (op : RbOp) (mem : Memory) :
    Makes (arrArrOp a.key a b x y op mem) a.key (op.apply x.toFinset y.toFinset) mem := by
  simp only [Ct.Valid, bodyA] at validA
  simp only [Ct.Valid, bodyB] at validB
  have sorted := mergeArrays_sorted op x y validA.1 validB.1
  have same := mergeArrays_toFinset op validA.1 validB.1
  have size : (mergeArrays op x y).length = (op.apply x.toFinset y.toFinset).card := by
    rw [← same, card_toFinset_sorted sorted]
  have room := mergeArrays_length op validA.1 validB.1
  have inside : ∀ v ∈ mergeArrays op x y, v < chunkSize := fun v member =>
    (mergeArrays_from op member).elim (validA.2.1 v) (validB.2.1 v)
  unfold arrArrOp
  rw [validA.2.2.1, validB.2.2.1]
  by_cases failed : mergeCap op x.length y.length ≠ 0 ∧ mem .array = false
  · rw [if_pos failed]
    exact .inr ⟨rfl, _, failed.2⟩
  rw [if_neg failed]
  by_cases none : (mergeArrays op x y).length = 0
  · simp only [if_pos none]
    exact makes_empty mem (Finset.card_eq_zero.mp (by omega))
  simp only [if_neg none]
  by_cases small : (mergeArrays op x y).length ≤ arrMax
  · simp only [if_pos small]
    have array := holds_array a.key _ sorted inside small room
    rw [same] at array
    exact .inl ⟨_, by rw [size], array⟩
  · simp only [if_neg small]
    split_ifs with ok
    · refine adoptWords_makes a.key _ mem ?_ size
      rw [wordMembers_arrToWords inside, same]
    · exact .inr ⟨rfl, _, by simpa using ok⟩

theorem filter_toFinset (x : List Nat) (body : Body) (op : RbOp) (kind : op = .and ∨ op = .andnot)
    (inside : ∀ v ∈ x, v < chunkSize) :
    (x.filter fun v => bit (wordsOf body) v = decide (op = .and)).toFinset = op.apply x.toFinset body.members := by
  ext v
  simp only [mem_toFinset, mem_filter, op.mem_apply]
  by_cases member : v ∈ x
  · rw [bit_wordsOf body (inside v member)]
    rcases kind with rfl | rfl <;> simp [RbOp.takes, member]
  · rcases kind with rfl | rfl <;> simp [RbOp.takes, member]

theorem arrFilterOp_makes {x : List Nat} (valid : a.Valid) (bodyA : a.body = .arr x)
    (body : Body) (op : RbOp) (kind : op = .and ∨ op = .andnot) (key : Nat) (mem : Memory) :
    Makes (arrFilterOp key a x (wordsOf body) op mem) key (op.apply x.toFinset body.members) mem := by
  simp only [Ct.Valid, bodyA] at valid
  have same := filter_toFinset x body op kind valid.2.1
  have shorter := length_filter_le (fun v => decide (bit (wordsOf body) v = decide (op = .and))) x
  unfold arrFilterOp
  generalize filtered : (x.filter fun v => bit (wordsOf body) v = decide (op = .and)) = o at same shorter ⊢
  have sorted : o.Pairwise (· < ·) := by
    rw [← filtered]
    exact valid.1.filter _
  have inside : ∀ v ∈ o, v < chunkSize := fun v member => by
    rw [← filtered] at member
    exact valid.2.1 v (mem_filter.mp member).1
  split_ifs with failed
  · exact .inr ⟨rfl, _, failed⟩
  by_cases none : o.length = 0
  · rw [if_pos none]
    refine makes_empty mem ?_
    rw [← same, length_eq_zero_iff.mp none]
    rfl
  · rw [if_neg none]
    have array := holds_array key a.card sorted inside (by omega) (by omega)
    rw [same] at array
    refine .inl ⟨_, ?_, array⟩
    rw [← same, card_toFinset_sorted sorted]

theorem RbOp.apply_and_comm (s t : Finset Nat) : RbOp.and.apply s t = RbOp.and.apply t s := by
  ext v
  simp only [RbOp.mem_apply, RbOp.takes, Bool.and_comm]

theorem ctOpBoth_makes (validA : a.Valid) (validB : b.Valid) (keys : a.key = b.key) (op : RbOp) (mem : Memory) :
    Makes (ctOpBoth a b op mem) a.key (op.apply a.body.members b.body.members) mem := by
  have words := wordsOp_makes a.key op mem (fun v => bit_wordsOf a.body (v := v))
    (fun v => bit_wordsOf b.body (v := v)) (fun _ => validA.inside) (fun _ => validB.inside)
  unfold ctOpBoth
  cases bodyA : a.body <;> cases bodyB : b.body <;> rw [bodyA, bodyB] at words
  case arr.arr => exact arrArrOp_makes validA validB bodyA bodyB op mem
  case arr.bmp | arr.full =>
    simp only
    split_ifs with kind
    · exact arrFilterOp_makes validA bodyA _ op kind a.key mem
    · exact words
  case bmp.arr | full.arr =>
    simp only
    split_ifs with kind
    · subst kind
      rw [RbOp.apply_and_comm, keys]
      exact arrFilterOp_makes validB bodyB _ .and (.inl rfl) b.key mem
    · exact words
  case bmp.bmp | bmp.full | full.bmp | full.full => exact words
  all_goals simp [Ct.Valid, bodyA, bodyB] at validA validB

theorem Makes.card {r : Option (Nat × Ct)} {key : Nat}
    (makes : Makes r key s fun _ => true) : r.map Prod.fst = some s.card := by
  rcases makes with ⟨t, rfl, _⟩ | ⟨_, _, bad⟩
  · rfl
  · contradiction

theorem ctOpCardBoth_eq (validA : a.Valid) (validB : b.Valid) (keys : a.key = b.key)
    (op : RbOp) : ctOpCardBoth a b op = (op.apply a.body.members b.body.members).card := by
  have built := (ctOpBoth_makes validA validB keys op fun _ => true).card
  have arrays : ∀ x y, (arrArrOp a.key a b x y op fun _ => true).map Prod.fst =
      some (mergeArrays op x y).length := fun x y => by
    unfold arrArrOp
    simp only [Bool.true_eq_false, and_false, if_false, if_true]
    split_ifs with none small
    · simp [none]
    · rfl
    · unfold adoptWords
      split_ifs <;> rfl
  have words : ∀ wa wb, (wordsOp a.key wa wb op fun _ => true).map Prod.fst =
      some (popcnt fun i => op.word (wa i) (wb i)) := fun wa wb => by
    unfold wordsOp adoptWords
    simp only [Bool.true_eq_false, if_false, if_true]
    split_ifs <;> rfl
  have part : ∀ key c x wb, (arrFilterOp key c x wb op fun _ => true).map Prod.fst =
      some (x.filter fun v => bit wb v = decide (op = .and)).length := fun key c x wb => by
    unfold arrFilterOp
    simp only [Bool.true_eq_false, if_false]
    split_ifs with none
    · simp [none]
    · rfl
  apply Option.some.inj
  rw [← built]
  unfold ctOpBoth ctOpCardBoth
  cases a.body <;> cases b.body <;> simp only <;> first
    | exact (arrays _ _).symm
    | exact (words _ _).symm
    | (split_ifs
       · exact (part _ _ _ _).symm
       · exact (words _ _).symm)

theorem ctOpOne_makes {c : Ct} (valid : c.Valid) (left : Bool) (op : RbOp) (mem : Memory) :
    Makes (ctOpOne c left op mem) c.key (if left then op.apply c.body.members ∅ else op.apply ∅ c.body.members) mem ∧
    ctOpCardOne c left op = (if left then op.apply c.body.members ∅ else op.apply ∅ c.body.members).card := by
  have sets : (if left then op.apply c.body.members ∅ else op.apply ∅ c.body.members) =
      if op = .and ∨ (op = .andnot ∧ left = false) then ∅ else c.body.members := by
    cases left <;> cases op <;> ext v <;> simp [RbOp.mem_apply, RbOp.takes]
  rw [sets]
  unfold ctOpOne ctOpCardOne
  split_ifs with dropped
  · exact ⟨makes_empty mem rfl, rfl⟩
  · refine ⟨?_, valid.card_eq⟩
    rw [valid.card_eq]
    rcases ctCopy_spec valid mem with ⟨t, done, holds⟩ | ⟨failed, site⟩
    · rw [done]
      exact .inl ⟨t, rfl, holds⟩
    · rw [failed]
      exact .inr ⟨rfl, site⟩

end Pairs

section

variable (sorted : a.Pairwise (· < ·))
include sorted

theorem arrHas_cut (lo : Nat) : Search.Cut a lo (arrHas a lo).2 ∧ (arrHas a lo).1 = decide (lo ∈ a) := by
  have cut := Search.lowerBound_cut sorted lo
  refine ⟨cut, ?_⟩
  unfold arrHas
  simp only [cut.mem_iff sorted]

theorem cut_insert {lo p : Nat} (cut : Search.Cut a lo p)
    (new : lo ∉ a) : (a.take p ++ lo :: a.drop p).Pairwise (· < ·) ∧
      (a.take p ++ lo :: a.drop p).toFinset = insert lo a.toFinset ∧
      (a.take p ++ lo :: a.drop p).length = a.length + 1 := by
  refine ⟨cut.insert_sorted sorted new, ?_, ?_⟩
  · ext v
    rw [mem_toFinset, mem_append, mem_cons, Finset.mem_insert, mem_toFinset]
    nth_rewrite 3 [← take_append_drop p a]
    rw [mem_append]
    tauto
  · have := cut.inside
    simp only [length_append, length_cons, length_take, length_drop]
    omega

theorem cut_erase {lo p : Nat} (cut : Search.Cut a lo p)
    (old : lo ∈ a) : (a.eraseIdx p).Pairwise (· < ·) ∧ (a.eraseIdx p).toFinset = a.toFinset.erase lo ∧
      (a.eraseIdx p).length = a.length - 1 := by
  obtain ⟨inside, here⟩ := (cut.mem_iff sorted).mpr old
  rw [getD_eq_getElem _ _ inside] at here
  have nodup : a.Nodup := sorted.imp fun lt => Nat.ne_of_lt lt
  have same : a.eraseIdx p = a.erase lo := by
    rw [← here, List.Nodup.erase_getElem nodup p inside]
  refine ⟨sorted.sublist (eraseIdx_sublist a p), ?_, length_eraseIdx_of_lt inside⟩
  rw [same]
  ext v
  simp only [mem_toFinset, Finset.mem_erase]
  exact List.Nodup.mem_erase_iff nodup

end

theorem ctHas_eq (valid : c.Valid) {lo : Nat} (inside : lo < chunkSize) :
    ctHas c lo = decide (lo ∈ c.body.members) := by
  unfold ctHas
  cases body : c.body with
  | none => simp [Ct.Valid, body] at valid
  | arr a =>
    simp only [Ct.Valid, body] at valid
    simp only [(arrHas_cut valid.1 lo).2, Body.members, mem_toFinset]
  | bmp w => exact bit_wordsOf _ inside
  | full => exact bit_wordsOf _ inside

end DynaJS.Roaring
