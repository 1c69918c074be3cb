import DynaJS.Codec.Snappy

/-! The compressor of `dyn-snappy.c` never finds a match. Each round ends by
entering the window at the next position, and the next round looks up just that
entry: the candidate is always the position itself. Its output is one literal
after another, which the decompressor reads back. -/
namespace DynaJS.Codec

open List Nat

/-- The table holds no position before `i` for the window at `i`. -/
def SelfEntry (i cand : Nat) : Prop := cand = 0 ∨ cand = (i + 1) % 2 ^ 32

variable (src : List UInt8)

/-- The position itself is never a match, not even when its 32-bit entry has
wrapped: the distance is then far past the limit. -/
theorem isMatch_self {i cand : Nat} (self : SelfEntry i cand) : isMatch src i cand = false := by
  simp only [isMatch, decide_eq_false_iff_not, not_and]
  intro nonzero before near
  rcases self with zero | entry
  · exact absurd zero nonzero
  · omega

def litElement (bytes : List UInt8) : List UInt8 := litHeader bytes.length ++ bytes

theorem litHeader_length {n : Nat} (most : n ≤ litSize) : (litHeader n).length ≤ 2 := by
  have bound : litSize = 256 := rfl
  unfold litHeader
  by_cases short : n ≤ 60
  · simp [short]
  · have one : lengthBytes (n - 1) 4 1 = 1 := by
      have : (n - 1) / 2 ^ (8 * 1) = 0 := div_eq_of_lt (by omega)
      simp only [lengthBytes, this, ne_eq, not_true_eq_false, if_false]
    simp [short, one, littleEndianOf]

theorem snElement_literal {bytes : List UInt8} (rest : List UInt8) (some_ : bytes ≠ [])
    (most : bytes.length ≤ litSize) : snElement (litElement bytes ++ rest) = some (.literal bytes, rest) := by
  have bound : litSize = 256 := rfl
  have pos : 0 < bytes.length := length_pos_iff.mpr some_
  have whole : literalOf bytes.length (bytes ++ rest) = some (.literal bytes, rest) := by
    simp [literalOf]
  unfold litElement litHeader
  by_cases short : bytes.length ≤ 60
  · have tag := UInt8.toNat_ofNat_of_lt' (show (bytes.length - 1) * 4 < 256 by omega)
    have type : (bytes.length - 1) * 4 % 4 = 0 := by omega
    have len : (bytes.length - 1) * 4 / 4 = bytes.length - 1 := by omega
    simp only [if_pos short, cons_append, nil_append, snElement, tag, type, len,
      if_neg (by omega : ¬ 60 ≤ bytes.length - 1), Nat.sub_add_cancel pos]
    exact whole
  · have one : lengthBytes (bytes.length - 1) 4 1 = 1 := by
      have : (bytes.length - 1) / 2 ^ (8 * 1) = 0 := div_eq_of_lt (by omega)
      simp only [lengthBytes, this, ne_eq, not_true_eq_false, if_false]
    have low : (bytes.length - 1) % 256 = bytes.length - 1 := mod_eq_of_lt (by omega)
    have value : (UInt8.ofNat (bytes.length - 1)).toNat = bytes.length - 1 := by
      rw [UInt8.toNat_ofNat', low]
    have tag : (UInt8.ofNat ((59 + 1) * 4)).toNat = 240 := rfl
    simp only [if_neg short, one, littleEndianOf, low, cons_append, nil_append, snElement, tag]
    simp only [show 240 / 4 = 60 by decide, le_refl, if_true,
      show 60 - 59 = 1 by decide, length_cons, take_succ_cons, take_zero,
      drop_succ_cons, drop_zero, littleEndian, foldr_cons, foldr_nil, value,
      Nat.mul_zero, Nat.add_zero, Nat.sub_add_cancel pos]
    exact whole

variable (chunks : List (List UInt8))

theorem snElements_literals (sizes : ∀ c ∈ chunks, c ≠ [] ∧ c.length ≤ litSize) (fuel : Nat)
    (enough : (chunks.flatMap litElement).length ≤ fuel) :
    snElements fuel (chunks.flatMap litElement) = some (chunks.map .literal) := by
  induction chunks generalizing fuel with
  | nil => cases fuel <;> rfl
  | cons c chunks ih =>
    have size := sizes c mem_cons_self
    have read := snElement_literal (chunks.flatMap litElement) size.1 size.2
    simp only [flatMap_cons, length_append, map_cons] at enough ⊢
    have pos : 0 < (litElement c).length := by
      have := length_pos_iff.mpr size.1
      simp only [litElement, length_append]
      omega
    cases fuel with
    | zero => omega
    | succ fuel =>
      have rest := ih (fun d member => sizes d (mem_cons_of_mem _ member)) fuel (by omega)
      cases shape : litElement c with
      | nil => simp [shape] at pos
      | cons b tail =>
        rw [shape] at read
        simp only [cons_append, snElements] at read ⊢
        rw [read]
        simp only [rest, Option.map_some]

theorem snVarint_write (fuel k v acc : Nat) (rest : List UInt8) (rounds : k + fuel = 5)
    (small : v * 2 ^ (7 * k) < 2 ^ 32) (last : 0 < fuel) :
    snVarint k acc (snWriteVarint fuel v ++ rest) = some (acc + v * 2 ^ (7 * k), rest) := by
  induction fuel generalizing k v acc with
  | zero => omega
  | succ fuel ih =>
    have limit : k = 4 → v < 16 := by
      rintro rfl
      omega
    simp only [snWriteVarint]
    by_cases big : 0x80 ≤ v
    · have low : k < 4 := by
        by_contra high
        omega
      have byte := UInt8.toNat_ofNat_of_lt' (show v % 128 + 128 < 256 by omega)
      have split : v * 2 ^ (7 * k) = v % 128 * 2 ^ (7 * k) + v / 128 * 2 ^ (7 * (k + 1)) := by
        nth_rewrite 1 [← mod_add_div v 128]
        ring
      simp only [if_pos big, cons_append, snVarint, byte, if_neg (by omega : ¬ 5 ≤ k),
        if_neg (by omega : ¬ (k = 4 ∧ 0x0F < v % 128 + 128)),
        if_neg (by omega : ¬ v % 128 + 128 < 128), show (v % 128 + 128) % 128 = v % 128 by omega]
      rw [ih (k + 1) (v / 128) _ (by omega) (by omega) (by omega), split, add_assoc]
    · have byte := UInt8.toNat_ofNat_of_lt' (show v < 256 by omega)
      simp only [if_neg big, cons_append, nil_append, snVarint, byte,
        if_neg (by omega : ¬ 5 ≤ k), mod_eq_of_lt (by omega : v < 128),
        if_pos (by omega : v < 128)]
      rw [if_neg]
      intro bad
      omega

theorem snWriteVarint_length (fuel v : Nat) : (snWriteVarint fuel v).length ≤ fuel := by
  induction fuel generalizing v with
  | zero => exact le_refl _
  | succ fuel ih =>
    simp only [snWriteVarint]
    split_ifs
    · simpa using ih (v / 128)
    · simp

/-- The state after some rounds: full literal runs written, the rest pending, and
the table entry for the current window its own. -/
structure Literals (src : List UInt8) (st : Comp) (chunks : List (List UInt8)) : Prop where
  inside : st.i ≤ src.length
  out : st.out = snWriteVarint 5 (src.length % 2 ^ 32) ++ chunks.flatMap litElement
  full : ∀ c ∈ chunks, c.length = litSize
  bytes : chunks.flatten ++ st.lit = src.take st.i
  pending : st.lit.length < litSize
  entry : SelfEntry st.i (candidate src st)

theorem flatMap_litElement_length (full : ∀ c ∈ chunks, c.length = litSize) :
    (chunks.flatMap litElement).length ≤ 258 * chunks.length ∧ chunks.flatten.length = 256 * chunks.length := by
  induction chunks with
  | nil => exact ⟨le_refl _, rfl⟩
  | cons c chunks ih =>
    have size := full c mem_cons_self
    have header := litHeader_length (le_of_eq size)
    have rest := ih fun d member => full d (mem_cons_of_mem _ member)
    have bound : litSize = 256 := rfl
    simp only [flatMap_cons, litElement, flatten_cons, length_append, length_cons]
    omega

theorem snFlushLit_fits {src : List UInt8} {st : Comp} {chunks : List (List UInt8)}
    (inv : Literals src st chunks) {lit : List UInt8} (most : lit.length ≤ litSize)
    (room : chunks.flatten.length + lit.length ≤ src.length) :
    snFlushLit st.out (compCap src.length) lit = some (st.out ++ litElement lit) := by
  have header := litHeader_length most
  have sizes := flatMap_litElement_length chunks inv.full
  have varint := snWriteVarint_length 5 (src.length % 2 ^ 32)
  have length : st.out.length ≤ 5 + 258 * chunks.length := by
    rw [inv.out, length_append]
    omega
  unfold snFlushLit
  rw [if_neg (by simp only [compCap]; omega), litElement, append_assoc]

theorem refresh_entry (st : Comp) : SelfEntry st.i (candidate src (refresh src st)) := by
  unfold candidate refresh
  split_ifs with room
  · simp only [if_true]
    exact .inr rfl
  · exact .inl rfl

theorem compStep_literal {src : List UInt8} {st : Comp} {chunks : List (List UInt8)}
    (inv : Literals src st chunks) (inside : st.i < src.length) :
    ∃ next chunks', compStep src (compCap src.length) st = .inl next ∧ next.i = st.i + 1 ∧
      Literals src next chunks' := by
  obtain ⟨lit, more⟩ : ∃ lit, lit = st.lit ++ [src.getD st.i 0] := ⟨_, rfl⟩
  have grown : chunks.flatten ++ lit = src.take (st.i + 1) := by
    rw [more, ← append_assoc, inv.bytes, take_add_one, getD_eq_getElem?_getD, List.getElem?_eq_getElem inside]
    rfl
  have length : chunks.flatten.length + lit.length = st.i + 1 := by
    rw [← length_append, grown, length_take]
    omega
  have size : lit.length = st.lit.length + 1 := by simp [more]
  have pending := inv.pending
  have same : ∀ c, (refresh src c).i = c.i ∧ (refresh src c).out = c.out ∧
      (refresh src c).lit = c.lit := fun c => by
    unfold refresh
    split_ifs <;> exact ⟨rfl, rfl, rfl⟩
  unfold compStep
  simp only [if_pos inside, isMatch_self src inv.entry, Bool.false_eq_true, if_false, ← more]
  by_cases full : lit.length = litSize
  · have flushed := snFlushLit_fits inv (le_of_eq full) (by omega)
    rw [if_pos full, flushed]
    obtain ⟨sameI, sameOut, sameLit⟩ := same ⟨st.i + 1, st.out ++ litElement lit, [], st.tab⟩
    refine ⟨_, chunks ++ [lit], rfl, sameI, ⟨?_, ?_, ?_, ?_, ?_, ?_⟩⟩
    · rw [sameI]
      exact inside
    · rw [sameOut, inv.out]
      simp
    · intro c member
      rcases mem_append.mp member with old | new
      · exact inv.full c old
      · rw [mem_singleton.mp new, full]
    · rw [sameI, sameLit]
      simpa using grown
    · rw [sameLit]
      exact (by decide : 0 < litSize)
    · rw [sameI]
      exact refresh_entry src _
  · rw [if_neg full]
    obtain ⟨sameI, sameOut, sameLit⟩ := same ⟨st.i + 1, st.out, lit, st.tab⟩
    refine ⟨_, chunks, rfl, sameI, ⟨?_, ?_, inv.full, ?_, ?_, ?_⟩⟩
    · rw [sameI]
      exact inside
    · rw [sameOut]
      exact inv.out
    · rw [sameI, sameLit]
      exact grown
    · rw [sameLit]
      simp only
      omega
    · rw [sameI]
      exact refresh_entry src _

theorem snappyCompress_literals : ∃ chunks : List (List UInt8), snappyCompress src true true =
        some (snWriteVarint 5 (src.length % 2 ^ 32) ++ chunks.flatMap litElement) ∧
      chunks.flatten = src ∧ ∀ c ∈ chunks, c ≠ [] ∧ c.length ≤ litSize := by
  have start : Literals src ⟨0, snWriteVarint 5 (src.length % 2 ^ 32), [], fun _ => 0⟩ [] := by
    refine ⟨zero_le _, by simp, by simp, by simp, (by decide : 0 < litSize), ?_⟩
    unfold candidate
    split_ifs <;> exact .inl rfl
  obtain ⟨result, done, chunks, same, flat, sizes⟩ := Loop.run_rule (compStep src (compCap src.length))
    (fun st => ∃ chunks, Literals src st chunks)
    (fun _ r => ∃ chunks : List (List UInt8),
      r = some (snWriteVarint 5 (src.length % 2 ^ 32) ++ chunks.flatMap litElement) ∧
      chunks.flatten = src ∧ ∀ c ∈ chunks, c ≠ [] ∧ c.length ≤ litSize)
    (fun st => src.length - st.i)
    (fun st next inv goes => by
      obtain ⟨chunks, inv⟩ := inv
      by_cases inside : st.i < src.length
      · obtain ⟨next', chunks', step, moved, kept⟩ := compStep_literal inv inside
        rw [step] at goes
        cases Sum.inl.inj goes
        exact ⟨⟨chunks', kept⟩, by omega, fun _ => id⟩
      · simp [compStep, inside] at goes)
    (fun st r inv leaves => by
      obtain ⟨chunks, inv⟩ := inv
      by_cases inside : st.i < src.length
      · obtain ⟨next', chunks', step, _, _⟩ := compStep_literal inv inside
        rw [step] at leaves
        contradiction
      have whole : chunks.flatten ++ st.lit = src := by
        rw [inv.bytes, take_of_length_le (by omega)]
      have sizes : ∀ c ∈ chunks, c ≠ [] ∧ c.length ≤ litSize := fun c member => by
        have size := inv.full c member
        refine ⟨fun empty => ?_, le_of_eq size⟩
        rw [empty] at size
        simp [litSize] at size
      simp only [compStep, if_neg inside, Sum.inr.injEq] at leaves
      unfold flushPending at leaves
      by_cases none : st.lit = []
      · rw [if_pos none, inv.out] at leaves
        rw [none, append_nil] at whole
        exact ⟨chunks, leaves.symm, whole, sizes⟩
      · have pending := le_of_lt inv.pending
        rw [if_neg none, snFlushLit_fits inv pending (by rw [← length_append, whole]), inv.out] at leaves
        refine ⟨chunks ++ [st.lit], by rw [← leaves]; simp, by simpa using whole, fun c member => ?_⟩
        rcases mem_append.mp member with old | new
        · exact sizes c old
        · rw [mem_singleton.mp new]
          exact ⟨none, pending⟩)
    ⟨[], start⟩ (src.length + 1) (by simp only; omega)
  refine ⟨chunks, ?_, flat, sizes⟩
  unfold snappyCompress
  rw [done, same]
  rfl

theorem snStream_compress : ∃ out, ∃ chunks : List (List UInt8), snappyCompress src true true = some out ∧
      snStream out = some (src.length % 2 ^ 32, chunks.map .literal) ∧ chunks.flatten = src ∧
      src.length < out.length := by
  obtain ⟨chunks, done, flat, sizes⟩ := snappyCompress_literals src
  refine ⟨_, chunks, done, ?_, flat, ?_⟩
  · unfold snStream
    rw [snVarint_write 5 0 _ 0 _ rfl (by omega) (by omega)]
    simp only [zero_add, Nat.mul_zero, pow_zero, mul_one]
    rw [snElements_literals chunks sizes _ (le_refl _)]
    rfl
  · have body : ∀ cs : List (List UInt8), cs.flatten.length ≤ (cs.flatMap litElement).length := by
      intro cs
      induction cs with
      | nil => exact le_refl _
      | cons c cs ih =>
        simp only [flatten_cons, flatMap_cons, litElement, length_append]
        omega
    have varint : 0 < (snWriteVarint 5 (src.length % 2 ^ 32)).length := by
      simp only [snWriteVarint]
      split_ifs <;> simp
    have rest := body chunks
    rw [flat] at rest
    rw [length_append]
    omega

/-- A block decompresses to what was compressed, as long as its length fits the
32-bit header. -/
theorem snappy_round_trip (cap : Nat) (fits : src.length ≤ cap) (header : src.length < 2 ^ 32) :
    ∃ out, snappyCompress src true true = some out ∧ snappyDecompress out cap = some src := by
  obtain ⟨out, chunks, done, stream, flat, _⟩ := snStream_compress src
  refine ⟨out, done, ?_⟩
  have apply : ∀ (cs : List (List UInt8)) o, o.length + cs.flatten.length ≤ cap →
      (cs.map Element.literal).foldlM (snApply cap) o = some (o ++ cs.flatten) := by
    intro cs
    induction cs with
    | nil => intro o _; simp
    | cons c cs ih =>
      intro o room
      simp only [flatten_cons, length_append] at room
      simp only [map_cons, foldlM_cons, snApply,
        if_neg (by omega : ¬ cap - o.length < c.length), flatten_cons, ← append_assoc]
      exact ih (o ++ c) (by rw [length_append]; omega)
  unfold snappyDecompress
  rw [stream]
  simp only [mod_eq_of_lt header, if_neg (by omega : ¬ cap < src.length)]
  rw [apply chunks [] (by rw [flat]; simpa using fits), nil_append, flat]
  simp

theorem snappy_round_trip_three :
    ∃ out, snappyCompress [1, 2, 3] true true = some out ∧ snappyDecompress out 3 = some [1, 2, 3] :=
  snappy_round_trip [1, 2, 3] 3 (by decide) (by decide)

/-- The windows at `p` and `q` are equal and close, and no window between them
takes the table slot. -/
structure Repeats (src : List UInt8) (p q : Nat) : Prop where
  before : p < q
  near : q - p ≤ 65534
  inside : q + 4 ≤ src.length
  same : window src p = window src q
  free : ∀ r, p < r → r < q → snHash src r ≠ snHash src q

def Element.size : Element → Nat
  | .literal bytes => bytes.length
  | .copy _ len => len

def CopyCovers (stream : List Element) (q : Nat) : Prop :=
  ∃ before off len after, stream = before ++ .copy off len :: after ∧
    (before.map Element.size).sum ≤ q ∧ q < (before.map Element.size).sum + len

theorem literals_cover_nothing (q : Nat) : ¬ CopyCovers (chunks.map .literal) q := by
  rintro ⟨before, off, len, after, split, _⟩
  have member : Element.copy off len ∈ chunks.map Element.literal := by
    rw [split]
    simp
  simp at member

/-- No repetition is ever found: on every input the elements of the output are
literals, so none of them copies, and the output is longer than the input. -/
theorem snappy_never_matches (src : List UInt8) : ∃ out elements, snappyCompress src true true = some out ∧
      snStream out = some (src.length % 2 ^ 32, elements) ∧
      (∀ p q, Repeats src p q → ¬ CopyCovers elements q) ∧ ¬ out.length < src.length := by
  obtain ⟨out, chunks, done, stream, _, longer⟩ := snStream_compress src
  refine ⟨out, _, done, stream, fun _ q _ => literals_cover_nothing chunks q, by omega⟩

/-- Sixty-four equal bytes: the window at 0 comes back at 1, no copy covers it and
the output is longer than 64 bytes. -/
theorem snappy_misses_equal_bytes : Repeats (List.replicate 64 97) 0 1 ∧
    ∃ out elements, snappyCompress (List.replicate 64 97) true true = some out ∧
      snStream out = some (64, elements) ∧ ¬ CopyCovers elements 1 ∧ ¬ out.length < 64 := by
  refine ⟨⟨by decide, by decide, by decide, by decide, fun r low high => by omega⟩, ?_⟩
  obtain ⟨out, chunks, done, stream, _, longer⟩ := snStream_compress (List.replicate 64 97)
  rw [length_replicate] at stream longer
  exact ⟨out, _, done, stream, literals_cover_nothing chunks 1, by omega⟩

end DynaJS.Codec
