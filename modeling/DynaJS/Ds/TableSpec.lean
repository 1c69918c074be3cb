import DynaJS.Ds.Table

/-! What every call on the table keeps: the index lists the encoded pairs, and while the
slices stand they chain the keys of all records. -/
namespace DynaJS.Ds

open List Nat

variable {V : Type} {hash : List UInt8 → Nat}

/-! The encoding of pairs. -/

theorem lengthBytes_inj {m n : Nat} (hm : m < 2 ^ 64) (hn : n < 2 ^ 64)
    (same : (List.range 8).map (fun i => UInt8.ofNat (m >>> (i * 8))) =
      (List.range 8).map fun i => UInt8.ofNat (n >>> (i * 8))) : m = n := by
  have byte : ∀ i < 8, m / 2 ^ (i * 8) % 256 = n / 2 ^ (i * 8) % 256 := fun i hi => by
    have at_i := map_inj_left.mp same i (mem_range.mpr hi)
    have := congrArg UInt8.toNat at_i
    simpa [UInt8.toNat_ofNat', shiftRight_eq_div_pow] using this
  have b0 := byte 0 (by decide)
  have b1 := byte 1 (by decide)
  have b2 := byte 2 (by decide)
  have b3 := byte 3 (by decide)
  have b4 := byte 4 (by decide)
  have b5 := byte 5 (by decide)
  have b6 := byte 6 (by decide)
  have b7 := byte 7 (by decide)
  norm_num at b0 b1 b2 b3 b4 b5 b6 b7
  omega

theorem pairBytes_inj {r c r' c' : List UInt8} (hr : r.length < 2 ^ 64) (hr' : r'.length < 2 ^ 64)
    (same : pairBytes r c = pairBytes r' c') : r = r' ∧ c = c' := by
  unfold pairBytes at same
  rw [append_assoc, append_assoc] at same
  obtain ⟨front, rest⟩ := append_inj same (by simp)
  exact append_inj rest (lengthBytes_inj hr hr' front)

def PairFits (r c : List UInt8) : Prop := r.length ≤ (2 ^ 64 + (2 ^ 64 - 9) - c.length) % 2 ^ 64

theorem PairFits.lt {r c : List UInt8} (fits : PairFits r c) : r.length < 2 ^ 64 :=
  lt_of_le_of_lt fits (mod_lt _ (by decide))

def PairGranted (inl : Bool) (r c : List UInt8) (ok : Bool) : Prop :=
  (inl = true ∧ 8 + r.length + c.length ≤ tablePairInline) ∨ ok = true

theorem tablePairInto_eq_some {inl ok : Bool} {r c pk : List UInt8} : tablePairInto inl r c ok = some pk ↔
      PairFits r c ∧ PairGranted inl r c ok ∧ pk = pairBytes r c := by
  unfold tablePairInto PairFits PairGranted
  split_ifs with long granted
  · simp only [false_iff]
    omega
  · simp only [Bool.or_eq_true, Bool.and_eq_true, decide_eq_true_eq] at granted
    simp only [Option.some.injEq, not_lt.mp long, granted, true_and, eq_comm]
  · simp only [Bool.or_eq_true, Bool.and_eq_true, decide_eq_true_eq] at granted
    simp [granted]

/-! The records the slices count. -/

def liveUpTo (recs : List (TableRec V)) (byColumn : Bool) (n i : Nat) : Option (DsKey (List UInt8)) :=
  if i < n then (recs[i]?).map (TableRec.key byColumn) else none

variable {recs : List (TableRec V)}

theorem liveUpTo_succ {n : Nat} {x : TableRec V} (there : recs[n]? = some x) (byColumn : Bool) :
    liveUpTo recs byColumn (n + 1) = Function.update (liveUpTo recs byColumn n) n (some (x.key byColumn)) := by
  funext i
  by_cases here : i = n
  · subst here
    simp [liveUpTo, there]
  · rw [Function.update_of_ne here]
    simp only [liveUpTo, show i < n + 1 ↔ i < n by omega]

theorem liveUpTo_length (recs : List (TableRec V)) (byColumn : Bool) :
    liveUpTo recs byColumn recs.length = fun i => (recs[i]?).map (TableRec.key byColumn) := by
  funext i
  by_cases inside : i < recs.length
  · simp [liveUpTo, inside]
  · simp [liveUpTo, inside]

theorem liveUpTo_append (recs more : List (TableRec V)) (byColumn : Bool) {n : Nat}
    (inside : n ≤ recs.length) : liveUpTo (recs ++ more) byColumn n = liveUpTo recs byColumn n := by
  funext i
  unfold liveUpTo
  split_ifs with early
  · rw [getElem?_append_left (by omega)]
  · rfl

structure TableRec.Keyed (hash : List UInt8 → Nat) (x : TableRec V) : Prop where
  row : x.row.h = hash x.row.bytes
  col : x.col.h = hash x.col.bytes
  pair : x.pair.h = hash x.pair.bytes
  encoded : x.pair.bytes = pairBytes x.row.bytes x.col.bytes
  fits : PairFits x.row.bytes x.col.bytes

structure Table.Valid (hash : List UInt8 → Nat) (t : Table V) : Prop where
  index : Indexes hash t.ix (t.recs.map fun x => x.pair.bytes)
  keyed : ∀ x ∈ t.recs, x.Keyed hash
  capacity : Capacity t.cap
  room : t.recs.length ≤ t.cap
  chained : ∀ b, Chained hash (t.side b) (liveUpTo t.recs b t.sliced)
  links : Capacity t.sliceCap
  bounds : t.sliced ≤ t.sliceCap
  complete : t.slicesValid = true → t.sliced = t.recs.length
  dropped : t.slicesValid = false → t.row = slicesEmpty ∧ t.col = slicesEmpty ∧ t.sliced = 0

theorem slicesEmpty_liveUpTo (recs : List (TableRec V)) (byColumn : Bool) :
    Chained hash slicesEmpty (liveUpTo recs byColumn 0) := by
  exact slicesEmpty_chained

theorem tableNew_valid : (tableNew : Table V).Valid hash where
  index := indexes_empty
  keyed := fun x h => by simp [tableNew] at h
  capacity := .inl rfl
  room := le_refl _
  chained := fun b => by cases b <;> exact slicesEmpty_liveUpTo ..
  links := .inl rfl
  bounds := le_refl _
  complete := fun h => by simp [tableNew] at h
  dropped := fun _ => ⟨rfl, rfl, rfl⟩

variable {t : Table V}

theorem Table.Valid.drop (v : t.Valid hash) : (tableDropSlices t).Valid hash where
  index := v.index
  keyed := v.keyed
  capacity := v.capacity
  room := v.room
  chained := fun b => by cases b <;> exact slicesEmpty_liveUpTo ..
  links := .inl rfl
  bounds := le_refl _
  complete := fun h => by simp [tableDropSlices] at h
  dropped := fun _ => ⟨rfl, rfl, rfl⟩

theorem Table.Valid.length_le (v : t.Valid hash) : t.recs.length ≤ 2 ^ 31 :=
  le_trans v.room (capacity_le v.capacity)

theorem Table.Valid.few (v : t.Valid hash) : t.recs.length ≤ 375809640 := by
  have := v.index.valid.full
  rwa [v.index.size] at this

/-! `table_build_slices` -/

theorem sliceCapFor_some {len k : Nat} (fits : len ≤ 2 ^ 31) (hk : k ≤ 28) (fuel : Nat) (enough : 29 - k ≤ fuel) :
    ∃ c, sliceCapFor len fuel (8 * 2 ^ k) = some c ∧ len ≤ c ∧ Capacity c := by
  induction fuel generalizing k with
  | zero => omega
  | succ fuel ih =>
    unfold sliceCapFor
    split_ifs with short
    · have low : k < 28 := by
        by_contra top
        have : k = 28 := by omega
        subst this
        omega
      rw [double_power low]
      exact ih (by omega) (by omega)
    · exact ⟨_, rfl, by omega, .inr ⟨k, hk, rfl⟩⟩

theorem sliceReserve_spec {sliceCap len : Nat} (h : Capacity sliceCap) (fits : len ≤ 2 ^ 31) (mem : Nat → Bool) :
    (∀ c, sliceReserve sliceCap len mem = some c → len ≤ c ∧ Capacity c) ∧
    (mem 0 = true → mem 1 = true → ∃ c, sliceReserve sliceCap len mem = some c) := by
  obtain ⟨k, hk, start⟩ : ∃ k, k ≤ 28 ∧ (if sliceCap = 0 then 16 else sliceCap) = 8 * 2 ^ k := by
    rcases h with zero | ⟨k, hk, eq⟩
    · exact ⟨1, by decide, by simp [zero]⟩
    · have : 0 < 2 ^ k := Nat.pow_pos (by decide)
      exact ⟨k, hk, by rw [if_neg (by omega), eq]⟩
  obtain ⟨cap, grown, enough, capacity⟩ := sliceCapFor_some fits hk 64 (by omega)
  unfold sliceReserve
  rw [start, grown]
  split_ifs with short granted
  · exact ⟨fun c got => by cases Option.some.inj got; exact ⟨enough, capacity⟩, fun _ _ => ⟨_, rfl⟩⟩
  · exact ⟨fun c got => by contradiction, fun one two => absurd ⟨one, two⟩ granted⟩
  · exact ⟨fun c got => by cases Option.some.inj got; exact ⟨by omega, h⟩, fun _ _ => ⟨_, rfl⟩⟩

theorem liveUpTo_self (recs : List (TableRec V)) (byColumn : Bool) (n : Nat) : liveUpTo recs byColumn n n = none := by
  simp [liveUpTo]

theorem buildLoop_chained (keyed : ∀ x ∈ recs, x.Keyed hash)
    {mem : Nat → Bool} (count i : Nat) (inside : i + count = recs.length)
    {row col row' col' : Slices (List UInt8)} (rows : Chained hash row (liveUpTo recs false i))
    (cols : Chained hash col (liveUpTo recs true i))
    (built : buildLoop recs mem count i (row, col) = some (row', col')) :
    Chained hash row' (liveUpTo recs false recs.length) ∧
    Chained hash col' (liveUpTo recs true recs.length) := by
  induction count generalizing i row col with
  | zero =>
    obtain ⟨rfl, rfl⟩ := built
    rw [← inside]
    exact ⟨rows, cols⟩
  | succ count ih =>
    have there : recs[i]? = some recs[i] := getElem?_eq_getElem (by omega)
    have key := keyed _ (getElem_mem (show i < recs.length by omega))
    simp only [buildLoop, there] at built
    split at built
    · contradiction
    · rename_i row₁ added
      split at built
      · contradiction
      · rename_i col₁ added'
        refine ih (i + 1) (by omega) ?_ ?_ built
        · rw [liveUpTo_succ there]
          exact tableChainAdd_chained rows key.row (liveUpTo_self ..) added
        · rw [liveUpTo_succ there]
          exact tableChainAdd_chained cols key.col (liveUpTo_self ..) added'

theorem buildLoop_succeeds (keyed : ∀ x ∈ recs, x.Keyed hash)
    (few : recs.length ≤ 375809640) (mem : Nat → Bool) (granted : ∀ n, mem n = true) (count i : Nat)
    (inside : i + count = recs.length) {row col : Slices (List UInt8)}
    (rows : Chained hash row (liveUpTo recs false i)) (cols : Chained hash col (liveUpTo recs true i))
    (freshRow : row.Fresh i) (freshCol : col.Fresh i) :
    ∃ s, buildLoop recs mem count i (row, col) = some s := by
  induction count generalizing i row col with
  | zero => exact ⟨_, rfl⟩
  | succ count ih =>
    have there : recs[i]? = some recs[i] := getElem?_eq_getElem (by omega)
    have key := keyed _ (getElem_mem (show i < recs.length by omega))
    obtain ⟨row₁, added⟩ := freshRow.succeeds rows (by omega) key.row i
      (fun n => mem (4 * i + n)) ⟨granted _, granted _⟩
    obtain ⟨col₁, added'⟩ := freshCol.succeeds cols (by omega) key.col i
      (fun n => mem (4 * i + 2 + n)) ⟨granted _, granted _⟩
    simp only [buildLoop, there, added, added']
    refine ih (i + 1) (by omega) ?_ ?_ (freshRow.add rows key.row added) (freshCol.add cols key.col added')
    · rw [liveUpTo_succ there]
      exact tableChainAdd_chained rows key.row (liveUpTo_self ..) added
    · rw [liveUpTo_succ there]
      exact tableChainAdd_chained cols key.col (liveUpTo_self ..) added'

structure Sliced (hash : List UInt8 → Nat) (t : Table V) : Prop where
  keyed : ∀ x ∈ t.recs, x.Keyed hash
  length : t.recs.length ≤ 2 ^ 31
  chained : ∀ b, Chained hash (t.side b) (liveUpTo t.recs b t.sliced)
  links : Capacity t.sliceCap
  inside : t.sliced ≤ t.recs.length

theorem tableBuildSlices_spec (S : Sliced hash t) (mem : Nat → Bool) :
    ((tableBuildSlices t mem).1 = 0 ∧ ∃ row col cap, (tableBuildSlices t mem).2 = { t with
        row := row, col := col, sliceCap := cap, sliced := t.recs.length, slicesValid := true } ∧
      t.recs.length ≤ cap ∧ Capacity cap ∧
      Chained hash row (liveUpTo t.recs false t.recs.length) ∧
      Chained hash col (liveUpTo t.recs true t.recs.length)) ∨
    ((tableBuildSlices t mem).1 = -1 ∧
      ((tableBuildSlices t mem).2 = t ∨ (tableBuildSlices t mem).2 = tableDropSlices t)) := by
  have inside := S.inside
  unfold tableBuildSlices
  cases reserved : sliceReserve t.sliceCap t.recs.length mem with
  | none => exact .inr ⟨rfl, .inl rfl⟩
  | some cap =>
    obtain ⟨enough, capacity⟩ := (sliceReserve_spec S.links S.length mem).1 cap reserved
    cases built : buildLoop t.recs (fun n => mem (n + 2)) (t.recs.length - t.sliced) t.sliced (t.row, t.col) with
    | none => exact .inr ⟨rfl, .inr rfl⟩
    | some s =>
      obtain ⟨rows, cols⟩ := buildLoop_chained S.keyed _ _ (by omega) (S.chained false) (S.chained true) built
      exact .inl ⟨rfl, _, _, cap, rfl, enough, capacity, rows, cols⟩

variable (v : t.Valid hash)
include v

theorem tableBuildSlices_succeeds (off : t.slicesValid = false)
    {mem : Nat → Bool} (granted : ∀ n, mem n = true) : (tableBuildSlices t mem).1 = 0 := by
  obtain ⟨row, col, sliced⟩ := v.dropped off
  obtain ⟨cap, reserved⟩ := (sliceReserve_spec v.links v.length_le mem).2 (granted 0) (granted 1)
  obtain ⟨s, built⟩ := buildLoop_succeeds v.keyed v.few (fun n => mem (n + 2))
    (fun n => granted (n + 2)) t.recs.length 0 (Nat.zero_add _)
    (slicesEmpty_liveUpTo t.recs false) (slicesEmpty_liveUpTo t.recs true) slicesEmpty_fresh
    slicesEmpty_fresh
  simp only [tableBuildSlices, reserved, row, col, sliced, Nat.sub_zero, built]

theorem Table.Valid.sliced : Sliced hash t where
  keyed := v.keyed
  length := v.length_le
  chained := v.chained
  links := v.links
  inside := by
    cases on : t.slicesValid with
    | true => exact Nat.le_of_eq (v.complete on)
    | false => rw [(v.dropped on).2.2]; exact Nat.zero_le _

theorem tableBuildSlices_valid (mem : Nat → Bool) :
    (tableBuildSlices t mem).2.Valid hash ∧ (tableBuildSlices t mem).2.recs = t.recs ∧
    (¬ (tableBuildSlices t mem).1 < 0 → (tableBuildSlices t mem).2.slicesValid = true) := by
  rcases tableBuildSlices_spec v.sliced mem with ⟨rc, row, col, cap, eq, enough, capacity, rows, cols⟩ | ⟨rc, eq | eq⟩
  · rw [eq]
    exact ⟨⟨v.index, v.keyed, v.capacity, v.room, fun b => by cases b <;> assumption, capacity, enough,
      fun _ => rfl, fun h => by simp at h⟩, rfl, fun _ => rfl⟩
  · rw [eq, rc]
    exact ⟨v, rfl, fun h => absurd (by decide) h⟩
  · rw [eq, rc]
    exact ⟨v.drop, rfl, fun h => absurd (by decide) h⟩

end DynaJS.Ds
