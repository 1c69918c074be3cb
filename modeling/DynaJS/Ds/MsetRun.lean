import DynaJS.Ds.Mset
import Mathlib.Data.UInt

/-! Whole runs of the multiset against a function from keys to counts. The counts are
right throughout; the running total is right as long as it is not lowered after it has
saturated. -/
namespace DynaJS.Ds

open Nat List

variable {K : Type} [DecidableEq K] {hash : K → Nat}

inductive MsetOp (K : Type) where
  | add (k : K) (delta : Int64) (mem : Nat → Bool)
  | setCount (k : K) (c : UInt64) (mem : Nat → Bool)

def MsetOp.key : MsetOp K → K
  | .add k _ _ => k
  | .setCount k _ _ => k

def MsetOp.mem : MsetOp K → Nat → Bool
  | .add _ _ mem => mem
  | .setCount _ _ mem => mem

def MsetOp.exec (hash : K → Nat) (m : Mset K) : MsetOp K → Int × Mset K
  | .add k delta mem => ((msetAdd hash m k delta.toInt mem).1, (msetAdd hash m k delta.toInt mem).2.1)
  | .setCount k c mem => msetSetCount hash m k c.toNat mem

/-- The count a call gives its key: additions saturate at both ends. -/
def MsetOp.apply (cur : Nat) : MsetOp K → Nat
  | .add _ delta _ =>
    if delta.toInt < 0 then cur - (-delta.toInt).toNat else min (cur + delta.toInt.toNat) u64Max
  | .setCount _ c _ => c.toNat

def MsetOp.denote (counts : K → Nat) (op : MsetOp K) : K → Nat :=
  Function.update counts op.key (op.apply (counts op.key))

def msetTotal (m : Mset K) : Nat := m.total

/-- One call on the code and on the counts side by side. A call that returns -1 stands
for no change. -/
def msetStep (hash : K → Nat) (state : Mset K × (K → Nat)) (op : MsetOp K) : Mset K × (K → Nat) :=
  ((op.exec hash state.1).2,
    if (op.exec hash state.1).1 = 0 then op.denote state.2 else state.2)

def msetRun (hash : K → Nat) (ops : List (MsetOp K)) : Mset K × (K → Nat) :=
  ops.foldl (msetStep hash) (msetNew, fun _ => 0)

theorem msetRun_append (ops : List (MsetOp K)) (op : MsetOp K) :
    msetRun hash (ops ++ [op]) = msetStep hash (msetRun hash ops) op := by
  simp [msetRun]

theorem u64SatAdd_eq {a b : Nat} (ha : a ≤ u64Max) (hb : b ≤ u64Max) : u64SatAdd a b = min (a + b) u64Max := by
  unfold u64SatAdd u64Max at *
  dsimp only
  split_ifs <;> omega

theorem u64Sub_eq {a b : Nat} (ha : a ≤ u64Max) (h : b ≤ a) : u64Sub a b = a - b := by
  unfold u64Sub u64Max at *
  omega

theorem u64SatAdd_le (a b : Nat) : u64SatAdd a b ≤ u64Max := by
  unfold u64SatAdd u64Max
  dsimp only
  split_ifs <;> omega

theorem u64Sub_le (a b : Nat) : u64Sub a b ≤ u64Max := by
  unfold u64Sub u64Max
  omega

variable {m : Mset K}

theorem Mset.Valid.retotal (v : m.Valid hash) {t : Nat} (bound : t ≤ u64Max) :
    ({ m with total := t } : Mset K).Valid hash :=
  ⟨v.index, v.hashes, v.counts, v.capacity, v.room, bound⟩

theorem Counted.retotal {m m' : Mset K} {k : K} {c t : Nat} (h : Counted hash m m' k c)
    (bound : t ≤ u64Max) : Counted hash m { m' with total := t } k c :=
  ⟨h.valid.retotal bound, h.counts, h.sum⟩

theorem counted_refl (v : m.Valid hash) (k : K) : Counted hash m m k (msetCount hash m k) :=
  ⟨v, (Function.update_eq_self _ _).symm, rfl⟩

theorem msetCount_le (v : m.Valid hash) (k : K) : msetCount hash m k ≤ u64Max := by
  by_cases stored : ∃ r ∈ m.recs, r.key = k
  · obtain ⟨r, hr, rfl⟩ := stored
    rw [msetCount_mem v hr]
    exact (v.counts r hr).2
  · rw [msetCount_absent v fun r hr eq => stored ⟨r, hr, eq⟩]
    exact zero_le _

theorem msetCount_le_sum (v : m.Valid hash) (k : K) : msetCount hash m k ≤ m.sum := by
  by_cases stored : ∃ r ∈ m.recs, r.key = k
  · obtain ⟨r, hr, rfl⟩ := stored
    rw [msetCount_mem v hr]
    exact single_le_sum (by simp) _ (mem_map.mpr ⟨r, hr, rfl⟩)
  · rw [msetCount_absent v fun r hr eq => stored ⟨r, hr, eq⟩]
    exact zero_le _

/-- The outcome of a call: its key gets the count of `apply` and the total follows as
long as it covers the old count, or the call returns -1 for want of room and changes nothing. -/
structure Outcome (hash : K → Nat) (m : Mset K) (op : MsetOp K) (r : Int × Mset K) : Prop where
  valid : r.2.Valid hash
  result : (r.1 = 0 ∧ Counted hash m r.2 op.key (op.apply (msetCount hash m op.key)) ∧
      (msetCount hash m op.key ≤ m.total → r.2.total =
        min (m.total + op.apply (msetCount hash m op.key) - msetCount hash m op.key) u64Max)) ∨
    (r.1 = -1 ∧ r.2.recs = m.recs ∧ r.2.ix = m.ix ∧ r.2.total = m.total ∧ msetCount hash m op.key = 0 ∧
      Refused op.mem m.recs.length)

section Outcomes

variable (v : m.Valid hash) (op : MsetOp K)
include v

theorem Outcome.same (same : op.apply (msetCount hash m op.key) = msetCount hash m op.key) :
    Outcome hash m op (0, m) := by
  have tot := v.total
  refine ⟨v, .inl ⟨rfl, ?_, fun _ => ?_⟩⟩
  · rw [same]
    exact counted_refl v op.key
  · rw [same]
    dsimp only
    omega

theorem Outcome.replaced {p nv t : Nat} (found : ixFind m.ix (hash op.key) op.key = some p)
    (gives : op.apply (msetCount hash m op.key) = nv) (bound : nv ≤ u64Max) (total : t ≤ u64Max)
    (amount : msetCount hash m op.key ≤ m.total → t = min (m.total + nv - msetCount hash m op.key) u64Max) :
    Outcome hash m op (0, if nv = 0 then msetErase { m with total := t } (m.ix.idxAt p) p
      else { m with total := t }.setCountAt (m.ix.idxAt p) nv) := by
  subst gives
  split_ifs with zero
  · have erased := msetErase_counted v found
    rw [← zero] at erased
    have done := erased.retotal total
    exact ⟨done.valid, .inl ⟨rfl, done, amount⟩⟩
  · have done := (setCountAt_counted v found (pos_of_ne_zero zero) bound).retotal total
    exact ⟨done.valid, .inl ⟨rfl, done, amount⟩⟩

theorem Outcome.appended {c : Nat} (missing : ixFind m.ix (hash op.key) op.key = none)
    (gives : op.apply 0 = c) (positive : 0 < c) (bound : c ≤ u64Max) :
    Outcome hash m op (msetAppend m (hash op.key) op.key c op.mem) := by
  subst gives
  have cur : msetCount hash m op.key = 0 := by simp [msetCount, missing]
  rcases msetAppend_spec v missing positive bound op.mem with
    ⟨rc, done, total⟩ | ⟨rc, valid, recs, ix, total, refused⟩
  · refine ⟨done.valid, .inl ⟨rc, ?_, fun _ => ?_⟩⟩
    · rw [cur]
      exact done
    · rw [cur, total, u64SatAdd_eq v.total bound]
      omega
  · exact ⟨valid, .inr ⟨rc, recs, ix, total, cur, refused⟩⟩

theorem msetSetCount_outcome (k : K) (c : UInt64) (mem : Nat → Bool) :
    Outcome hash m (.setCount k c mem) (msetSetCount hash m k c.toNat mem) := by
  have bound : c.toNat ≤ u64Max := le_of_lt_succ c.toNat_lt
  have tot := v.total
  simp only [msetSetCount]
  cases found : ixFind m.ix (hash k) k with
  | some p =>
    have cur : msetCount hash m k = m.countAt (m.ix.idxAt p) := by simp [msetCount, found]
    refine Outcome.replaced v (.setCount k c mem) found rfl bound (u64SatAdd_le _ _) fun covers => ?_
    simp only [MsetOp.key] at covers ⊢
    rw [← cur, u64Sub_eq tot covers, u64SatAdd_eq (by omega) bound]
    omega
  | none =>
    have cur : msetCount hash m k = 0 := by simp [msetCount, found]
    split_ifs with zero
    · exact Outcome.same v _ (zero.trans cur.symm)
    · exact Outcome.appended v (.setCount k c mem) found rfl (pos_of_ne_zero zero) bound

theorem msetAdd_outcome (k : K) (delta : Int64) (mem : Nat → Bool) :
    Outcome hash m (.add k delta mem) ((MsetOp.add k delta mem).exec hash m) := by
  have high := delta.toInt_lt
  have tot := v.total
  have old := msetCount_le v k
  simp only [MsetOp.exec, msetAdd]
  by_cases negative : delta.toInt < 0
  · -- A removal: the count drops by the magnitude, or to zero.
    simp only [if_pos negative]
    have magnitude : (-(delta.toInt + 1)).toNat + 1 = (-delta.toInt).toNat := by omega
    rw [magnitude]
    have apply : ∀ cur, (MsetOp.add k delta mem).apply cur =
        if cur ≤ (-delta.toInt).toNat then 0 else cur - (-delta.toInt).toNat := fun cur => by
      simp only [MsetOp.apply, if_pos negative]
      split_ifs <;> omega
    cases found : ixFind m.ix (hash k) k with
    | none =>
      have cur : msetCount hash m k = 0 := by simp [msetCount, found]
      have same : u64Sub m.total 0 = m.total := u64Sub_eq tot (zero_le _)
      simp only [zero_le, if_true, same]
      refine Outcome.same v _ ?_
      simp [MsetOp.key, apply, cur]
    | some p =>
      have cur : msetCount hash m k = m.countAt (m.ix.idxAt p) := by simp [msetCount, found]
      simp only [← cur, ← apply]
      have less : (MsetOp.add k delta mem).apply (msetCount hash m k) ≤ msetCount hash m k := by
        rw [apply]
        split_ifs <;> omega
      refine Outcome.replaced v (.add k delta mem) found rfl (less.trans old) (u64Sub_le _ _) fun covers => ?_
      simp only [MsetOp.key] at covers ⊢
      rw [u64Sub_eq tot (by omega)]
      omega
  · simp only [if_neg negative]
    have bound : delta.toInt.toNat ≤ u64Max := by unfold u64Max; omega
    have apply : ∀ cur, (MsetOp.add k delta mem).apply cur = min (cur + delta.toInt.toNat) u64Max :=
      fun cur => by simp only [MsetOp.apply, if_neg negative]
    by_cases nothing : delta.toInt = 0
    · simp only [if_pos nothing]
      refine Outcome.same v _ ?_
      rw [apply, nothing]
      simpa [MsetOp.key] using old
    · simp only [if_neg nothing]
      cases found : ixFind m.ix (hash k) k with
      | some p =>
        have cur : msetCount hash m k = m.countAt (m.ix.idxAt p) := by simp [msetCount, found]
        dsimp only
        rw [← cur, u64SatAdd_eq old bound, ← apply]
        generalize hn : (MsetOp.add k delta mem).apply (msetCount hash m k) = nc
        have more : msetCount hash m k ≤ nc ∧ nc ≠ 0 ∧ nc ≤ u64Max := by
          rw [← hn, apply]
          omega
        have out := Outcome.replaced v (.add k delta mem) found hn more.2.2
          (u64SatAdd_le m.total (nc - msetCount hash m k))
          fun covers => by
            rw [u64SatAdd_eq tot (by omega)]
            simp only [MsetOp.key]
            omega
        rwa [if_neg more.2.1] at out
      | none =>
        refine Outcome.appended v (.add k delta mem) found ?_ (by omega) bound
        rw [apply]
        omega

end Outcomes

theorem msetOp_outcome (v : m.Valid hash) (op : MsetOp K) : Outcome hash m op (op.exec hash m) := by
  cases op with
  | add k delta mem => exact msetAdd_outcome v k delta mem
  | setCount k c mem => exact msetSetCount_outcome v k c mem

theorem msetRun_valid (hash : K → Nat) (ops : List (MsetOp K)) : (msetRun hash ops).1.Valid hash ∧
    msetCount hash (msetRun hash ops).1 = (msetRun hash ops).2 := by
  induction ops using List.reverseRecOn with
  | nil => exact ⟨msetNew_valid, rfl⟩
  | append_singleton ops op ih =>
    obtain ⟨v, same⟩ := ih
    have out := msetOp_outcome v op
    rw [msetRun_append]
    refine ⟨out.valid, ?_⟩
    rcases out.result with ⟨rc, counted, _⟩ | ⟨rc, recs, ix, _, _⟩
    · simp only [msetStep, rc, if_true, MsetOp.denote, counted.counts, same]
    · simp only [msetStep, rc]
      rw [if_neg (by decide), ← same]
      funext k
      simp only [msetCount, Mset.countAt, recs, ix]

theorem mset_support (v : m.Valid hash) :
    {k | msetCount hash m k ≠ 0} = ((m.recs.map MsetRec.key).toFinset : Set K) := by
  ext k
  simp only [Set.mem_ofPred_eq, coe_toFinset, mem_map]
  constructor
  · intro nonzero
    by_contra absent
    exact nonzero (msetCount_absent v fun r hr eq => absent ⟨r, hr, eq⟩)
  · rintro ⟨r, hr, rfl⟩
    rw [msetCount_mem v hr]
    have := (v.counts r hr).1
    omega

theorem mset_finsum (v : m.Valid hash) : ∑ᶠ k, msetCount hash m k = m.sum := by
  have support : Function.support (msetCount hash m) ⊆ ((m.recs.map MsetRec.key).toFinset : Set K) :=
    (mset_support v).le
  rw [finsum_eq_sum_of_support_subset _ support, sum_toFinset _ v.index.nodup, map_map]
  congr 1
  exact map_congr_left fun r hr => msetCount_mem v hr

/-- From a right total, a call leaves a right total exactly when the true sum had not
passed the cap or the call does not lower its key's count. -/
theorem mset_total_step (v : m.Valid hash) (op : MsetOp K) (right : m.total = min m.sum u64Max) :
    (op.exec hash m).2.total = min (op.exec hash m).2.sum u64Max ↔
      m.sum ≤ u64Max ∨ msetCount hash m op.key ≤ op.apply (msetCount hash m op.key) := by
  have part := msetCount_le_sum v op.key
  have small := msetCount_le v op.key
  rcases (msetOp_outcome v op).result with ⟨_, counted, total⟩ | ⟨_, recs, _, total, zero, _⟩
  · have sum := counted.sum
    rw [total (by omega)]
    omega
  · have sum : (op.exec hash m).2.sum = m.sum := by rw [Mset.sum, recs, Mset.sum]
    rw [total, sum, zero]
    simp [right]

/-- Over every run of additions and settings the counts are the saturating results of
the calls, no record stands at zero and the distinct keys are those with a count. The
total is the capped sum of the counts in every state of the run exactly when no call
lowers a count while the true sum is past the cap. A call returns 0, or -1 if its memory was
refused or the index is full. -/
theorem mset_totals_iff (hash : K → Nat) (ops : List (MsetOp K)) :
    (∀ k, msetCount hash (msetRun hash ops).1 k = (msetRun hash ops).2 k) ∧
    (∀ r ∈ (msetRun hash ops).1.recs, r.count ≠ 0) ∧
    msetDistinct (msetRun hash ops).1 = {k | (msetRun hash ops).2 k ≠ 0}.ncard ∧
    (∀ op : MsetOp K, let r := op.exec hash (msetRun hash ops).1
      r.1 = 0 ∨ (r.1 = -1 ∧ Refused op.mem (msetRun hash ops).1.recs.length)) ∧
    ((∀ before after, ops = before ++ after →
        msetTotal (msetRun hash before).1 = min (∑ᶠ k, (msetRun hash before).2 k) u64Max) ↔
      ∀ before op after, ops = before ++ op :: after → ∑ᶠ k, (msetRun hash before).2 k ≤ u64Max ∨
        (msetRun hash before).2 op.key ≤ op.apply ((msetRun hash before).2 op.key)) := by
  obtain ⟨v, same⟩ := msetRun_valid hash ops
  have total : ∀ before, ∑ᶠ k, (msetRun hash before).2 k = (msetRun hash before).1.sum := fun before => by
      obtain ⟨v, same⟩ := msetRun_valid hash before
      rw [← mset_finsum v, same]
  have step : ∀ before op, (msetRun hash (before ++ [op])).1 =
      (op.exec hash (msetRun hash before).1).2 := fun before op => by
    rw [msetRun_append]
    rfl
  refine ⟨fun k => congrFun same k, fun r hr => ?_, ?_, fun op => ?_, ?_, ?_⟩
  · have := (v.counts r hr).1
    omega
  · rw [← same, mset_support v, Set.ncard_coe_finset, toFinset_card_of_nodup v.index.nodup, length_map]
    rfl
  · exact (msetOp_outcome v op).result.imp And.left fun ⟨rc, _, _, _, _, refused⟩ => ⟨rc, refused⟩
  · intro right before op after cut
    have now := right before (op :: after) cut
    have next := right (before ++ [op]) after (by simp [cut])
    obtain ⟨v, same⟩ := msetRun_valid hash before
    rw [total] at now next
    rw [step] at next
    rw [total, ← same]
    exact (mset_total_step v op now).mp next
  · intro gentle before after cut
    induction before using List.reverseRecOn generalizing after with
    | nil =>
      rw [total]
      rfl
    | append_singleton before op ih =>
      have now := ih (op :: after) (by simp [cut])
      obtain ⟨v, same⟩ := msetRun_valid hash before
      have cond := gentle before op after (by simp [cut])
      rw [total] at now
      rw [total, ← same] at cond
      rw [total, step]
      exact (mset_total_step v op now).mpr cond

/-- Two keys at the largest count saturate the total; removing one of them takes the
whole total away while the other key still has its count. -/
theorem total_drops_to_zero :
    let s := msetRun (fun _ : List UInt8 => 1) [.setCount [97] (2 ^ 64 - 1) fun _ => true,
      .setCount [98] (2 ^ 64 - 1) fun _ => true, .setCount [97] 0 fun _ => true]
    msetTotal s.1 = 0 ∧ msetCount (fun _ => 1) s.1 [98] = u64Max := by
  decide +kernel

end DynaJS.Ds
