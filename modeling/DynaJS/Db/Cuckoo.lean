import Mathlib.Data.Sym.Sym2
import Mathlib.Algebra.BigOperators.Intervals
import Mathlib.Algebra.Order.BigOperators.Group.Finset
import Mathlib.Tactic.Abel
import DynaJS.Db.Serial

/-! The cuckoo filter of `dyna-structures-db.inc.c`. The kick generator is any function
`next` on its state. -/
namespace DynaJS.Db

open List hiding count
open Function Nat Option Bool BitVec

abbrev Fp := BitVec 16

structure Cf (σ : Type) where
  t : Nat → Fp
  nb : BitVec 32
  mask : BitVec 32
  count : BitVec 32
  victimFp : Fp
  victimI : BitVec 32
  hasVictim : Bool
  rng : σ

def cfAlt (mask i : BitVec 32) (fp : Fp) : BitVec 32 :=
  (i ^^^ ((fp.setWidth 64 * 0x5bd1e995#64) >>> 0).setWidth 32) &&& mask

def cfIndex (mask : BitVec 32) (h : BitVec 64) : BitVec 32 := h.setWidth 32 &&& mask

def cfPrint (h : BitVec 64) : Fp :=
  let f := (h >>> 48).setWidth 16
  if f = 0 then 1 else f

def cell (i : BitVec 32) (s : Nat) : Nat := i.toNat * 4 + s

def slotOf (t : Nat → Fp) (i : BitVec 32) (v : Fp) : Option Nat := (List.range 4).find? fun s : Nat => t (cell i s) = v

def cfPut (t : Nat → Fp) (i : BitVec 32) (fp : Fp) : Option (Nat → Fp) :=
  (slotOf t i 0).map fun s => update t (cell i s) fp

def cfHasIn (t : Nat → Fp) (i : BitVec 32) (fp : Fp) : Bool := (slotOf t i fp).isSome

def cfDelIn (t : Nat → Fp) (i : BitVec 32) (fp : Fp) : Option (Nat → Fp) :=
  (slotOf t i fp).map fun s => update t (cell i s) 0

section Model

variable {σ : Type} (next : σ → BitVec 64 × σ)

def cfKick : Nat → Cf σ → BitVec 32 → Fp → Cf σ
  | 0, c, i, fp => { c with victimFp := fp, victimI := i, hasVictim := true, count := c.count + 1 }
  | k + 1, c, i, fp =>
    let (r, rng) := next c.rng
    let s := (r % 4).toNat
    let old := c.t (cell i s)
    let t := update c.t (cell i s) fp
    let i := cfAlt c.mask i old
    match cfPut t i old with
    | some t => { c with t := t, count := c.count + 1, rng := rng }
    | none => cfKick k { c with t := t, rng := rng } i old

def cfInsert (c : Cf σ) (i : BitVec 32) (fp : Fp) : Cf σ × Bool :=
  let i2 := cfAlt c.mask i fp
  if c.hasVictim then (c, false)
  else
    match (cfPut c.t i fp).or (cfPut c.t i2 fp) with
    | some t => ({ c with t := t, count := c.count + 1 }, true)
    | none =>
      let (r, rng) := next c.rng
      (cfKick next 500 { c with rng := rng } (if r &&& 1 ≠ 0 then i else i2) fp, true)

def cfContains (c : Cf σ) (i : BitVec 32) (fp : Fp) : Bool :=
  let i2 := cfAlt c.mask i fp
  if cfHasIn c.t i fp || cfHasIn c.t i2 fp then true
  else c.hasVictim && c.victimFp == fp && (c.victimI == i || c.victimI == i2)

def cfDelete (c : Cf σ) (i : BitVec 32) (fp : Fp) : Cf σ × Bool :=
  let i2 := cfAlt c.mask i fp
  match (cfDelIn c.t i fp).or (cfDelIn c.t i2 fp) with
  | some t =>
    let c := { c with t := t, count := c.count - 1 }
    if c.hasVictim then
      ((cfInsert next { c with hasVictim := false, count := c.count - 1 } c.victimI c.victimFp).1, true)
    else (c, true)
  | none =>
    if c.hasVictim && c.victimFp == fp && (c.victimI == i || c.victimI == i2) then
      ({ c with hasVictim := false, count := c.count - 1 }, true)
    else (c, false)

def cfBuckets (cap : Nat) : Nat → Nat → Nat
  | 0, nb => nb
  | fuel + 1, nb => if nb * 4 * 95 < cap * 100 then cfBuckets cap fuel (nb * 2) else nb

def cfNew (seed : σ) (nb : BitVec 32) : Cf σ := ⟨fun _ => 0, nb, nb - 1, 0, 0, 0, false, seed⟩

def cfWrite (c : Cf σ) : List UInt8 :=
  serLe c.nb.toNat 4 ++ (serLe c.count.toNat 4 ++ (serLe c.hasVictim.toNat 1 ++ (serLe c.victimFp.toNat 2 ++
    (serLe c.victimI.toNat 4 ++ (List.range (c.nb.toNat * 4)).flatMap fun i : Nat => serLe (c.t i).toNat 2))))

def cfReadCells : Nat → Nat → De → (Nat → Fp) → Nat → De × (Nat → Fp) × Nat
  | 0, _, r, t, used => (r, t, used)
  | m + 1, i, r, t, used =>
    let (v, r) := deUint 2 r
    let fp : Fp := BitVec.ofNat 16 v
    cfReadCells m (i + 1) r (update t i fp) (used + if fp ≠ 0 then 1 else 0)

def cfReadTable (seed : σ) (granted : Bool) (nb count hv vf vi : Nat) (r : De) : Option (Cf σ) :=
  if r.err ∨ nb = 0 ∨ nb &&& (nb - 1) ≠ 0 ∨ 2 * 2 ^ 26 < nb * 4 ∨ 1 < hv ∨ hv ≠ 0 ∧ (vf = 0 ∨ nb ≤ vi) then none
  else
    let total := nb * 4
    if deLeft r < total * 2 ∨ (deCharge r (total * 2)).1 = false then none
    else if ¬ granted then none
    else
      let c := cfNew seed (BitVec.ofNat 32 nb)
      let (r, t, used) := cfReadCells total 0 (deCharge r (total * 2)).2 c.t 0
      if r.err ∨ used + hv ≠ count then none
      else some { c with
        t := t
        count := BitVec.ofNat 32 count
        hasVictim := hv ≠ 0
        victimFp := BitVec.ofNat 16 vf
        victimI := BitVec.ofNat 32 vi }

def cfRead (seed : σ) (granted : Bool) (r : De) : Option (Cf σ) :=
  let (nb, r) := deUint 4 r
  let (count, r) := deUint 4 r
  let (hv, r) := deUint 1 r
  let (vf, r) := deUint 2 r
  let (vi, r) := deUint 4 r
  cfReadTable seed granted nb count hv vf vi r

variable (crc32c : List UInt8 → BitVec 32)

def cfSerialize (c : Cf σ) : List UInt8 := serFinish crc32c (serBegin 36 0 ++ cfWrite c)

/-- `CuckooFilter.deserialize`, with what `calloc` answers; `none` if it throws. -/
def cfDeserialize (seed : σ) (granted : Bool) (buf : List UInt8) : Option (Cf σ) :=
  match deOpen crc32c buf 0 with
  | .error _ => none
  | .ok (r, tid, _) => if tid ≠ 36 then none else cfRead seed granted r

end Model

/-! ### What is stored -/

def image (mask i : BitVec 32) (fp : Fp) : Sym2 (BitVec 32) × Fp := (s(i, cfAlt mask i fp), fp)

def cellImage (mask : BitVec 32) (j : Nat) (fp : Fp) : Multiset (Sym2 (BitVec 32) × Fp) :=
  if fp = 0 then 0 else {image mask (BitVec.ofNat 32 (j / 4)) fp}

def cells (mask : BitVec 32) (size : Nat) (t : Nat → Fp) : Multiset (Sym2 (BitVec 32) × Fp) :=
  ∑ j ∈ Finset.range size, cellImage mask j (t j)

def stored {σ : Type} (c : Cf σ) : Multiset (Sym2 (BitVec 32) × Fp) :=
  cells c.mask (c.nb.toNat * 4) c.t + if c.hasVictim then {image c.mask c.victimI c.victimFp} else 0

section Images

variable {mask i : BitVec 32} {fp : Fp} {size : Nat} {t t' : Nat → Fp}

theorem cfAlt_masked (mask i : BitVec 32) (fp : Fp) : cfAlt mask i fp &&& mask = cfAlt mask i fp := by
  rw [cfAlt, BitVec.and_assoc, BitVec.and_self]

theorem cfAlt_cfAlt (masked : i &&& mask = i) : cfAlt mask (cfAlt mask i fp) fp = i := by
  unfold cfAlt
  generalize ((fp.setWidth 64 * 0x5bd1e995#64) >>> 0).setWidth 32 = h
  refine eq_of_getLsbD_eq fun b hb => ?_
  have bit := congrArg (fun x => x.getLsbD b) masked
  simp only [getLsbD_and, getLsbD_xor] at bit ⊢
  revert bit
  cases i.getLsbD b <;> cases mask.getLsbD b <;> cases h.getLsbD b <;> decide

theorem image_alt (masked : i &&& mask = i) (fp : Fp) : image mask (cfAlt mask i fp) fp = image mask i fp := by
  rw [image, image, cfAlt_cfAlt masked, Sym2.eq_swap]

theorem image_eq_iff {i' : BitVec 32} {fp' : Fp} (masked : i &&& mask = i) (masked' : i' &&& mask = i') :
    image mask i' fp' = image mask i fp ↔ fp' = fp ∧ (i' = i ∨ i' = cfAlt mask i fp) := by
  constructor
  · intro same
    obtain ⟨pair, print⟩ := Prod.mk.inj same
    refine ⟨print, ?_⟩
    rcases Sym2.eq_iff.mp pair with ⟨first, -⟩ | ⟨first, -⟩
    · exact .inl first
    · exact .inr first
  · rintro ⟨rfl, rfl | rfl⟩
    · rfl
    · exact image_alt masked _

theorem cells_update (mask : BitVec 32) (t : Nat → Fp) {j : Nat} (hj : j < size) (v : Fp) :
    cells mask size (update t j v) + cellImage mask j (t j) = cells mask size t + cellImage mask j v := by
  have inside := Finset.mem_range.mpr hj
  have moved : (fun x => cellImage mask x (update t j v x)) =
      update (fun x => cellImage mask x (t x)) j (cellImage mask j v) := funext fun x => by
    by_cases here : x = j
    · subst here
      rw [update_self, update_self]
    · rw [update_of_ne here, update_of_ne here]
  rw [cells, moved, Finset.sum_update_of_mem inside, cells, Finset.sum_eq_add_sum_sdiff_singleton_of_mem inside]
  abel

theorem cell_div (i : BitVec 32) {s : Nat} (hs : s < 4) : BitVec.ofNat 32 (cell i s / 4) = i := by
  have back : cell i s / 4 = i.toNat := by
    unfold cell
    omega
  rw [back, BitVec.ofNat_toNat, BitVec.setWidth_eq]

theorem slotOf_some {v : Fp} {s : Nat} (found : slotOf t i v = some s) : s < 4 ∧ t (cell i s) = v := by
  have there := mem_of_find?_eq_some found
  have here := find?_some found
  exact ⟨mem_range.mp there, by simpa using here⟩

theorem slotOf_none {v : Fp} (missing : slotOf t i v = none) (s : Nat) (hs : s < 4) : t (cell i s) ≠ v := by
  have all := find?_eq_none.mp missing s (mem_range.mpr hs)
  simpa using all

theorem cfPut_cells (mask : BitVec 32) (nonzero : fp ≠ 0) (inside : i.toNat * 4 + 4 ≤ size)
    (put : cfPut t i fp = some t') :
    cells mask size t' = cells mask size t + {image mask i fp} := by
  obtain ⟨s, found, rfl⟩ := map_eq_some_iff.mp put
  obtain ⟨hs, empty⟩ := slotOf_some found
  have moved := cells_update mask t (show cell i s < size by unfold cell; omega) fp
  rwa [empty, cellImage, if_pos rfl, add_zero, cellImage, if_neg nonzero, cell_div i hs] at moved

theorem cfDelIn_cells (nonzero : fp ≠ 0) (inside : i.toNat * 4 + 4 ≤ size) (deleted : cfDelIn t i fp = some t') :
    cells mask size t' + {image mask i fp} = cells mask size t := by
  obtain ⟨s, found, rfl⟩ := map_eq_some_iff.mp deleted
  obtain ⟨hs, here⟩ := slotOf_some found
  have moved := cells_update mask t (show cell i s < size by unfold cell; omega) 0
  rw [here] at moved
  rwa [cellImage, if_neg nonzero, cell_div i hs, cellImage, if_pos rfl, add_zero] at moved

theorem kick_cells (mask : BitVec 32) {s : Nat} (nonzero : fp ≠ 0) (inside : i.toNat * 4 + 4 ≤ size) (hs : s < 4)
    (full : t (cell i s) ≠ 0) :
    cells mask size (update t (cell i s) fp) + {image mask i (t (cell i s))} =
      cells mask size t + {image mask i fp} := by
  have moved := cells_update mask t (show cell i s < size by unfold cell; omega) fp
  rwa [cellImage, if_neg full, cellImage, if_neg nonzero, cell_div i hs] at moved

theorem mem_cells {x : Sym2 (BitVec 32) × Fp} :
    x ∈ cells mask size t ↔ ∃ j, j < size ∧ t j ≠ 0 ∧ x = image mask (BitVec.ofNat 32 (j / 4)) (t j) := by
  rw [cells, Multiset.mem_sum]
  refine exists_congr fun j => ?_
  rw [Finset.mem_range]
  refine and_congr_right fun _ => ?_
  rw [cellImage]
  split_ifs with zero
  · simp [zero]
  · rw [Multiset.mem_singleton, and_iff_right zero]

theorem hasIn_of_mem (masked : i &&& mask = i)
    (bound : ∀ j, j < size → BitVec.ofNat 32 (j / 4) &&& mask = BitVec.ofNat 32 (j / 4)) (small : size ≤ 2 ^ 32)
    (there : image mask i fp ∈ cells mask size t) :
    cfHasIn t i fp = true ∨ cfHasIn t (cfAlt mask i fp) fp = true := by
  obtain ⟨j, hj, -, same⟩ := mem_cells.mp there
  obtain ⟨print, bucket⟩ := (image_eq_iff masked (bound j hj)).mp same.symm
  have home : ∀ b, BitVec.ofNat 32 (j / 4) = b → cfHasIn t b fp = true := by
    intro b here
    have number : b.toNat = j / 4 := by
      rw [← here]
      exact mod_eq_of_lt (by omega)
    have position : cell b (j % 4) = j := by
      unfold cell
      omega
    rw [cfHasIn, slotOf, find?_isSome]
    exact ⟨j % 4, mem_range.mpr (mod_lt _ (by decide)), by rw [position]; simpa using print⟩
  exact bucket.imp (home i) (home _)

end Images

/-! ### One operation -/

structure CfValid {σ : Type} (c : Cf σ) : Prop where
  power : ∃ e, e ≤ 25 ∧ c.nb.toNat = 2 ^ e
  mask : c.mask = c.nb - 1
  victim : c.hasVictim = true → c.victimFp ≠ 0 ∧ c.victimI &&& c.mask = c.victimI
  count : c.count = BitVec.ofNat 32 (Multiset.card (stored c))

structure Took {σ : Type} (c r : Cf σ) (x : Sym2 (BitVec 32) × Fp) : Prop where
  nb : r.nb = c.nb
  mask : r.mask = c.mask
  count : r.count = c.count + 1
  stored : stored r = stored c + {x}
  victim : r.hasVictim = true → r.victimFp ≠ 0 ∧ r.victimI &&& r.mask = r.victimI

section Step

variable {σ : Type} (next : σ → BitVec 64 × σ) {c r : Cf σ} {i : BitVec 32} {fp : Fp}

theorem CfValid.mask_toNat (v : CfValid c) : c.mask.toNat = c.nb.toNat - 1 ∧ 0 < c.nb.toNat := by
  obtain ⟨e, -, size⟩ := v.power
  have pos : 0 < c.nb.toNat := by
    rw [size]
    exact Nat.two_pow_pos e
  refine ⟨?_, pos⟩
  rw [v.mask]
  bv_omega

theorem CfValid.inside (v : CfValid c) (masked : i &&& c.mask = i) : i.toNat * 4 + 4 ≤ c.nb.toNat * 4 := by
  obtain ⟨mask, pos⟩ := v.mask_toNat
  have le : i.toNat ≤ c.mask.toNat := by
    rw [← masked]
    exact and_le_right
  omega

theorem CfValid.size_le (v : CfValid c) : c.nb.toNat ≤ 2 ^ 25 := by
  obtain ⟨e, small, size⟩ := v.power
  rw [size]
  exact Nat.pow_le_pow_right (by decide) small

theorem CfValid.bucket (v : CfValid c) (j : Nat) (hj : j < c.nb.toNat * 4) :
    BitVec.ofNat 32 (j / 4) &&& c.mask = BitVec.ofNat 32 (j / 4) := by
  obtain ⟨e, -, size⟩ := v.power
  refine eq_of_toNat_eq ?_
  rw [toNat_and, toNat_ofNat, v.mask_toNat.1, size, and_two_pow_sub_one_eq_mod]
  exact mod_eq_of_lt (by omega)

theorem stored_clear (clear : c.hasVictim = false) : stored c = cells c.mask (c.nb.toNat * 4) c.t := by
  rw [stored, clear]
  exact add_zero _

theorem stored_victim (present : c.hasVictim = true) :
    stored c = cells c.mask (c.nb.toNat * 4) c.t + {image c.mask c.victimI c.victimFp} := by
  rw [stored, present]
  rfl

theorem Took.valid {x : Sym2 (BitVec 32) × Fp} (took : Took c r x) (v : CfValid c) : CfValid r where
  power := by
    rw [took.nb]
    exact v.power
  mask := by rw [took.mask, took.nb, v.mask]
  victim := took.victim
  count := by
    rw [took.count, took.stored, v.count, Multiset.card_add, ofNat_add]
    rfl

/-- The kicks keep what is stored and put one more; the bucket they start in is full. -/
theorem cfKick_took (k : Nat) (clear : c.hasVictim = false) (nonzero : fp ≠ 0) (masked : i &&& c.mask = i)
    (inside : ∀ b : BitVec 32, b &&& c.mask = b → b.toNat * 4 + 4 ≤ c.nb.toNat * 4)
    (full : ∀ s, s < 4 → c.t (cell i s) ≠ 0) : Took c (cfKick next k c i fp) (image c.mask i fp) := by
  induction k generalizing c i fp with
  | zero =>
    refine ⟨rfl, rfl, rfl, ?_, fun _ => ⟨nonzero, masked⟩⟩
    rw [stored_clear clear]
    exact stored_victim rfl
  | succ k ih =>
    have hs : ((next c.rng).1 % 4).toNat < 4 := by
      rw [toNat_umod]
      exact mod_lt _ (by decide)
    rw [cfKick]
    dsimp only
    generalize ((next c.rng).1 % 4).toNat = s at hs ⊢
    have old := full s hs
    have moved := kick_cells c.mask nonzero (inside i masked) hs old
    have around := image_alt masked (c.t (cell i s))
    have masked' := cfAlt_masked c.mask i (c.t (cell i s))
    cases put : cfPut (update c.t (cell i s) fp) (cfAlt c.mask i (c.t (cell i s))) (c.t (cell i s)) with
    | some t =>
      refine ⟨rfl, rfl, rfl, ?_, fun present => absurd (clear.symm.trans present) (by decide)⟩
      have added := cfPut_cells c.mask old (inside _ masked') put
      rw [stored_clear clear]
      refine (stored_clear (c := { c with t := t, count := c.count + 1, rng := (next c.rng).2 }) clear).trans ?_
      exact added.trans (by rw [around, moved])
    | none =>
      have free := slotOf_none (map_eq_none_iff.mp put)
      have later := ih (c := { c with t := update c.t (cell i s) fp, rng := (next c.rng).2 })
        clear old masked' inside free
      refine ⟨later.nb, later.mask, later.count, later.stored.trans ?_, later.victim⟩
      rw [stored_clear clear]
      refine (congrArg (· + _) (stored_clear
        (c := { c with t := update c.t (cell i s) fp, rng := (next c.rng).2 }) clear)).trans ?_
      exact (by rw [around, moved])

theorem cfInsert_took (v : CfValid c) (clear : c.hasVictim = false) (nonzero : fp ≠ 0) (masked : i &&& c.mask = i) :
    (cfInsert next c i fp).2 = true ∧ Took c (cfInsert next c i fp).1 (image c.mask i fp) := by
  have masked' := cfAlt_masked c.mask i fp
  unfold cfInsert
  rw [if_neg (by rw [clear]; decide)]
  cases put : (cfPut c.t i fp).or (cfPut c.t (cfAlt c.mask i fp) fp) with
  | some t =>
    refine ⟨rfl, rfl, rfl, rfl, ?_, fun present => absurd (clear.symm.trans present) (by decide)⟩
    rw [stored_clear clear]
    refine (stored_clear (c := { c with t := t, count := c.count + 1 }) clear).trans ?_
    rcases or_eq_some_iff.mp put with first | ⟨-, second⟩
    · exact cfPut_cells c.mask nonzero (v.inside masked) first
    · rw [← image_alt masked fp]
      exact cfPut_cells c.mask nonzero (v.inside masked') second
  | none =>
    obtain ⟨first, second⟩ := or_eq_none_iff.mp put
    refine ⟨rfl, ?_⟩
    dsimp only
    split_ifs with side
    · have kicked := cfKick_took next (c := { c with rng := (next c.rng).2 }) 500 clear nonzero masked
        (fun _ => v.inside) (slotOf_none (map_eq_none_iff.mp first))
      exact ⟨kicked.nb, kicked.mask, kicked.count, kicked.stored, kicked.victim⟩
    · have kicked := cfKick_took next (c := { c with rng := (next c.rng).2 }) 500 clear nonzero masked'
        (fun _ => v.inside) (slotOf_none (map_eq_none_iff.mp second))
      refine ⟨kicked.nb, kicked.mask, kicked.count, kicked.stored.trans ?_, kicked.victim⟩
      rw [image_alt masked fp]
      rfl

theorem CfValid.found (v : CfValid c) (masked : i &&& c.mask = i) (there : image c.mask i fp ∈ stored c) :
    (cfHasIn c.t i fp = true ∨ cfHasIn c.t (cfAlt c.mask i fp) fp = true) ∨
      (c.hasVictim && c.victimFp == fp && (c.victimI == i || c.victimI == cfAlt c.mask i fp)) = true := by
  have small := v.size_le
  cases present : c.hasVictim with
  | false =>
    rw [stored_clear present] at there
    exact .inl (hasIn_of_mem masked v.bucket (by omega) there)
  | true =>
    rw [stored_victim present, Multiset.mem_add, Multiset.mem_singleton] at there
    rcases there with table | isVictim
    · exact .inl (hasIn_of_mem masked v.bucket (by omega) table)
    · obtain ⟨print, bucket⟩ := (image_eq_iff masked (v.victim present).2).mp isVictim.symm
      refine .inr ?_
      simpa [print] using bucket

theorem cfContains_stored (v : CfValid c) (masked : i &&& c.mask = i) (there : image c.mask i fp ∈ stored c) :
    cfContains c i fp = true := by
  unfold cfContains
  dsimp only
  rcases v.found masked there with table | isVictim
  · rw [if_pos (by rwa [or_eq_true])]
  · rw [isVictim]
    exact ite_self true

theorem ofNat_succ_sub (n : Nat) : BitVec.ofNat 32 (n + 1) - 1 = BitVec.ofNat 32 n := by
  rw [ofNat_add]
  exact add_sub_cancel _ _

theorem card_without {x : Sym2 (BitVec 32) × Fp} {m m' : Multiset (Sym2 (BitVec 32) × Fp)} (less : m' + {x} = m) :
    BitVec.ofNat 32 (Multiset.card m) - 1 = BitVec.ofNat 32 (Multiset.card m') := by
  rw [← less, Multiset.card_add, Multiset.card_singleton, ofNat_succ_sub]

theorem cfDelete_stored (v : CfValid c) (nonzero : fp ≠ 0) (masked : i &&& c.mask = i)
    (there : image c.mask i fp ∈ stored c) :
    (cfDelete next c i fp).2 = true ∧ CfValid (cfDelete next c i fp).1 ∧
      (cfDelete next c i fp).1.nb = c.nb ∧ (cfDelete next c i fp).1.mask = c.mask ∧
      stored (cfDelete next c i fp).1 + {image c.mask i fp} = stored c := by
  have masked' := cfAlt_masked c.mask i fp
  unfold cfDelete
  dsimp only
  cases deleted : (cfDelIn c.t i fp).or (cfDelIn c.t (cfAlt c.mask i fp) fp) with
  | some t =>
    have less : cells c.mask (c.nb.toNat * 4) t + {image c.mask i fp} = cells c.mask (c.nb.toNat * 4) c.t := by
      rcases or_eq_some_iff.mp deleted with first | ⟨-, second⟩
      · exact cfDelIn_cells nonzero (v.inside masked) first
      · rw [← image_alt masked fp]
        exact cfDelIn_cells nonzero (v.inside masked') second
    dsimp only
    split_ifs with present
    · obtain ⟨print, bucket⟩ := v.victim present
      set c' : Cf σ := { c with t := t, hasVictim := false, count := c.count - 1 - 1 } with hc'
      have after : stored c' = cells c.mask (c.nb.toNat * 4) t := stored_clear rfl
      have whole : stored c' + {image c.mask i fp} + {image c.mask c.victimI c.victimFp} = stored c := by
        rw [after, less, stored_victim present]
      have valid : CfValid c' := by
        refine ⟨v.power, v.mask, fun other => absurd other false_ne_true, ?_⟩
        change c.count - 1 - 1 = _
        rw [v.count, card_without whole, card_without rfl]
      obtain ⟨-, took⟩ := cfInsert_took next valid rfl print bucket
      refine ⟨rfl, took.valid valid, took.nb, took.mask, ?_⟩
      have sum := took.stored
      rw [sum, ← whole]
      exact add_right_comm _ _ _
    · have clear := eq_false_of_not_eq_true present
      have sum : stored { c with t := t, count := c.count - 1 } + {image c.mask i fp} = stored c := by
        rw [stored_clear (c := { c with t := t, count := c.count - 1 }) clear, stored_clear clear]
        exact less
      exact ⟨rfl, ⟨v.power, v.mask, fun other => absurd other present,
        (congrArg (· - 1) v.count).trans (card_without sum)⟩, rfl, rfl, sum⟩
  | none =>
    obtain ⟨first, second⟩ := or_eq_none_iff.mp deleted
    have noFirst : cfHasIn c.t i fp = false := by
      rw [cfHasIn, map_eq_none_iff.mp first]
      rfl
    have noSecond : cfHasIn c.t (cfAlt c.mask i fp) fp = false := by
      rw [cfHasIn, map_eq_none_iff.mp second]
      rfl
    rcases v.found masked there with (table | table) | isVictim
    · exact absurd (noFirst.symm.trans table) (by decide)
    · exact absurd (noSecond.symm.trans table) (by decide)
    rw [if_pos isVictim]
    simp only [and_eq_true, or_eq_true, beq_iff_eq] at isVictim
    obtain ⟨⟨present, print⟩, bucket⟩ := isVictim
    have same := (image_eq_iff masked (v.victim present).2).mpr ⟨print, bucket⟩
    have after : stored { c with hasVictim := false, count := c.count - 1 } = cells c.mask (c.nb.toNat * 4) c.t :=
      stored_clear rfl
    have sum : stored { c with hasVictim := false, count := c.count - 1 } + {image c.mask i fp} = stored c := by
      rw [after, stored_victim present, same]
    exact ⟨rfl, ⟨v.power, v.mask, fun other => absurd other false_ne_true,
      (congrArg (· - 1) v.count).trans (card_without sum)⟩, rfl, rfl, sum⟩

end Step

/-! ### Writing and reading -/

section Reload

variable {σ : Type} {c : Cf σ}

theorem cfReadCells_spec (u : Nat → Fp) (m i : Nat) (r : De) (t : Nat → Fp) (used : Nat) (ok : r.err = false)
    (front : r.rest = (List.range' i m).flatMap fun j : Nat => serLe (u j).toNat 2) :
    (cfReadCells m i r t used).1.err = false ∧
      (∀ j, (cfReadCells m i r t used).2.1 j = if i ≤ j ∧ j < i + m then u j else t j) ∧
      (cfReadCells m i r t used).2.2 = used + ∑ j ∈ Finset.Ico i (i + m), if u j ≠ 0 then 1 else 0 := by
  induction m generalizing i r t used with
  | zero =>
    refine ⟨ok, fun j => ?_, by simp [cfReadCells]⟩
    rw [if_neg (by omega)]
    rfl
  | succ m ih =>
    rw [range'_succ, flatMap_cons] at front
    have field := deUint_serLe r ok front (u i).isLt
    simp only [cfReadCells, field, BitVec.ofNat_toNat, BitVec.setWidth_eq]
    obtain ⟨fine, table, total⟩ := ih (i + 1)
      { r with rest := (List.range' (i + 1) m).flatMap fun j => serLe (u j).toNat 2 }
      (update t i (u i)) (used + if u i ≠ 0 then 1 else 0) ok rfl
    refine ⟨fine, fun j => ?_, ?_⟩
    · rw [table j]
      by_cases here : j = i
      · subst here
        rw [if_neg (by omega), if_pos (by omega), update_self]
      · rw [update_of_ne here]
        exact if_congr (by omega) rfl rfl
    · rw [total, Finset.sum_eq_sum_Ico_succ_bot (by omega : i < i + (m + 1)), show i + 1 + m = i + (m + 1) by omega]
      omega

theorem card_cells (mask : BitVec 32) (size : Nat) (t : Nat → Fp) :
    Multiset.card (cells mask size t) = ∑ j ∈ Finset.Ico 0 (0 + size), if t j ≠ 0 then 1 else 0 := by
  rw [cells, Multiset.card_sum, zero_add, Nat.Ico_zero_eq_range]
  refine Finset.sum_congr rfl fun j _ => ?_
  rw [cellImage]
  by_cases zero : t j = 0
  · rw [if_pos zero, if_neg (not_not.mpr zero)]
    rfl
  · rw [if_neg zero, if_pos zero]
    rfl

theorem card_stored (c : Cf σ) :
    Multiset.card (stored c) = Multiset.card (cells c.mask (c.nb.toNat * 4) c.t) + c.hasVictim.toNat := by
  cases present : c.hasVictim with
  | false => rw [stored_clear present]; rfl
  | true => rw [stored_victim present, Multiset.card_add]; rfl

theorem CfValid.count_toNat (v : CfValid c) : c.count.toNat = Multiset.card (stored c) := by
  have small := v.size_le
  have cellsLe : Multiset.card (cells c.mask (c.nb.toNat * 4) c.t) ≤ c.nb.toNat * 4 := by
    rw [card_cells]
    refine (Finset.sum_le_card_nsmul _ _ 1 fun j _ => ?_).trans ?_
    · split_ifs <;> omega
    · rw [card_Ico]
      simp
  have victimLe := toNat_le c.hasVictim
  have all := card_stored c
  rw [v.count]
  exact mod_eq_of_lt (by omega)

theorem cells_congr {mask : BitVec 32} {size : Nat} {t t' : Nat → Fp} (same : ∀ j, j < size → t' j = t j) :
    cells mask size t' = cells mask size t :=
  Finset.sum_congr rfl fun j hj => by rw [same j (Finset.mem_range.mp hj)]

def cfBody (c : Cf σ) : List UInt8 := (List.range (c.nb.toNat * 4)).flatMap fun i : Nat => serLe (c.t i).toNat 2

theorem cfBody_length (c : Cf σ) : (cfBody c).length = c.nb.toNat * 4 * 2 := by
  simp [cfBody, length_flatMap]

theorem cfWrite_length (c : Cf σ) : (cfWrite c).length = 15 + c.nb.toNat * 4 * 2 := by
  have body := cfBody_length c
  rw [cfBody] at body
  simp only [cfWrite, length_append, serLe_length, body]
  omega

theorem cfRead_head (c : Cf σ) (seed : σ) (granted : Bool) (b : Nat) : cfRead seed granted ⟨cfWrite c, false, b⟩ =
      cfReadTable seed granted c.nb.toNat c.count.toNat c.hasVictim.toNat c.victimFp.toNat c.victimI.toNat
        ⟨cfBody c, false, b⟩ := by
  have field n {v b : Nat} {l : List UInt8} (fits : v < 2 ^ (8 * n)) :
      deUint n ⟨serLe v n ++ l, false, b⟩ = (v, ⟨l, false, b⟩) := deUint_serLe _ rfl rfl fits
  have flag : c.hasVictim.toNat < 2 ^ (8 * 1) := (toNat_lt c.hasVictim).trans (by decide)
  simp only [cfRead, cfWrite, field 4 c.nb.isLt, field 4 c.count.isLt, field 1 flag, field 2 c.victimFp.isLt,
    field 4 c.victimI.isLt]
  rfl

theorem cfReadTable_refused (seed : σ) (nb count hv vf vi : Nat) (r : De) :
    cfReadTable seed false nb count hv vf vi r = none := by
  unfold cfReadTable
  dsimp only
  rw [if_pos (c := ¬ false = true) false_ne_true, ite_self, ite_self]

theorem CfValid.head (v : CfValid c) :
    ¬ (c.nb.toNat = 0 ∨ c.nb.toNat &&& (c.nb.toNat - 1) ≠ 0 ∨ 2 * 2 ^ 26 < c.nb.toNat * 4 ∨
      1 < c.hasVictim.toNat ∨ c.hasVictim.toNat ≠ 0 ∧ (c.victimFp.toNat = 0 ∨ c.nb.toNat ≤ c.victimI.toNat)) := by
  have small := v.size_le
  obtain ⟨-, pos⟩ := v.mask_toNat
  obtain ⟨e, -, size⟩ := v.power
  have power : c.nb.toNat &&& (c.nb.toNat - 1) = 0 := by
    rw [size, and_two_pow_sub_one_eq_mod, mod_self]
  rintro (zero | notPower | large | flag | ⟨flag, bad⟩)
  · omega
  · exact notPower power
  · omega
  · have := toNat_le c.hasVictim
    omega
  · have present : c.hasVictim = true := by
      by_contra absent
      rw [eq_false_of_not_eq_true absent] at flag
      exact flag rfl
    obtain ⟨print, bucket⟩ := v.victim present
    have inside := v.inside bucket
    rcases bad with zero | far
    · exact print (eq_of_toNat_eq zero)
    · omega

theorem cfRead_cfWrite (v : CfValid c) (seed : σ) {b : Nat} (budget : c.nb.toNat * 4 * 2 ≤ b) :
    ∃ c', cfRead seed true ⟨cfWrite c, false, b⟩ = some c' ∧ c'.nb = c.nb ∧ c'.mask = c.mask ∧ CfValid c' ∧
      stored c' = stored c := by
  rw [cfRead_head]
  have charged : deCharge ⟨cfBody c, false, b⟩ (c.nb.toNat * 4 * 2) =
      (true, ⟨cfBody c, false, b - c.nb.toNat * 4 * 2⟩) := if_neg (not_lt.mpr budget)
  have left : deLeft ⟨cfBody c, false, b⟩ = c.nb.toNat * 4 * 2 := cfBody_length c
  have read := cfReadCells_spec c.t (c.nb.toNat * 4) 0 ⟨cfBody c, false, b - c.nb.toNat * 4 * 2⟩ (fun _ => 0) 0 rfl
    (by rw [cfBody, range_eq_range'])
  unfold cfReadTable
  rw [if_neg (by simpa using v.head), left]
  dsimp only [cfNew]
  rw [charged, if_neg (by simp), if_neg (by simp)]
  generalize cfReadCells (c.nb.toNat * 4) 0 ⟨cfBody c, false, b - c.nb.toNat * 4 * 2⟩ (fun _ => 0) 0 = res at read ⊢
  obtain ⟨r, t, used⟩ := res
  obtain ⟨fine, table, total⟩ := read
  dsimp only at fine table total ⊢
  have counted : used + c.hasVictim.toNat = c.count.toNat := by
    rw [v.count_toNat, card_stored, card_cells, total, zero_add]
  rw [if_neg (by simp [fine, counted])]
  simp only [BitVec.ofNat_toNat, BitVec.setWidth_eq]
  have flag : decide (c.hasVictim.toNat ≠ 0) = c.hasVictim := by cases c.hasVictim <;> rfl
  rw [flag, ← v.mask]
  have same : stored { c with t := t, rng := seed } = stored c := by
    rw [stored, stored, cells_congr fun j hj => ?_]
    exact (table j).trans (if_pos ⟨zero_le j, hj.trans_eq (zero_add _).symm⟩)
  refine ⟨_, rfl, rfl, rfl, ⟨v.power, v.mask, v.victim, ?_⟩, same⟩
  exact v.count.trans (congrArg (fun m => BitVec.ofNat 32 (Multiset.card m)) same.symm)

/-- The payload is within the limit of `dyn_de_open` if there are fewer than `2 ^ 25` buckets. -/
theorem cfDeserialize_cfSerialize (crc32c : List UInt8 → BitVec 32) (v : CfValid c) (seed : σ) (granted : Bool) :
    cfDeserialize crc32c seed granted (cfSerialize crc32c c) =
      if c.nb.toNat < 2 ^ 25 then
        cfRead seed granted ⟨cfWrite c, false, 512 * 2 ^ 20 + 64 * (cfWrite c).length⟩
      else none := by
  obtain ⟨e, -, size⟩ := v.power
  have long := cfWrite_length c
  rw [cfDeserialize, cfSerialize, deOpen_serFinish crc32c (cfWrite c) (by decide) (by decide) (by omega)]
  by_cases fits : c.nb.toNat < 2 ^ 25
  · have half : c.nb.toNat ≤ 2 ^ 24 := by
      rw [size, pow_lt_pow_iff_right₀ one_lt_two] at fits
      rw [size]
      exact pow_le_pow_right₀ one_le_two (le_of_lt_succ fits)
    rw [if_neg (by omega), if_pos fits]
    rfl
  · rw [if_pos (by omega), if_neg fits]

theorem cfDeserialize_some (crc32c : List UInt8 → BitVec 32) (v : CfValid c) (seed : σ) (fits : c.nb.toNat < 2 ^ 25) :
    ∃ c', cfDeserialize crc32c seed true (cfSerialize crc32c c) = some c' ∧ c'.nb = c.nb ∧ c'.mask = c.mask ∧
      CfValid c' ∧ stored c' = stored c := by
  rw [cfDeserialize_cfSerialize crc32c v, if_pos fits]
  exact cfRead_cfWrite v seed (by omega)

end Reload

/-! ### Runs -/

section Run

variable {σ : Type} (next : σ → BitVec 64 × σ) (hash : List UInt8 → BitVec 64) (crc32c : List UInt8 → BitVec 32)

def keyImage (mask : BitVec 32) (k : List UInt8) : Sym2 (BitVec 32) × Fp :=
  image mask (cfIndex mask (hash k)) (cfPrint (hash k))

def cfAdd (c : Cf σ) (k : List UInt8) : Cf σ × Bool := cfInsert next c (cfIndex c.mask (hash k)) (cfPrint (hash k))

def mayContain (c : Cf σ) (k : List UInt8) : Bool := cfContains c (cfIndex c.mask (hash k)) (cfPrint (hash k))

def cfDel (c : Cf σ) (k : List UInt8) : Cf σ × Bool := cfDelete next c (cfIndex c.mask (hash k)) (cfPrint (hash k))

/-- The filters that adds, deletes of added keys and reloads lead to, with the multiset of
keys added successfully and not deleted. -/
inductive Filled (seed : σ) : Cf σ → Multiset (List UInt8) → Prop
  | new {cap : Nat} (pos : 0 < cap) (max : cap ≤ 2 ^ 26) :
    Filled seed (cfNew seed (BitVec.ofNat 32 (cfBuckets cap 26 1))) 0
  | add {c : Cf σ} {m : Multiset (List UInt8)} (before : Filled seed c m) (k : List UInt8) :
    Filled seed (cfAdd next hash c k).1 (if (cfAdd next hash c k).2 then k ::ₘ m else m)
  | del {c : Cf σ} {m : Multiset (List UInt8)} (before : Filled seed c m) {k : List UInt8} (there : k ∈ m) :
    Filled seed (cfDel next hash c k).1 (m.erase k)
  | reload {c c' : Cf σ} {m : Multiset (List UInt8)} (before : Filled seed c m) {granted : Bool}
    (read : cfDeserialize crc32c seed granted (cfSerialize crc32c c) = some c') : Filled seed c' m

variable {next hash crc32c}

theorem cfPrint_ne_zero (h : BitVec 64) : cfPrint h ≠ 0 := by
  unfold cfPrint
  by_cases zero : (h >>> 48).setWidth 16 = 0
  · rw [if_pos zero]
    decide
  · rw [if_neg zero]
    exact zero

theorem cfIndex_masked (mask : BitVec 32) (h : BitVec 64) : cfIndex mask h &&& mask = cfIndex mask h := by
  rw [cfIndex, BitVec.and_assoc, BitVec.and_self]

theorem cfBuckets_spec {cap : Nat} (max : cap ≤ 2 ^ 26) (fuel e : Nat) (small : e ≤ 25) (enough : 25 < e + fuel) :
    ∃ e', e' ≤ 25 ∧ cfBuckets cap fuel (2 ^ e) = 2 ^ e' ∧ cap * 100 ≤ 2 ^ e' * 4 * 95 := by
  induction fuel generalizing e with
  | zero => omega
  | succ fuel ih =>
    rw [cfBuckets]
    split_ifs with more
    · rw [← pow_succ]
      have below : e ≠ 25 := by
        rintro rfl
        omega
      exact ih (e + 1) (by omega) (by omega)
    · exact ⟨e, small, rfl, not_lt.mp more⟩

theorem cfNew_valid (seed : σ) {e : Nat} (small : e ≤ 25) :
    CfValid (cfNew seed (BitVec.ofNat 32 (2 ^ e))) ∧ stored (cfNew seed (BitVec.ofNat 32 (2 ^ e))) = 0 := by
  have fits : 2 ^ e ≤ 2 ^ 25 := Nat.pow_le_pow_right (by decide) small
  have empty : stored (cfNew seed (BitVec.ofNat 32 (2 ^ e))) = 0 := by
    rw [stored_clear rfl]
    exact Finset.sum_eq_zero fun j _ => if_pos rfl
  refine ⟨⟨⟨e, small, ?_⟩, rfl, fun other => absurd other false_ne_true, ?_⟩, empty⟩
  · rw [cfNew, toNat_ofNat]
    exact mod_eq_of_lt (by omega)
  · rw [empty]
    rfl

theorem Filled.stored_eq {seed : σ} {c : Cf σ} {m : Multiset (List UInt8)} (run : Filled next hash crc32c seed c m) :
    CfValid c ∧ stored c = m.map (keyImage hash c.mask) := by
  induction run with
  | new pos max =>
    obtain ⟨e, small, buckets, -⟩ := cfBuckets_spec max 26 0 (by omega) (by omega)
    rw [pow_zero] at buckets
    rw [buckets]
    obtain ⟨valid, empty⟩ := cfNew_valid seed small
    exact ⟨valid, by rw [empty, Multiset.map_zero]⟩
  | @add c m before k ih =>
    obtain ⟨valid, images⟩ := ih
    by_cases present : c.hasVictim = true
    · have refused : cfAdd next hash c k = (c, false) := by
        rw [cfAdd, cfInsert]
        exact if_pos present
      rw [refused]
      exact ⟨valid, images⟩
    · obtain ⟨ok, took⟩ := cfInsert_took next valid (eq_false_of_not_eq_true present)
        (cfPrint_ne_zero (hash k)) (cfIndex_masked c.mask (hash k))
      have success : (cfAdd next hash c k).2 = true := ok
      rw [if_pos success]
      refine ⟨took.valid valid, took.stored.trans ?_⟩
      rw [images, Multiset.map_cons, ← Multiset.singleton_add, add_comm]
      have same : (cfAdd next hash c k).1.mask = c.mask := took.mask
      rw [same]
      rfl
  | @del c m before k there ih =>
    obtain ⟨valid, images⟩ := ih
    have present : keyImage hash c.mask k ∈ stored c := by
      rw [images]
      exact Multiset.mem_map_of_mem _ there
    obtain ⟨-, valid', -, mask, less⟩ := cfDelete_stored next valid (cfPrint_ne_zero (hash k))
      (cfIndex_masked c.mask (hash k)) present
    refine ⟨valid', ?_⟩
    have same : (cfDel next hash c k).1.mask = c.mask := mask
    rw [same]
    have split : m.map (keyImage hash c.mask) = (m.erase k).map (keyImage hash c.mask) + {keyImage hash c.mask k} := by
      rw [add_comm, Multiset.singleton_add, ← Multiset.map_cons, Multiset.cons_erase there]
    rw [images, split] at less
    exact add_right_cancel less
  | @reload c c' m before granted read ih =>
    obtain ⟨valid, images⟩ := ih
    have opened := cfDeserialize_cfSerialize crc32c valid seed granted
    rw [read] at opened
    split_ifs at opened with fits
    cases granted with
    | true =>
      obtain ⟨c'', read', -, mask, valid', same⟩ := cfDeserialize_some crc32c valid seed fits
      cases some.inj (read.symm.trans read')
      exact ⟨valid', by rw [same, images, mask]⟩
    | false =>
      rw [cfRead_head, cfReadTable_refused] at opened
      contradiction

/-- Every key of the multiset may be contained, the stored fingerprints and the victim are
the images of the keys, and the size is their number; what is written is read back as such
a filter exactly if there are fewer than `2 ^ 25` buckets. -/
theorem cuckoo_no_false_negatives {σ : Type} (next : σ → BitVec 64 × σ) (hash : List UInt8 → BitVec 64)
    (crc32c : List UInt8 → BitVec 32) (seed : σ) (c : Cf σ) (m : Multiset (List UInt8))
    (run : Filled next hash crc32c seed c m) :
    (∀ k ∈ m, mayContain hash c k = true) ∧ stored c = m.map (keyImage hash c.mask) ∧
      c.count.toNat = Multiset.card m ∧ (∀ k ∈ m, (cfDel next hash c k).2 = true) ∧
      ((∃ c', cfDeserialize crc32c seed true (cfSerialize crc32c c) = some c' ∧ Filled next hash crc32c seed c' m) ↔
        c.nb.toNat < 2 ^ 25) := by
  obtain ⟨valid, images⟩ := run.stored_eq
  have present : ∀ k ∈ m, keyImage hash c.mask k ∈ stored c := fun k there => by
    rw [images]
    exact Multiset.mem_map_of_mem _ there
  refine ⟨fun k there => ?_, images, ?_, fun k there => ?_, ?_⟩
  · exact cfContains_stored valid (cfIndex_masked c.mask (hash k)) (present k there)
  · rw [valid.count_toNat, images, Multiset.card_map]
  · exact (cfDelete_stored next valid (cfPrint_ne_zero (hash k)) (cfIndex_masked c.mask (hash k)) (present k there)).1
  · constructor
    · rintro ⟨c', read, -⟩
      rw [cfDeserialize_cfSerialize crc32c valid] at read
      split_ifs at read with fits
      exact fits
    · intro fits
      obtain ⟨c', read, -⟩ := cfDeserialize_some crc32c valid seed fits
      exact ⟨c', read, run.reload read⟩

/-- Two keys of one image; the first stays after the second is deleted and the filter is
written and read back. -/
theorem cuckoo_no_false_negatives_two :
    let next : Unit → BitVec 64 × Unit := fun _ => (0, ())
    let hash : List UInt8 → BitVec 64 := fun _ => 0
    ∃ c m, Filled next hash (fun _ => 0) () c m ∧ m = {[1]} ∧ mayContain hash c [1] = true := by
  intro next hash
  have first : Filled next hash (fun _ => 0) () (cfNew () (BitVec.ofNat 32 (cfBuckets 1 26 1))) 0 :=
    .new (by decide) (by decide)
  have run := ((first.add [1]).add [2]).del (k := [2]) (by decide +kernel)
  obtain ⟨c, -, reloaded⟩ := (cuckoo_no_false_negatives next hash _ () _ _ run).2.2.2.2.mpr (by decide +kernel)
  refine ⟨c, _, reloaded, by decide +kernel, (cuckoo_no_false_negatives next hash _ () _ _ reloaded).1 [1] ?_⟩
  decide +kernel

/-- The record of the largest filter is larger than any that is opened. -/
theorem cuckoo_record_refused :
    let crc32c := fun _ : List UInt8 => (0 : BitVec 32)
    let c := cfNew () (BitVec.ofNat 32 (cfBuckets (2 ^ 26) 26 1))
    Filled (fun _ => (0, ())) (fun _ => 0) crc32c () c 0 ∧
      deOpen crc32c (cfSerialize crc32c c) 0 = .error .tooLarge ∧
      cfDeserialize crc32c () true (cfSerialize crc32c c) = none := by
  intro crc32c c
  have long : (cfWrite c).length = 15 + 2 ^ 25 * 4 * 2 := cfWrite_length c
  have opened : deOpen crc32c (cfSerialize crc32c c) 0 = .error .tooLarge := by
    rw [cfSerialize, deOpen_serFinish crc32c (cfWrite c) (by decide) (by decide) (by omega)]
    exact if_pos (by omega)
  refine ⟨.new (by decide) le_rfl, opened, ?_⟩
  rw [cfDeserialize, opened]

end Run

end DynaJS.Db
