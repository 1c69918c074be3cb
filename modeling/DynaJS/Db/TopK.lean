import DynaJS.Lib.Heap
import DynaJS.Db.Smap

/-! The heavy hitters `TopK` of `dyna-structures-db.inc.c`: slots with counts, a heap of
slots with the least count on top, and an index from keys to slots. Counts are whole
numbers that a `double` holds exactly. -/
namespace DynaJS.Db

open Function DynaJS.Ds Nat Option Finset Equiv
open DynaJS.Heap (Ordered Holed Up parent parent_lt child_of_parent)

abbrev Key := List UInt8

structure TkSlot where
  key : Key
  hpos : Nat
  count : Nat
  err : Nat

structure Tk where
  k : Nat
  n : Nat
  s : Nat → TkSlot
  heap : Nat → Nat
  idx : Ix Key
  total : Nat

def tkNew (k : Nat) : Tk := ⟨k, 0, fun _ => ⟨[], 0, 0, 0⟩, fun _ => 0, ixEmpty, 0⟩

def setHpos (s : Nat → TkSlot) (x p : Nat) : Nat → TkSlot := update s x { s x with hpos := p }

def tkSwap (t : Tk) (a b : Nat) : Tk :=
  let heap := update (update t.heap a (t.heap b)) b (t.heap a)
  { t with heap := heap, s := setHpos (setHpos t.s (heap a) a) (heap b) b }

def tkLess (t : Tk) (a b : Nat) : Bool := (t.s (t.heap a)).count < (t.s (t.heap b)).count

def tkChild (t : Tk) (i : Nat) : Nat :=
  let m := if 2 * i + 1 < t.n ∧ tkLess t (2 * i + 1) i then 2 * i + 1 else i
  if 2 * i + 2 < t.n ∧ tkLess t (2 * i + 2) m then 2 * i + 2 else m

def tkDown : Nat → Tk → Nat → Tk
  | 0, t, _ => t
  | fuel + 1, t, i =>
    if tkChild t i = i then t else tkDown fuel (tkSwap t i (tkChild t i)) (tkChild t i)

def tkUp : Nat → Tk → Nat → Tk
  | 0, t, _ => t
  | fuel + 1, t, i =>
    if i = 0 then t
    else if ¬ tkLess t i ((i - 1) / 2) then t
    else tkUp fuel (tkSwap t i ((i - 1) / 2)) ((i - 1) / 2)

/-- What the allocator answers during an add: to the copy of the key, to the growth of the
index, and to its growth when the old key is put back. -/
structure Mem where
  dup : Bool
  grow : Bool
  back : Bool

def tkAddKnown (t : Tk) (i c : Nat) : Tk :=
  let t := { t with s := update t.s i { t.s i with count := (t.s i).count + c } }
  tkDown t.n t (t.s i).hpos

def tkAddFresh (hash : Key → Nat) (t : Tk) (k : Key) (c : Nat) (mem : Mem) : Tk × Option (Option Key) :=
  if ¬ mem.dup then (t, none)
  else
    let t := { t with s := update t.s t.n { t.s t.n with key := k, count := c, err := 0 } }
    match smapInsert t.idx k.length (hash k) k t.n mem.grow with
    | none => (t, none)
    | some idx =>
      (tkUp (t.n + 1)
        { t with idx := idx, heap := update t.heap t.n t.n, s := setHpos t.s t.n t.n, n := t.n + 1 } t.n,
        some none)

def tkEvict (hash : Key → Nat) (t : Tk) (k : Key) (c : Nat) (mem : Mem) : Tk × Option (Option Key) :=
  let si := t.heap 0
  let s := t.s si
  if ¬ mem.dup then (t, none)
  else
    let idx := match ixFind t.idx (hash s.key) s.key with
      | none => t.idx
      | some pos => smapRemove t.idx pos
    match smapInsert idx k.length (hash k) k si mem.grow with
    | none => ({ t with idx := (smapInsert idx s.key.length (hash s.key) s.key si mem.back).getD idx }, none)
    | some idx =>
      let t := { t with
        idx := idx
        s := update t.s si { s with key := k, err := s.count, count := s.count + c } }
      (tkDown t.n t 0, some (some s.key))

/-- `tk_add`: the state afterwards, and the evicted key unless it failed. The total grows
first. -/
def tkAdd (hash : Key → Nat) (t : Tk) (k : Key) (c : Nat) (mem : Mem) : Tk × Option (Option Key) :=
  let t := { t with total := t.total + c }
  match ixFind t.idx (hash k) k with
  | some pos => (tkAddKnown t (t.idx.idxAt pos) c, some none)
  | none =>
    if 2 ^ 32 - 2 < k.length then (t, none)
    else if t.n < t.k then tkAddFresh hash t k c mem
    else tkEvict hash t k c mem

/-! ### The heap and its inverse -/

structure Inverse (n : Nat) (heap : Nat → Nat) (s : Nat → TkSlot) : Prop where
  place : ∀ i, i < n → heap i < n ∧ (s (heap i)).hpos = i
  back : ∀ x, x < n → (s x).hpos < n ∧ heap (s x).hpos = x

def Tk.count (t : Tk) (x : Nat) : Nat := (t.s x).count

structure Frame (t t' : Tk) : Prop where
  k : t'.k = t.k
  n : t'.n = t.n
  idx : t'.idx = t.idx
  total : t'.total = t.total
  key : ∀ x, (t'.s x).key = (t.s x).key
  count : ∀ x, (t'.s x).count = (t.s x).count
  err : ∀ x, (t'.s x).err = (t.s x).err

theorem Frame.refl t : Frame t t := ⟨rfl, rfl, rfl, rfl, fun _ => rfl, fun _ => rfl, fun _ => rfl⟩

theorem Frame.trans {t t' t'' : Tk} (f : Frame t t') (g : Frame t' t'') : Frame t t'' where
  k := g.k.trans f.k
  n := g.n.trans f.n
  idx := g.idx.trans f.idx
  total := g.total.trans f.total
  key := fun x => (g.key x).trans (f.key x)
  count := fun x => (g.count x).trans (f.count x)
  err := fun x => (g.err x).trans (f.err x)

theorem Frame.counts {t t' : Tk} (f : Frame t t') : t'.count = t.count := funext f.count

section Swap

variable {t : Tk} {a b : Nat} (s : Nat → TkSlot)

theorem setHpos_self (x p : Nat) : (setHpos s x p x).hpos = p := by simp [setHpos]

theorem setHpos_other {x y : Nat} p (other : y ≠ x) : setHpos s x p y = s y := update_of_ne other _ _

theorem setHpos_frame (x p y : Nat) : (setHpos s x p y).key = (s y).key ∧ (setHpos s x p y).count = (s y).count ∧
      (setHpos s x p y).err = (s y).err := by
  by_cases here : y = x
  · subst here
    simp [setHpos]
  · rw [setHpos_other s p here]
    exact ⟨rfl, rfl, rfl⟩

theorem tkSwap_frame (t : Tk) (a b : Nat) : Frame t (tkSwap t a b) := by
  refine ⟨rfl, rfl, rfl, rfl, fun x => ?_, fun x => ?_, fun x => ?_⟩
  · exact ((setHpos_frame _ _ _ x).1).trans (setHpos_frame _ _ _ x).1
  · exact ((setHpos_frame _ _ _ x).2.1).trans (setHpos_frame _ _ _ x).2.1
  · exact ((setHpos_frame _ _ _ x).2.2).trans (setHpos_frame _ _ _ x).2.2

theorem tkSwap_heap (t : Tk) (a b : Nat) :
    (tkSwap t a b).heap = update (update t.heap a (t.heap b)) b (t.heap a) := rfl

theorem swap_left (h : Nat → Nat) (other : a ≠ b) : update (update h a (h b)) b (h a) a = h b := by
  rw [update_of_ne other, update_self]

theorem tkSwap_inverse (inv : Inverse t.n t.heap t.s) (ha : a < t.n) (hb : b < t.n) (other : a ≠ b) :
    Inverse t.n (tkSwap t a b).heap (tkSwap t a b).s := by
  have placeA := inv.place a ha
  have placeB := inv.place b hb
  have slots : (tkSwap t a b).s = setHpos (setHpos t.s (t.heap b) a) (t.heap a) b := by
    rw [tkSwap]
    rw [swap_left t.heap other, update_self]
  have heap : (tkSwap t a b).heap = t.heap ∘ swap a b := Heap.swap_eq t.heap a b
  have hpos : ∀ x, x < t.n → ((tkSwap t a b).s x).hpos = swap a b (t.s x).hpos := by
    intro x hx
    have backX := inv.back x hx
    rw [slots]
    by_cases atA : x = t.heap a
    · rw [atA, setHpos_self, placeA.2, swap_apply_left]
    · rw [setHpos_other _ _ atA]
      by_cases atB : x = t.heap b
      · rw [atB, setHpos_self, placeB.2, swap_apply_right]
      · have farA : (t.s x).hpos ≠ a := fun same => atA (by rw [← backX.2, same])
        have farB : (t.s x).hpos ≠ b := fun same => atB (by rw [← backX.2, same])
        rw [setHpos_other _ _ atB, swap_apply_of_ne_of_ne farA farB]
  rw [heap]
  refine ⟨fun i hi => ?_, fun x hx => ?_⟩
  · obtain ⟨inside, back⟩ := inv.place _ (Heap.swap_lt ha hb hi)
    exact ⟨inside, by rw [comp_apply, hpos _ inside, back, swap_apply_self]⟩
  · obtain ⟨inside, back⟩ := inv.back x hx
    rw [hpos x hx, comp_apply, swap_apply_self]
    exact ⟨Heap.swap_lt ha hb inside, back⟩

end Swap

section Sift

variable {t : Tk}

theorem tkLess_iff (t : Tk) (a b : Nat) : tkLess t a b = true ↔ t.count (t.heap a) < t.count (t.heap b) := by
  rw [tkLess, decide_eq_true_eq]
  rfl

theorem tkChild_eq (t : Tk) (i : Nat) : tkChild t i = Heap.child t.count t.heap t.n i (t.heap i) := by
  rw [Heap.child_self]
  simp only [tkChild, tkLess_iff]

theorem tkDown_spec (fuel : Nat) {i : Nat} (inv : Inverse t.n t.heap t.s) (hole : Holed t.count t.heap t.n i)
    (above : 0 < i → t.count (t.heap (parent i)) ≤ t.count (t.heap i)) (inside : i < t.n)
    (enough : t.n ≤ i + fuel) :
    Frame t (tkDown fuel t i) ∧ Inverse t.n (tkDown fuel t i).heap (tkDown fuel t i).s ∧
      Ordered t.count (tkDown fuel t i).heap t.n := by
  induction fuel generalizing t i with
  | zero => omega
  | succ fuel ih =>
    rw [tkDown, tkChild_eq]
    rcases Heap.child_spec t.count t.heap t.n i (t.heap i) with ⟨stay, below⟩ | ⟨pos, bound, child, less, least⟩
    · rw [if_pos stay]
      refine ⟨Frame.refl t, inv, ?_⟩
      exact Up.rest ⟨hole, below⟩ above
    · have deeper := parent_lt pos
      rw [if_neg (by omega)]
      set m := Heap.child t.count t.heap t.n i (t.heap i)
      have frame := tkSwap_frame t i m
      have counts := frame.counts
      have moved : Holed t.count (tkSwap t i m).heap t.n m := (hole.move pos bound child least).refill (t.heap i)
      have swapped := tkSwap_inverse inv inside bound (by omega)
      obtain ⟨frame', inv', order⟩ := ih (t := tkSwap t i m) swapped (by rw [counts]; exact moved)
        (fun _ => by
          rw [counts, child, tkSwap_heap, swap_left t.heap (by omega), update_self]
          exact less.le)
        bound (by have : (tkSwap t i m).n = t.n := rfl; omega)
      rw [counts] at order
      exact ⟨frame.trans frame', inv', order⟩

theorem tkUp_spec (fuel : Nat) {i : Nat} (inv : Inverse t.n t.heap t.s) (up : Up t.count t.heap t.n i (t.heap i))
    (inside : i < t.n) (enough : i < fuel) :
    Frame t (tkUp fuel t i) ∧ Inverse t.n (tkUp fuel t i).heap (tkUp fuel t i).s ∧
      Ordered t.count (tkUp fuel t i).heap t.n := by
  induction fuel generalizing t i with
  | zero => omega
  | succ fuel ih =>
    rw [tkUp]
    by_cases root : i = 0
    · rw [if_pos root]
      exact ⟨Frame.refl t, inv, up.rest fun pos => absurd pos (by omega)⟩
    rw [if_neg root]
    have pos : 0 < i := by omega
    have name : (i - 1) / 2 = parent i := rfl
    rw [name]
    split_ifs with less
    · have lt := (tkLess_iff t _ _).mp less
      have frame := tkSwap_frame t i (parent i)
      have counts := frame.counts
      have moved : Up t.count (tkSwap t i (parent i)).heap t.n (parent i) (t.heap i) := (up.move pos inside lt).fill
      have here : (tkSwap t i (parent i)).heap (parent i) = t.heap i := update_self ..
      obtain ⟨frame', inv', order⟩ := ih (t := tkSwap t i (parent i))
        (tkSwap_inverse inv inside (by omega) (by omega)) (by rw [counts, here]; exact moved)
        (by have : (tkSwap t i (parent i)).n = t.n := rfl; omega) (by omega)
      rw [counts] at order
      exact ⟨frame.trans frame', inv', order⟩
    · refine ⟨Frame.refl t, inv, up.rest fun _ => ?_⟩
      exact not_lt.mp fun lt => less ((tkLess_iff t _ _).mpr lt)

end Sift

/-! ### What the counts say -/

/-- The slots and the index against the true weights `w`, which add up to `sum`. -/
structure Counts (hash : Key → Nat) (t : Tk) (w : Key → Nat) (sum : Nat) : Prop where
  pos : 0 < t.k
  room : t.n ≤ t.k
  valid : SmapValid hash t.idx
  used : t.idx.used = t.n
  get : ∀ key i, ixGet hash t.idx key = some i ↔ i < t.n ∧ (t.s i).key = key
  errs : ∀ i, i < t.n → (t.s i).err ≤ (t.s i).count
  lower : ∀ i, i < t.n → (t.s i).count ≤ w (t.s i).key + (t.s i).err
  upper : ∀ i, i < t.n → w (t.s i).key ≤ (t.s i).count
  unseen : t.n < t.k → ∀ y, (∀ i, i < t.n → (t.s i).key ≠ y) → w y = 0
  untracked : ∀ y, (∀ i, i < t.n → (t.s i).key ≠ y) → ∀ i, i < t.n → w y ≤ (t.s i).count
  sum : ∑ i ∈ Finset.range t.n, (t.s i).count = sum

structure Tracks (hash : Key → Nat) (t : Tk) (w : Key → Nat) (sum : Nat) : Prop extends Counts hash t w sum where
  inverse : Inverse t.n t.heap t.s
  ordered : Ordered t.count t.heap t.n

section Add

variable {hash : Key → Nat} {t t' : Tk} {w : Key → Nat} {sum : Nat}

theorem Counts.frame (h : Counts hash t w sum) (f : Frame t t') : Counts hash t' w sum := by
  refine ⟨?_, ?_, ?_, ?_, ?_, ?_, ?_, ?_, ?_, ?_, ?_⟩ <;> simp only [f.k, f.n, f.idx, f.key, f.count, f.err]
  exacts [h.pos, h.room, h.valid, h.used, h.get, h.errs, h.lower, h.upper, h.unseen, h.untracked, h.sum]

section

variable (h : Tracks hash t w sum)
include h

theorem Tracks.total (total : Nat) : Tracks hash { t with total := total } w sum :=
  ⟨⟨h.pos, h.room, h.valid, h.used, h.get, h.errs, h.lower, h.upper, h.unseen, h.untracked, h.sum⟩, h.inverse,
    h.ordered⟩

theorem Tracks.least {i : Nat} (hi : i < t.n) : (t.s (t.heap 0)).count ≤ (t.s i).count := by
  obtain ⟨inside, back⟩ := h.inverse.back i hi
  have root := h.ordered.root _ inside
  rw [back] at root
  exact root

theorem Tracks.missing {k : Key} (absent : ixGet hash t.idx k = none) (i : Nat) (hi : i < t.n) : (t.s i).key ≠ k := by
  intro same
  rw [(h.get k i).mpr ⟨hi, same⟩] at absent
  contradiction

omit h in
theorem sum_slots (s : Nat → TkSlot) {n i : Nat} (hi : i < n) (v : TkSlot) :
    ∑ x ∈ Finset.range n, (update s i v x).count + (s i).count = ∑ x ∈ Finset.range n, (s x).count + v.count := by
  have inside := mem_range.mpr hi
  have moved : (fun x => (update s i v x).count) = update (fun x => (s x).count) i v.count :=
    funext fun x => apply_update (fun _ => TkSlot.count) s i v x
  rw [moved, sum_update_of_mem inside, sum_eq_add_sum_sdiff_singleton_of_mem inside]
  omega

omit h in
theorem tkDown_raise (inv : Inverse t.n t.heap t.s) (order : Ordered t.count t.heap t.n) {x : Nat} (hx : x < t.n)
    (v : TkSlot) (idx : Ix Key) (stays : v.hpos = (t.s x).hpos) (grew : (t.s x).count ≤ v.count) :
    let t' : Tk := { t with s := update t.s x v, idx := idx }
    let t'' := tkDown t.n t' (t.s x).hpos
    Frame t' t'' ∧ Inverse t.n t''.heap t''.s ∧ Ordered t''.count t''.heap t.n := by
  intro t' t''
  obtain ⟨inside, back⟩ := inv.back x hx
  have hpos : ∀ y, (t'.s y).hpos = (t.s y).hpos := by
    intro y
    by_cases here : y = x
    · subst here
      exact (congrArg TkSlot.hpos (update_self ..)).trans stays
    · exact congrArg TkSlot.hpos (update_of_ne here _ _)
  have inv' : Inverse t'.n t'.heap t'.s :=
    ⟨fun i hi => by rw [hpos]; exact inv.place i hi, fun y hy => by rw [hpos]; exact inv.back y hy⟩
  have raised := order.raise t'.count (fun j hj other => congrArg TkSlot.count (update_of_ne
      (fun same => other (by rw [← same, (inv.place j hj).2])) _ _))
    (by
      rw [back]
      exact grew.trans_eq (congrArg TkSlot.count (update_self ..)).symm)
    inside
  obtain ⟨frame, placed, ordered⟩ := tkDown_spec t.n inv' raised.1 raised.2 inside (Nat.le_add_left ..)
  rw [← frame.counts] at ordered
  exact ⟨frame, placed, ordered⟩

theorem tkAddKnown_tracks {i : Nat} (hi : i < t.n) (c : Nat) :
    let r := tkAddKnown t i c
    r.k = t.k ∧ r.total = t.total ∧ Tracks hash r (update w (t.s i).key (w (t.s i).key + c)) (sum + c) := by
  intro r
  set v : TkSlot := { t.s i with count := (t.s i).count + c } with hv
  obtain ⟨frame, inv, order⟩ := tkDown_raise h.inverse h.ordered hi v t.idx rfl (Nat.le_add_right ..)
  have result : r = tkDown t.n { t with s := update t.s i v } (t.s i).hpos := by
    change tkDown _ _ (update t.s i v i).hpos = _
    rw [update_self]
  rw [← result] at frame inv order
  refine ⟨frame.k, frame.total, ⟨Counts.frame ?_ frame, by rwa [frame.n], by rwa [frame.n]⟩⟩
  have slot : ∀ x, (update t.s i v x).key = (t.s x).key ∧ (update t.s i v x).err = (t.s x).err ∧
      (t.s x).count ≤ (update t.s i v x).count := by
    intro x
    by_cases here : x = i
    · subst here
      rw [update_self]
      exact ⟨rfl, rfl, Nat.le_add_right ..⟩
    · rw [update_of_ne here]
      exact ⟨rfl, rfl, le_rfl⟩
  -- only the slot of the key has its weight
  have weight : ∀ x, x < t.n → x ≠ i → update w (t.s i).key (w (t.s i).key + c) (t.s x).key = w (t.s x).key := by
    intro x hx other
    refine update_of_ne (fun same => other ?_) _ _
    have first := (h.get _ x).mpr ⟨hx, same⟩
    rw [(h.get _ i).mpr ⟨hi, rfl⟩] at first
    exact (some.inj first).symm
  have untracked : ∀ y, (∀ x, x < t.n → (update t.s i v x).key ≠ y) →
      (∀ x, x < t.n → (t.s x).key ≠ y) ∧ update w (t.s i).key (w (t.s i).key + c) y = w y := by
    intro y absent
    have absent' : ∀ x, x < t.n → (t.s x).key ≠ y := fun x hx => by
      rw [← (slot x).1]
      exact absent x hx
    exact ⟨absent', update_of_ne (absent' i hi).symm _ _⟩
  have each : ∀ x, x < t.n →
      (update t.s i v x).count ≤ update w (t.s i).key (w (t.s i).key + c) (t.s x).key + (t.s x).err ∧
      update w (t.s i).key (w (t.s i).key + c) (t.s x).key ≤ (update t.s i v x).count := by
    intro x hx
    by_cases here : x = i
    · subst here
      have lower := h.lower x hx
      have upper := h.upper x hx
      have count : v.count = (t.s x).count + c := rfl
      rw [update_self, update_self]
      omega
    · rw [update_of_ne here, weight x hx here]
      exact ⟨h.lower x hx, h.upper x hx⟩
  refine ⟨h.pos, h.room, h.valid, h.used, fun key x => ?_, fun x hx => ?_, fun x hx => ?_, fun x hx => ?_,
    fun few y absent => ?_, fun y absent x hx => ?_, ?_⟩ <;> dsimp only at *
  · rw [(slot x).1]
    exact h.get key x
  · rw [(slot x).2.1]
    exact (h.errs x hx).trans (slot x).2.2
  · rw [(slot x).1, (slot x).2.1]
    exact (each x hx).1
  · rw [(slot x).1]
    exact (each x hx).2
  · rw [(untracked y absent).2]
    exact h.unseen few y (untracked y absent).1
  · rw [(untracked y absent).2]
    exact (h.untracked y (untracked y absent).1 x hx).trans (slot x).2.2
  · have moved := sum_slots t.s hi v
    have before := h.sum
    have value : v.count = (t.s i).count + c := rfl
    omega

theorem Tracks.spare (v : TkSlot) : Tracks hash { t with s := update t.s t.n v } w sum := by
  have same : ∀ x, x < t.n → update t.s t.n v x = t.s x := fun x hx =>
    update_of_ne (by omega) _ _
  refine ⟨⟨h.pos, h.room, h.valid, h.used, fun key i => ?_, fun i hi => ?_, fun i hi => ?_, fun i hi => ?_,
    fun few y absent => ?_, fun y absent i hi => ?_, ?_⟩, ⟨fun i hi => ?_, fun x hx => ?_⟩, fun i pos hi => ?_⟩ <;>
    dsimp only at *
  · rw [h.get]
    constructor
    · rintro ⟨hi, found⟩
      exact ⟨hi, by rw [same i hi, found]⟩
    · rintro ⟨hi, found⟩
      exact ⟨hi, by rw [← same i hi, found]⟩
  · rw [same i hi]
    exact h.errs i hi
  · rw [same i hi]
    exact h.lower i hi
  · rw [same i hi]
    exact h.upper i hi
  · exact h.unseen few y fun i hi => by
      rw [← same i hi]
      exact absent i hi
  · rw [same i hi]
    exact h.untracked y (fun j hj => by
      rw [← same j hj]
      exact absent j hj) i hi
  · rw [← h.sum]
    exact sum_congr rfl fun x hx => by rw [same x (mem_range.mp hx)]
  · rw [same _ (h.inverse.place i hi).1]
    exact h.inverse.place i hi
  · rw [same x hx]
    exact h.inverse.back x hx
  · have upper := parent_lt pos
    change (update t.s t.n v _).count ≤ (update t.s t.n v _).count
    rw [same _ (h.inverse.place i hi).1, same _ (h.inverse.place (parent i) (by omega)).1]
    exact h.ordered i pos hi

theorem Tracks.join {k : Key} {c : Nat} (few : t.n < t.k) {idx : Ix Key}
    (absent : ixGet hash t.idx k = none) (valid : SmapValid hash idx) (used : idx.used = t.idx.used + 1)
    (get : ixGet hash idx = update (ixGet hash t.idx) k (some t.n))
    (key : (t.s t.n).key = k) (count : (t.s t.n).count = c) (err : (t.s t.n).err = 0) :
    Counts hash { t with idx := idx, n := t.n + 1 } (update w k (w k + c)) (sum + c) := by
  have away := h.missing absent
  have zero := h.unseen few k away
  have weight : ∀ x, x < t.n → update w k (w k + c) (t.s x).key = w (t.s x).key := fun x hx =>
    update_of_ne (away x hx) _ _
  -- slot `x` is an old one or the new one
  have old : ∀ x, x < t.n + 1 → x ≠ t.n → x < t.n := fun x hx other => by omega
  have others : ∀ y, (∀ x, x < t.n + 1 → (t.s x).key ≠ y) → update w k (w k + c) y = 0 := by
    intro y clear
    rw [update_of_ne fun same => clear t.n (by omega) (by rw [key, same])]
    exact h.unseen few y fun x hx => clear x (by omega)
  have each : ∀ x, x < t.n + 1 → (t.s x).err ≤ (t.s x).count ∧
      (t.s x).count ≤ update w k (w k + c) (t.s x).key + (t.s x).err ∧
      update w k (w k + c) (t.s x).key ≤ (t.s x).count := by
    intro x hx
    by_cases last : x = t.n
    · subst last
      rw [key, update_self]
      omega
    · rw [weight x (old x hx last)]
      exact ⟨h.errs x (old x hx last), h.lower x (old x hx last), h.upper x (old x hx last)⟩
  refine ⟨h.pos, few, valid, by rw [used, h.used], fun key' x => ?_, fun x hx => (each x hx).1,
    fun x hx => (each x hx).2.1, fun x hx => (each x hx).2.2, fun _ y clear => others y clear,
    fun y clear x hx => ?_, ?_⟩ <;> dsimp only at *
  · rw [get]
    by_cases same : key' = k
    · subst same
      rw [update_self, some.injEq]
      constructor
      · rintro rfl
        exact ⟨by omega, key⟩
      · rintro ⟨hx, found⟩
        by_contra other
        exact away x (old x hx (Ne.symm other)) found
    · rw [update_of_ne same, h.get]
      constructor
      · rintro ⟨hx, found⟩
        exact ⟨by omega, found⟩
      · rintro ⟨hx, found⟩
        refine ⟨old x hx fun last => same ?_, found⟩
        rw [← found, last, key]
  · rw [others y clear]
    exact zero_le _
  · rw [sum_range_succ, h.sum, count]

end

def Stuck (t : Tk) (mem : Mem) : Prop :=
  t.idx.cap * 3 < (t.n + 1) * 4 ∧ (mem.grow = false ∨ 2 ^ 29 < t.idx.cap)

/-- The key has no slot, and it is too long, cannot be copied, or takes a new slot for which
the index cannot grow. -/
def Refuses (t : Tk) (k : Key) (mem : Mem) : Prop :=
  (∀ i, i < t.n → (t.s i).key ≠ k) ∧ (2 ^ 32 - 2 < k.length ∨ mem.dup = false ∨ t.n < t.k ∧ Stuck t mem)

def Added (hash : Key → Nat) (t : Tk) (w : Key → Nat) (sum : Nat) (k : Key) (c : Nat) (fails : Prop)
    (r : Tk × Option (Option Key)) : Prop :=
  r.1.k = t.k ∧ r.1.total = t.total ∧ (fails ∧ r.2 = none ∧ Tracks hash r.1 w sum ∨
      ¬ fails ∧ r.2.isSome = true ∧ Tracks hash r.1 (update w k (w k + c)) (sum + c))

variable (h : Tracks hash t w sum)
include h

theorem Tracks.evict {k : Key} {x c : Nat} {v : TkSlot} (hx : x < t.n) (full : t.n = t.k)
    (least : ∀ i, i < t.n → (t.s x).count ≤ (t.s i).count) {idx : Ix Key} (absent : ixGet hash t.idx k = none)
    (valid : SmapValid hash idx) (used : idx.used = t.idx.used)
    (get : ixGet hash idx = update (update (ixGet hash t.idx) (t.s x).key none) k (some x))
    (key : v.key = k) (err : v.err = (t.s x).count) (count : v.count = (t.s x).count + c) :
    Counts hash { t with s := update t.s x v, idx := idx } (update w k (w k + c)) (sum + c) := by
  have away := h.missing absent
  have here : update t.s x v x = v := update_self ..
  have there : ∀ i, i ≠ x → update t.s x v i = t.s i := fun i other => update_of_ne other _ _
  have weight : ∀ i, i < t.n → update w k (w k + c) (t.s i).key = w (t.s i).key := fun i hi =>
    update_of_ne (away i hi) _ _
  have grew : ∀ i, (t.s i).count ≤ (update t.s x v i).count := by
    intro i
    by_cases same : i = x
    · rw [same, here, count]
      exact Nat.le_add_right ..
    · rw [there i same]
  -- the key that leaves weighed at most the least count
  have bounded : ∀ y, (∀ i, i < t.n → (update t.s x v i).key ≠ y) → update w k (w k + c) y ≤ (t.s x).count := by
    intro y clear
    have other : y ≠ k := fun same => clear x hx (by rw [here, key, same])
    rw [update_of_ne other]
    by_cases leaves : (t.s x).key = y
    · rw [← leaves]
      exact h.upper x hx
    · refine h.untracked y (fun i hi => ?_) x hx
      by_cases same : i = x
      · rwa [same]
      · rw [← there i same]
        exact clear i hi
  have each : ∀ i, i < t.n → (update t.s x v i).err ≤ (update t.s x v i).count ∧
      (update t.s x v i).count ≤ update w k (w k + c) (update t.s x v i).key + (update t.s x v i).err ∧
      update w k (w k + c) (update t.s x v i).key ≤ (update t.s x v i).count := by
    intro i hi
    by_cases same : i = x
    · have before := h.untracked k away x hx
      rw [same, here, key, update_self]
      omega
    · rw [there i same, weight i hi]
      exact ⟨h.errs i hi, h.lower i hi, h.upper i hi⟩
  refine ⟨h.pos, h.room, valid, used.trans h.used, fun key' i => ?_, fun i hi => (each i hi).1,
    fun i hi => (each i hi).2.1, fun i hi => (each i hi).2.2, fun few => ?_, fun y clear i hi => ?_, ?_⟩ <;>
    dsimp only at *
  · rw [get]
    by_cases isNew : key' = k
    · subst isNew
      rw [update_self, some.injEq]
      constructor
      · rintro rfl
        exact ⟨hx, by rw [here, key]⟩
      · rintro ⟨hi, found⟩
        by_contra other
        rw [there i (Ne.symm other)] at found
        exact away i hi found
    · rw [update_of_ne isNew]
      by_cases isOld : key' = (t.s x).key
      · subst isOld
        rw [update_self]
        refine ⟨fun impossible => by contradiction, ?_⟩
        rintro ⟨hi, found⟩
        by_cases same : i = x
        · rw [same, here, key] at found
          exact absurd found.symm isNew
        · rw [there i same] at found
          have first := (h.get _ i).mpr ⟨hi, found⟩
          rw [(h.get _ x).mpr ⟨hx, rfl⟩] at first
          exact absurd (some.inj first).symm same
      · rw [update_of_ne isOld, h.get]
        refine and_congr_right fun hi => ?_
        by_cases same : i = x
        · rw [same, here, key]
          exact ⟨fun found => absurd found.symm isOld, fun found => absurd found.symm isNew⟩
        · rw [there i same]
  · omega
  · exact (bounded y clear).trans ((least i hi).trans (grew i))
  · have moved := sum_slots t.s hx v
    have before := h.sum
    omega

section

variable {k : Key} {mem : Mem} (absent : ixGet hash t.idx k = none) (short : k.length ≤ 2 ^ 32 - 2)
include absent short

theorem tkAddFresh_added (few : t.n < t.k) (c : Nat) :
    Added hash t w sum k c (mem.dup = false ∨ Stuck t mem) (tkAddFresh hash t k c mem) := by
  unfold tkAddFresh
  by_cases refused : ¬ mem.dup
  · rw [if_pos refused]
    exact ⟨rfl, rfl, .inl ⟨.inl (eq_false_of_ne_true refused), rfl, h⟩⟩
  rw [if_neg refused]
  have stuck := smapInsert_none h.valid (n := k.length) (by omega) (hash k) k t.n mem.grow
  rw [h.used] at stuck
  cases inserted : smapInsert t.idx k.length (hash k) k t.n mem.grow with
  | none =>
    simp only [inserted]
    exact ⟨rfl, rfl, .inl ⟨.inr (stuck.mp inserted), rfl, h.spare _⟩⟩
  | some idx =>
    simp only [inserted]
    have slots : setHpos (update t.s t.n { t.s t.n with key := k, count := c, err := 0 }) t.n t.n =
        update t.s t.n ⟨k, t.n, c, 0⟩ := by
      rw [setHpos, update_idem, update_self]
    rw [slots]
    have spared := h.spare ⟨k, t.n, c, 0⟩
    have fresh : update t.s t.n ⟨k, t.n, c, 0⟩ t.n = ⟨k, t.n, c, 0⟩ := update_self ..
    obtain ⟨valid, used, get⟩ := smapInsert_get h.valid absent inserted
    have joined := spared.join few absent valid used get
      (congrArg TkSlot.key fresh) (congrArg TkSlot.count fresh) (congrArg TkSlot.err fresh)
    set t' : Tk := { t with
      idx := idx
      heap := update t.heap t.n t.n
      s := update t.s t.n ⟨k, t.n, c, 0⟩
      n := t.n + 1 } with ht'
    have counts : Counts hash t' (update w k (w k + c)) (sum + c) :=
      joined.frame ⟨rfl, rfl, rfl, rfl, fun _ => rfl, fun _ => rfl, fun _ => rfl⟩
    have last : t'.heap t.n = t.n := update_self ..
    have before : ∀ i, i < t.n → t'.heap i = t.heap i := fun i hi => update_of_ne (by omega) _ _
    have inv : Inverse t'.n t'.heap t'.s := by
      refine ⟨fun i hi => ?_, fun x hx => ?_⟩
      · by_cases here : i = t.n
        · rw [here, last]
          exact ⟨lt_succ_self _, congrArg TkSlot.hpos fresh⟩
        · have hi' : i < t.n := by
            have : t'.n = t.n + 1 := rfl
            omega
          obtain ⟨inside, back⟩ := spared.inverse.place i hi'
          rw [before i hi']
          exact ⟨lt_succ_of_lt inside, back⟩
      · by_cases here : x = t.n
        · have pos : (t'.s x).hpos = t.n := by
            rw [here]
            exact congrArg TkSlot.hpos fresh
          rw [pos, last, here]
          exact ⟨lt_succ_self _, rfl⟩
        · have hx' : x < t.n := by
            have : t'.n = t.n + 1 := rfl
            omega
          obtain ⟨inside, back⟩ := spared.inverse.back x hx'
          rw [before _ inside]
          exact ⟨lt_succ_of_lt inside, back⟩
    have up : Up t'.count t'.heap t'.n t.n (t'.heap t.n) := by
      have grown := spared.ordered.grow t.n
      rw [last]
      exact grown.fill
    obtain ⟨frame, placed, ordered⟩ := tkUp_spec (t.n + 1) inv up (lt_succ_self _) (lt_succ_self _)
    rw [← frame.counts] at ordered
    refine ⟨frame.k, frame.total, .inr ⟨?_, rfl, counts.frame frame, ?_, ?_⟩⟩
    · rintro (none | full)
      · exact refused (by rw [none]; exact Bool.false_ne_true)
      · rw [stuck.mpr full] at inserted
        contradiction
    · rw [frame.n]
      exact placed
    · rw [frame.n]
      exact ordered

theorem tkEvict_added (full : ¬ t.n < t.k) (c : Nat) :
    Added hash t w sum k c (mem.dup = false) (tkEvict hash t k c mem) := by
  unfold tkEvict
  by_cases refused : ¬ mem.dup
  · rw [if_pos refused]
    exact ⟨rfl, rfl, .inl ⟨eq_false_of_ne_true refused, rfl, h⟩⟩
  rw [if_neg refused]
  have room := h.room
  have pos : 0 < t.n := by
    have := h.pos
    omega
  obtain ⟨inside, top⟩ := h.inverse.place 0 pos
  have tracked := (h.get _ _).mpr ⟨inside, rfl⟩
  obtain ⟨p, found⟩ : ∃ p, ixFind t.idx (hash (t.s (t.heap 0)).key) (t.s (t.heap 0)).key = some p := by
    obtain ⟨p, found, _⟩ := map_eq_some_iff.mp tracked
    exact ⟨p, found⟩
  obtain ⟨valid, used, cap, get⟩ := smapRemove_get h.valid found
  -- the entry removed leaves room for the one inserted
  have load := h.valid.load'
  obtain ⟨idx, inserted⟩ := ne_none_iff_exists'.mp fun none => absurd
    ((smapInsert_none valid (n := k.length) (by omega) (hash k) k (t.heap 0) mem.grow).mp none).1 (by omega)
  have absent' : ixGet hash (smapRemove t.idx p) k = none := by
    rw [get, update_of_ne (h.missing absent _ inside).symm]
    exact absent
  obtain ⟨valid', used', get'⟩ := smapInsert_get valid absent' inserted
  simp only [found, inserted]
  set v : TkSlot := { t.s (t.heap 0) with
    key := k, err := (t.s (t.heap 0)).count, count := (t.s (t.heap 0)).count + c } with hv
  obtain ⟨frame, inv, order⟩ := tkDown_raise h.inverse h.ordered inside v idx rfl (Nat.le_add_right ..)
  rw [top] at frame inv order
  have counts := h.evict (v := v) inside (by omega) (fun i hi => h.least hi) absent valid' (by omega)
    (by rw [get', get]) rfl rfl rfl
  refine ⟨frame.k, frame.total, .inr ⟨by simpa using refused, rfl, counts.frame frame, ?_, ?_⟩⟩
  · rw [frame.n]
    exact inv
  · rw [frame.n]
    exact order

end

/-- One add: it is refused and only the total grows, or the weight of its key does too. -/
theorem tkAdd_added (k : Key) (c : Nat) (mem : Mem) :
    let r := tkAdd hash t k c mem
    r.1.k = t.k ∧ r.1.total = t.total + c ∧ (Refuses t k mem ∧ r.2 = none ∧ Tracks hash r.1 w sum ∨
        ¬ Refuses t k mem ∧ r.2.isSome = true ∧ Tracks hash r.1 (update w k (w k + c)) (sum + c)) := by
  have counted := h.total (t.total + c)
  change Added hash { t with total := t.total + c } w sum k c (Refuses t k mem) _
  unfold tkAdd
  dsimp only
  cases found : ixFind t.idx (hash k) k with
  | some pos =>
    obtain ⟨-, -, get⟩ := ixFind_some h.valid.toSound found
    obtain ⟨inside, key⟩ := (h.get _ _).mp get
    obtain ⟨same, total, tracks⟩ := tkAddKnown_tracks counted inside c
    rw [key] at tracks
    exact ⟨same, total, .inr ⟨fun refused => refused.1 _ inside key, rfl, tracks⟩⟩
  | none =>
    have absent : ixGet hash t.idx k = none := by rw [ixGet, found]; rfl
    by_cases long : 2 ^ 32 - 2 < k.length
    · rw [if_pos long]
      exact ⟨rfl, rfl, .inl ⟨⟨h.missing absent, .inl long⟩, rfl, counted⟩⟩
    rw [if_neg long, Refuses, and_iff_right (h.missing absent), or_iff_right long]
    split_ifs with few
    · rw [and_iff_right few]
      exact tkAddFresh_added counted absent (by omega) few c
    · rw [or_iff_left fun grows => few grows.1]
      exact tkEvict_added counted absent (by omega) few c

end Add

/-! ### Runs -/

structure TkOp where
  key : Key
  count : Nat
  pos : 0 < count
  mem : Mem

def tkRun (hash : Key → Nat) : Tk → List TkOp → Tk × List TkOp
  | t, [] => (t, [])
  | t, op :: ops =>
    let r := tkAdd hash t op.key op.count op.mem
    let rest := tkRun hash r.1 ops
    (rest.1, if r.2.isSome then op :: rest.2 else rest.2)

/-- No add of the run is refused where it comes. -/
def Granted (hash : Key → Nat) : Tk → List TkOp → Prop
  | _, [] => True
  | t, op :: ops => ¬ Refuses t op.key op.mem ∧ Granted hash (tkAdd hash t op.key op.count op.mem).1 ops

def sumOf (ops : List TkOp) : Nat := (ops.map TkOp.count).sum

def trueCount (ops : List TkOp) (k : Key) : Nat := sumOf (ops.filter (·.key = k))

section Run

variable {hash : Key → Nat}

theorem tkNew_tracks (hash : Key → Nat) {k : Nat} (pos : 0 < k) : Tracks hash (tkNew k) (fun _ => 0) 0 where
  pos := pos
  room := zero_le _
  valid := smapEmpty_valid
  used := rfl
  get := fun key i => by
    refine ⟨fun found => ?_, fun slot => absurd slot.1 (not_lt_zero i)⟩
    exact absurd found (by rw [tkNew]; exact fun impossible => by contradiction)
  errs := nofun
  lower := nofun
  upper := nofun
  unseen := fun _ _ _ => rfl
  untracked := fun _ _ i hi => absurd hi (not_lt_zero i)
  sum := rfl
  inverse := ⟨nofun, nofun⟩
  ordered := fun i _ hi => absurd hi (not_lt_zero i)

theorem tkRun_tracks (ops : List TkOp) {t : Tk} {w : Key → Nat} {sum : Nat} (h : Tracks hash t w sum) :
    (tkRun hash t ops).1.k = t.k ∧ (tkRun hash t ops).1.total = t.total + sumOf ops ∧
      Tracks hash (tkRun hash t ops).1 (fun k => w k + trueCount (tkRun hash t ops).2 k)
        (sum + sumOf (tkRun hash t ops).2) := by
  induction ops generalizing t w sum with
  | nil => exact ⟨rfl, rfl, h⟩
  | cons op ops ih =>
    have total : sumOf (op :: ops) = op.count + sumOf ops := List.sum_cons
    obtain ⟨same, grown, ⟨-, failed, tracks⟩ | ⟨-, ok, tracks⟩⟩ := tkAdd_added h op.key op.count op.mem
    · obtain ⟨same', total', tracks'⟩ := ih tracks
      simp only [tkRun, failed, isSome_none, Bool.false_eq_true, if_false]
      exact ⟨same'.trans same, by rw [total]; omega, tracks'⟩
    · obtain ⟨same', total', tracks'⟩ := ih tracks
      simp only [tkRun, ok, if_true]
      refine ⟨same'.trans same, by rw [total]; omega, ?_⟩
      have weights : (fun k => w k + trueCount (op :: (tkRun hash (tkAdd hash t op.key op.count op.mem).1 ops).2) k) =
          fun k => update w op.key (w op.key + op.count) k +
            trueCount (tkRun hash (tkAdd hash t op.key op.count op.mem).1 ops).2 k := by
        funext k
        by_cases here : op.key = k
        · subst here
          simp [trueCount, sumOf, add_assoc]
        · rw [update_of_ne (Ne.symm here)]
          simp [trueCount, sumOf, here]
      have sums : ∀ done, sum + sumOf (op :: done) = sum + op.count + sumOf done := fun done => by
        rw [add_assoc]
        rfl
      rw [weights, sums]
      exact tracks'

/-- The successful adds are all of them exactly when their counts add up to all counts. -/
theorem tkRun_sum (ops : List TkOp) {t : Tk} {w : Key → Nat} {sum : Nat} (h : Tracks hash t w sum) :
    sumOf (tkRun hash t ops).2 ≤ sumOf ops ∧ (sumOf (tkRun hash t ops).2 = sumOf ops ↔ (tkRun hash t ops).2 = ops) ∧
      ((tkRun hash t ops).2 = ops ↔ Granted hash t ops) := by
  induction ops generalizing t w sum with
  | nil => exact ⟨le_rfl, iff_of_true rfl rfl, iff_of_true rfl trivial⟩
  | cons op ops ih =>
    have split : ∀ l, sumOf (op :: l) = op.count + sumOf l := fun _ => List.sum_cons
    have pos := op.pos
    obtain ⟨-, -, ⟨refused, failed, tracks⟩ | ⟨accepted, ok, tracks⟩⟩ := tkAdd_added h op.key op.count op.mem
    · obtain ⟨le, -⟩ := ih tracks
      simp only [tkRun, failed, isSome_none, Bool.false_eq_true, if_false]
      have fewer : (tkRun hash (tkAdd hash t op.key op.count op.mem).1 ops).2 ≠ op :: ops := fun same => by
        rw [same, split] at le
        omega
      rw [split]
      exact ⟨by omega, iff_of_false (by omega) fewer, iff_of_false fewer fun all => all.1 refused⟩
    · obtain ⟨le, exact', all⟩ := ih tracks
      simp only [tkRun, ok, if_true]
      rw [split, split, List.cons.injEq, and_iff_right rfl, add_left_cancel_iff]
      exact ⟨by omega, exact', all.trans (and_iff_right accepted).symm⟩

/-- After any adds, failed ones among them, the counts bound the true counts from above and
their errors from below, a key without a slot counts at most the least count, and the heap
and `hpos` are inverse with a least count on top. The total is the sum of the tracked
counts and of the successful adds exactly if no add failed, that is, if none was refused. -/
theorem topk_total_iff (hash : Key → Nat) (k : Nat) (pos : 0 < k) (ops : List TkOp) :
    let t := (tkRun hash (tkNew k) ops).1
    let done := (tkRun hash (tkNew k) ops).2
    (∀ i, i < t.n → (t.s i).err ≤ (t.s i).count ∧
        (t.s i).count - (t.s i).err ≤ trueCount done (t.s i).key ∧ trueCount done (t.s i).key ≤ (t.s i).count) ∧
      (t.n = k → ∀ y, (∀ i, i < t.n → (t.s i).key ≠ y) → ∀ i, i < t.n → trueCount done y ≤ (t.s i).count) ∧
      (∀ i, i < t.n → t.heap i < t.n ∧ (t.s (t.heap i)).hpos = i) ∧
      (∀ x, x < t.n → (t.s x).hpos < t.n ∧ t.heap (t.s x).hpos = x) ∧
      (∀ i, i < t.n → (t.s (t.heap 0)).count ≤ (t.s i).count) ∧
      ∑ i ∈ Finset.range t.n, (t.s i).count = sumOf done ∧ t.total = sumOf ops ∧
      (∑ i ∈ Finset.range t.n, (t.s i).count = t.total ∧ t.total = sumOf done ↔ done = ops) ∧
      (done = ops ↔ Granted hash (tkNew k) ops) := by
  intro t done
  obtain ⟨-, total, tracks⟩ := tkRun_tracks ops (tkNew_tracks hash pos)
  simp only [zero_add] at tracks
  have total' : t.total = sumOf ops := total.trans (zero_add _)
  obtain ⟨-, sums, all⟩ := tkRun_sum ops (tkNew_tracks hash pos)
  refine ⟨fun i hi => ⟨tracks.errs i hi, ?_, tracks.upper i hi⟩, fun _ => tracks.untracked, tracks.inverse.place,
    tracks.inverse.back, fun i hi => tracks.least hi, tracks.sum, total', ?_, all⟩
  · exact sub_le_of_le_add (tracks.lower i hi)
  · rw [← sums, tracks.sum, total']
    exact ⟨fun both => both.1, fun same => ⟨same, same.symm⟩⟩

/-- The second key takes the only slot, and the weight of the first is its error. -/
theorem topk_total_evicted :
    let ops : List TkOp := [⟨[1], 3, by decide, ⟨true, true, true⟩⟩, ⟨[2], 2, by decide, ⟨true, true, true⟩⟩]
    let t := (tkRun (fun _ => 0) (tkNew 1) ops).1
    ∑ i ∈ Finset.range t.n, (t.s i).count = t.total ∧ t.total = 5 ∧ (t.s 0).key = [2] ∧ (t.s 0).err = 3 := by
  intro ops
  have all := topk_total_iff (fun _ => 0) 1 (by decide) ops
  exact ⟨(all.2.2.2.2.2.2.2.1.mpr rfl).1, all.2.2.2.2.2.2.1, rfl, rfl⟩

/-- An add whose key could not be copied has raised the total. -/
theorem failed_add_counts :
    let r := tkRun (fun _ => 0) (tkNew 1) [⟨[1], 3, by decide, ⟨false, true, true⟩⟩]
    r.1.n = 0 ∧ r.1.total = 3 ∧ r.2 = [] := by
  exact ⟨rfl, rfl, rfl⟩

end Run

end DynaJS.Db
