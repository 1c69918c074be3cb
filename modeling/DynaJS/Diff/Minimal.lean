import DynaJS.Diff.Run

/-! The script of `dyn_diff_run` turns one sequence into the other with the fewest edits. -/
namespace DynaJS.Diff

open Grid Nat List Int

section Cost

variable {A B : List Nat} {a0 b0 n m : Nat}

def cost (A B : List Nat) (a0 b0 n m : Nat) : Nat := edits (ahead A B a0 b0 n m) n m

variable {x y : Nat}

theorem ahead_iff : ahead A B a0 b0 n m x y = true ↔ x < n ∧ y < m ∧ A[a0 + x]? = B[b0 + y]? := by
  rw [ahead, cells, sameAhead, Bool.and_eq_true, Bool.and_eq_true, decide_eq_true_eq, decide_eq_true_eq,
    decide_eq_true_eq, and_assoc,
    show ((a0 : Int) + x).toNat = a0 + x by omega, show ((b0 : Int) + y).toNat = b0 + y by omega]

theorem back_iff (hx : x < n) (hy : y < m) :
    back A B a0 b0 n m x y = true ↔ A[a0 + (n - 1 - x)]? = B[b0 + (m - 1 - y)]? := by
  rw [(ahead_mirror A B a0 b0 n m).symm x y hx hy, ahead_iff]
  exact ⟨fun free => free.2.2, fun same => ⟨by omega, by omega, same⟩⟩

theorem cost_eq_back : cost A B a0 b0 n m = edits (back A B a0 b0 n m) n m := (ahead_mirror A B a0 b0 n m).edits_eq

theorem edits_ahead (hx : x ≤ n) (hy : y ≤ m) : edits (ahead A B a0 b0 n m) x y = cost A B a0 b0 x y := by
  refine edits_congr fun i j hi hj => ?_
  rw [Bool.eq_iff_iff, ahead_iff, ahead_iff]
  exact ⟨fun free => ⟨hi, hj, free.2.2⟩, fun free => ⟨by omega, by omega, free.2.2⟩⟩

theorem edits_back {i j : Nat} (hi : i ≤ n) (hj : j ≤ m) :
    edits (back A B a0 b0 n m) i j = cost A B (a0 + (n - i)) (b0 + (m - j)) i j := by
  rw [cost_eq_back]
  refine edits_congr fun x y hx hy => ?_
  rw [Bool.eq_iff_iff, back_iff (by omega) (by omega), back_iff hx hy,
    show a0 + (n - i) + (i - 1 - x) = a0 + (n - 1 - x) by omega,
    show b0 + (m - j) + (j - 1 - y) = b0 + (m - 1 - y) by omega]

theorem cost_left : cost A B a0 b0 0 m = m := edits_top m

theorem cost_right : cost A B a0 b0 n 0 = n := edits_side n

theorem cost_suffix {t : Nat} (same : ∀ i, i < t → A[a0 + n + i]? = B[b0 + m + i]?) :
    cost A B a0 b0 (n + t) (m + t) = cost A B a0 b0 n m := by
  have inner : edits (ahead A B a0 b0 (n + t) (m + t)) n m = cost A B a0 b0 n m := edits_ahead (by omega) (by omega)
  rw [← inner]
  refine edits_slide fun i hi => ahead_iff.mpr ⟨by omega, by omega, ?_⟩
  rw [← Nat.add_assoc, ← Nat.add_assoc]
  exact same i hi

theorem cost_prefix {t : Nat} (same : ∀ i, i < t → A[a0 + i]? = B[b0 + i]?) :
    cost A B a0 b0 (n + t) (m + t) = cost A B (a0 + t) (b0 + t) n m := by
  have inner : edits (back A B a0 b0 (n + t) (m + t)) n m = cost A B (a0 + (n + t - n)) (b0 + (m + t - m)) n m :=
    edits_back (by omega) (by omega)
  rw [show n + t - n = t by omega, show m + t - m = t by omega] at inner
  rw [cost_eq_back, ← inner]
  refine edits_slide fun i hi => (back_iff (by omega) (by omega)).mpr ?_
  rw [show n + t - 1 - (n + i) = t - 1 - i by omega, show m + t - 1 - (m + i) = t - 1 - i by omega]
  exact same (t - 1 - i) (by omega)

theorem cost_through (hx : x ≤ n) (hy : y ≤ m) :
    cost A B a0 b0 n m ≤ cost A B a0 b0 x y + cost A B (a0 + x) (b0 + y) (n - x) (m - y) := by
  have way := (ahead_mirror A B a0 b0 n m).through (i := n - x) (j := m - y) (by omega) (by omega)
  rwa [edits_back (by omega) (by omega), show n - (n - x) = x by omega, show m - (m - y) = y by omega,
    edits_ahead hx hy] at way

theorem cost_apart (differ : ∀ i j, i < n → j < m → A[a0 + i]? ≠ B[b0 + j]?) : cost A B a0 b0 n m = n + m := by
  refine edits_closed fun i j hi hj => ?_
  rw [Bool.eq_false_iff]
  exact fun free => differ i j hi hj (ahead_iff.mp free).2.2

theorem cost_hit (hx : x < n) (hy : y < m) (hit : A[a0 + x]? = B[b0 + y]?) : cost A B a0 b0 n m ≤
    cost A B a0 b0 x y + cost A B (a0 + x + 1) (b0 + y + 1) (n - (x + 1)) (m - (y + 1)) := by
  have inner : cost A B (a0 + x) (b0 + y) (n - (x + 1) + 1) (m - (y + 1) + 1) = _ := cost_prefix fun i hi => by
    obtain rfl : i = 0 := by omega
    exact hit
  have way := @cost_through A B a0 b0 n m x y hx.le hy.le
  rwa [show n - x = n - (x + 1) + 1 by omega, show m - y = m - (y + 1) + 1 by omega, inner] at way

theorem cost_hit_first {h : Nat} (hh : h < n) (hit : A[a0 + h]? = B[b0]?) : cost A B a0 b0 n 1 = h + (n - (h + 1)) := by
  have low : n ≤ 1 + cost A B a0 b0 n 1 := (edits_bounds _ n 1).1
  have way := cost_hit hh one_pos hit
  rw [cost_right, show 1 - (0 + 1) = 0 from rfl, cost_right] at way
  omega

theorem cost_hit_second {h : Nat} (hh : h < m) (hit : B[b0 + h]? = A[a0]?) :
    cost A B a0 b0 1 m = h + (m - (h + 1)) := by
  have low : m ≤ 1 + cost A B a0 b0 1 m := (edits_bounds _ 1 m).2.1
  have way := cost_hit one_pos hh hit.symm
  rw [cost_left, show 1 - (0 + 1) = 0 from rfl, cost_left] at way
  omega

/-- Segments without a common first or last token differ by two edits at least. -/
theorem two_le_cost (hn : 2 ≤ n) (hm : 2 ≤ m) (first : A[a0]? ≠ B[b0]?) (last : A[a0 + (n - 1)]? ≠ B[b0 + (m - 1)]?) :
    2 ≤ cost A B a0 b0 n m := by
  obtain ⟨x, rfl⟩ : ∃ x, n = x + 2 := ⟨n - 2, by omega⟩
  obtain ⟨y, rfl⟩ : ∃ y, m = y + 2 := ⟨m - 2, by omega⟩
  have shut : ahead A B a0 b0 (x + 2) (y + 2) (x + 1) (y + 1) = false := by
    rw [Bool.eq_false_iff]
    exact fun free => last (ahead_iff.mp free).2.2
  have start : ahead A B a0 b0 (x + 2) (y + 2) 0 0 ≠ true := fun free => first (ahead_iff.mp free).2.2
  have right : edits (ahead A B a0 b0 (x + 2) (y + 2)) (x + 1) (y + 1 + 1) ≠ 0 :=
    fun zero => start (open_of_edits_zero zero).1
  have down : edits (ahead A B a0 b0 (x + 2) (y + 2)) (x + 1 + 1) (y + 1) ≠ 0 :=
    fun zero => start (open_of_edits_zero zero).1
  rw [cost, edits_shut shut]
  omega

end Cost

section Script

variable {A B : List Nat}

/-- The hunks, the last one first, lead from the start of both sequences to a position in each
with a number of edits: a hunk begins where the hunks before it end in the sequence that it reads. -/
inductive Covers (A B : List Nat) : List Hunk → Nat → Nat → Nat → Prop
  | nil : Covers A B [] 0 0 0
  | del {h : Hunk} {l : List Hunk} {b c : Nat} : Covers A B l h.a0 b c → h.op = .del → h.a0 < h.a1 →
      Covers A B (h :: l) h.a1 b (c + (h.a1 - h.a0))
  | ins {h : Hunk} {l : List Hunk} {a c : Nat} : Covers A B l a h.b0 c → h.op = .ins → h.b0 < h.b1 →
      Covers A B (h :: l) a h.b1 (c + (h.b1 - h.b0))
  | eq {h : Hunk} {l : List Hunk} {c t : Nat} :
      Covers A B l h.a0 h.b0 c → h.op = .eq → 0 < t → h.a1 = h.a0 + t → h.b1 = h.b0 + t →
      (∀ i, i < t → A[h.a0 + i]? = B[h.b0 + i]?) → Covers A B (h :: l) h.a1 h.b1 c

variable {l : List Hunk} {a b c t : Nat}

/-- A hunk without tokens adds nothing, one of the kind of the last makes it longer, and any other is
a new one. -/
theorem scriptAdd_cases {op : Op} {a0 a1 b0 b1 : Nat}
    (tokens : (op = .del ∧ a0 = a1) ∨ (op = .ins ∧ b0 = b1) ∨ (op = .eq ∧ a0 = a1) ↔ t = 0)
    (none : t = 0 → Covers A B l a b c) (fresh : 0 < t → Covers A B (⟨op, a0, a1, b0, b1⟩ :: l) a b c)
    (joined : ∀ h rest, l = h :: rest → h.op = op → Covers A B ({ h with a1 := a1, b1 := b1 } :: rest) a b c) :
    Covers A B (scriptAdd l op a0 a1 b0 b1) a b c := by
  unfold scriptAdd
  split_ifs with empty
  · exact none (tokens.mp empty)
  have new := fresh (Nat.pos_of_ne_zero (mt tokens.mpr empty))
  cases l with
  | nil => exact new
  | cons h rest =>
    dsimp only
    split_ifs with same
    · exact joined h rest rfl same
    · exact new

variable (covers : Covers A B l a b c)
include covers

theorem scriptAdd_del (b0 b1 : Nat) : Covers A B (scriptAdd l .del a (a + t) b0 b1) (a + t) b (c + t) := by
  refine scriptAdd_cases (t := t) (by simp) (by rintro rfl; exact covers) (fun pos => ?_) fun h rest last same => ?_
  · have hunk := Covers.del (h := ⟨.del, a, a + t, b0, b1⟩) covers rfl (by dsimp only; omega)
    rwa [show c + (a + t - a) = c + t by omega] at hunk
  · subst last
    cases covers with
    | @del h l b c inner kind long =>
      have hunk := Covers.del (h := { h with a1 := h.a1 + t, b1 := b1 }) inner kind (by dsimp only; omega)
      rwa [show c + (h.a1 + t - h.a0) = c + (h.a1 - h.a0) + t by omega] at hunk
    | ins inner kind long => exact absurd (kind.symm.trans same) (by decide)
    | eq inner kind pos' ha hb all => exact absurd (kind.symm.trans same) (by decide)

theorem scriptAdd_ins (a0 a1 : Nat) : Covers A B (scriptAdd l .ins a0 a1 b (b + t)) a (b + t) (c + t) := by
  refine scriptAdd_cases (t := t) (by simp) (by rintro rfl; exact covers) (fun pos => ?_) fun h rest last same => ?_
  · have hunk := Covers.ins (h := ⟨.ins, a0, a1, b, b + t⟩) covers rfl (by dsimp only; omega)
    rwa [show c + (b + t - b) = c + t by omega] at hunk
  · subst last
    cases covers with
    | @ins h l a c inner kind long =>
      have hunk := Covers.ins (h := { h with a1 := a1, b1 := h.b1 + t }) inner kind (by dsimp only; omega)
      rwa [show c + (h.b1 + t - h.b0) = c + (h.b1 - h.b0) + t by omega] at hunk
    | del inner kind long => exact absurd (kind.symm.trans same) (by decide)
    | eq inner kind pos' ha hb all => exact absurd (kind.symm.trans same) (by decide)

theorem scriptAdd_eq (all : ∀ i, i < t → A[a + i]? = B[b + i]?) :
    Covers A B (scriptAdd l .eq a (a + t) b (b + t)) (a + t) (b + t) c := by
  refine scriptAdd_cases (t := t) (by simp) (by rintro rfl; exact covers) (fun pos => ?_) fun h rest last same => ?_
  · exact Covers.eq covers rfl pos rfl rfl all
  · subst last
    cases covers with
    | @eq h l c t' inner kind pos' ha hb all' =>
      refine Covers.eq (t := t' + t) inner kind (by omega) (by dsimp only; omega)
        (by dsimp only; omega) fun i hi => ?_
      by_cases early : i < t'
      · exact all' i early
      · have later := all (i - t') (by omega)
        rwa [ha, hb, show h.a0 + t' + (i - t') = h.a0 + i by omega,
          show h.b0 + t' + (i - t') = h.b0 + i by omega] at later
    | del inner kind long => exact absurd (kind.symm.trans same) (by decide)
    | ins inner kind long => exact absurd (kind.symm.trans same) (by decide)

end Script

section Stack

variable {A B : List Nat}

/-- Items on top of the stack bring the script to a position, or the run fails on them; whatever
lies below, and within a number of rounds. -/
def Handled (A B : List Nat) (items : List Item) (bound : Nat) (w : SnakeWs) (out : List Hunk) (a b c : Nat) : Prop :=
  ∃ used, used ≤ bound ∧ ((∃ e, ∀ fuel rest, diffLoop A B (fuel + used) (items ++ rest) w out = some (.error e)) ∨
      ∃ w' out', Covers A B out' a b c ∧
        ∀ fuel rest, diffLoop A B (fuel + used) (items ++ rest) w out = diffLoop A B fuel rest w' out')

variable {items items' : List Item} {bound k : Nat} {w : SnakeWs} {out : List Hunk} {a b c a' b' c' : Nat}

theorem Handled.append (first : Handled A B items bound w out a b c)
    (second : ∀ w' out', Covers A B out' a b c → Handled A B items' k w' out' a' b' c') :
    Handled A B (items ++ items') (bound + k) w out a' b' c' := by
  obtain ⟨used, few, ⟨e, failed⟩ | ⟨w', out', covers, run⟩⟩ := first
  · refine ⟨used, by omega, .inl ⟨e, fun fuel rest => ?_⟩⟩
    rw [append_assoc]
    exact failed fuel _
  · obtain ⟨used', few', ⟨e, failed⟩ | ⟨w'', out'', covers', run'⟩⟩ := second w' out' covers
    · refine ⟨used + used', by omega, .inl ⟨e, fun fuel rest => ?_⟩⟩
      rw [append_assoc, show fuel + (used + used') = fuel + used' + used by omega, run]
      exact failed fuel rest
    · refine ⟨used + used', by omega, .inr ⟨w'', out'', covers', fun fuel rest => ?_⟩⟩
      rw [append_assoc, show fuel + (used + used') = fuel + used' + used by omega, run]
      exact run' fuel rest

theorem Handled.weaken (handled : Handled A B items bound w out a b c) (more : bound ≤ k) :
    Handled A B items k w out a b c := by
  obtain ⟨used, few, result⟩ := handled
  exact ⟨used, few.trans more, result⟩

theorem handled_nil (covers : Covers A B out a b c) : Handled A B [] 0 w out a b c :=
  ⟨0, le_rfl, .inr ⟨w, out, covers, fun _ _ => rfl⟩⟩

theorem handled_diff {it : Item} (kind : it.kind = .diff) {w' : SnakeWs} (step : diffItem A B it w = .ok (items, w'))
    (rest : Handled A B items bound w' out a b c) : Handled A B [it] (bound + 1) w out a b c := by
  have round : ∀ fuel st, diffLoop A B (fuel + 1) (it :: st) w out = diffLoop A B fuel (items ++ st) w' out := by
    intro fuel st
    rw [diffLoop, kind]
    rw [step]
  obtain ⟨used, few, ⟨e, failed⟩ | ⟨w'', out', covers, run⟩⟩ := rest
  · refine ⟨used + 1, by omega, .inl ⟨e, fun fuel rest => ?_⟩⟩
    rw [← Nat.add_assoc, singleton_append, round]
    exact failed fuel rest
  · refine ⟨used + 1, by omega, .inr ⟨w'', out', covers, fun fuel rest => ?_⟩⟩
    rw [← Nat.add_assoc, singleton_append, round]
    exact run fuel rest

theorem handled_fail {it : Item} (kind : it.kind = .diff) {e : Int} (step : diffItem A B it w = .error e) :
    Handled A B [it] 1 w out a b c := by
  refine ⟨1, le_rfl, .inl ⟨e, fun fuel rest => ?_⟩⟩
  rw [singleton_append, diffLoop, kind]
  rw [step]

theorem toUint32_cast {x : Nat} (small : x < 2 ^ 32) : toUint32 x = x := by
  rw [toUint32]
  omega

variable {t : Nat}

variable (covers : Covers A B out a b c)
include covers

theorem handled_eq (ha : a + t < 2 ^ 32) (hb : b + t < 2 ^ 32) (same : ∀ i, i < t → A[a + i]? = B[b + i]?) :
    Handled A B [⟨.eq, a, ↑(a + t), b, ↑(b + t)⟩] 1 w out (a + t) (b + t) c := by
  refine ⟨1, le_rfl, .inr ⟨w, _, scriptAdd_eq covers same, fun fuel rest => ?_⟩⟩
  rw [singleton_append, diffLoop]
  rw [toUint32_cast (by omega), toUint32_cast ha, toUint32_cast (by omega), toUint32_cast hb]

theorem handled_del (ha : a + t < 2 ^ 32) (b0 b1 : Int) :
    Handled A B [⟨.del, a, ↑(a + t), b0, b1⟩] 1 w out (a + t) b (c + t) := by
  refine ⟨1, le_rfl, .inr ⟨w, _, scriptAdd_del covers (toUint32 b0) (toUint32 b0), fun fuel rest => ?_⟩⟩
  rw [singleton_append, diffLoop]
  rw [toUint32_cast (by omega), toUint32_cast ha]

theorem handled_ins (hb : b + t < 2 ^ 32) (a0 a1 : Int) :
    Handled A B [⟨.ins, a0, a1, b, ↑(b + t)⟩] 1 w out a (b + t) (c + t) := by
  refine ⟨1, le_rfl, .inr ⟨w, _, scriptAdd_ins covers (toUint32 a0) (toUint32 a0), fun fuel rest => ?_⟩⟩
  rw [singleton_append, diffLoop]
  rw [toUint32_cast (by omega), toUint32_cast hb]

end Stack

section Items

variable {A B : List Nat} {a0 b0 n m : Nat} {w : SnakeWs} {out : List Hunk} {c : Nat}

def segment (a0 b0 n m : Nat) : Item := ⟨.diff, a0, ↑(a0 + n), b0, ↑(b0 + m)⟩

def rounds (size : Nat) : Nat := if size = 0 then 1 else 4 * size - 2

theorem slide_zero (same : Int → Int → Bool) (n m : Nat) : ∃ t : Nat, slide same n m n 0 0 = ((t : Int), (t : Int)) ∧
    (t ≤ n ∧ t ≤ m) ∧ (∀ i, i < t → cells same n m i i = true) ∧ cells same n m t t = false := by
  obtain ⟨t, run, along, shut⟩ := slide_spec same n m n 0 0 (by omega)
  simp only [Int.natCast_zero, Int.zero_add, Nat.zero_add] at run along shut
  refine ⟨t, run, ?_, along, shut⟩
  cases t with
  | zero => exact ⟨zero_le _, zero_le _⟩
  | succ t => exact cells_boxed _ n m _ _ (along t (lt_succ_self t))

theorem findToken_spec (S : List Nat) (token : Option Nat) (i len fuel : Nat) (enough : len ≤ fuel) :
    (findToken S token ↑(i + len) fuel i = -1 ∧ ∀ x, x < len → S[i + x]? ≠ token) ∨
      ∃ h, h < len ∧ findToken S token ↑(i + len) fuel i = ↑(i + h) ∧ S[i + h]? = token := by
  induction fuel generalizing i len with
  | zero => exact .inl ⟨rfl, fun x hx => by omega⟩
  | succ fuel ih =>
    rw [findToken]
    cases len with
    | zero => exact .inl ⟨if_neg (by omega), fun x hx => by omega⟩
    | succ len =>
      rw [if_pos (by omega)]
      split_ifs with here
      · exact .inr ⟨0, by omega, rfl, here⟩
      have rest := ih (i + 1) len (by omega)
      rw [show i + 1 + len = i + (len + 1) by omega, show ((i + 1 : Nat) : Int) = i + 1 by omega] at rest
      rcases rest with ⟨none, apart⟩ | ⟨h, hh, found, token_at⟩
      · refine .inl ⟨none, fun x hx => ?_⟩
        cases x with
        | zero => exact here
        | succ x =>
          rw [show i + (x + 1) = i + 1 + x by omega]
          exact apart x (by omega)
      · refine .inr ⟨h + 1, by omega, ?_, ?_⟩
        · rw [found, show i + 1 + h = i + (h + 1) by omega]
        · rw [show i + (h + 1) = i + 1 + h by omega]
          exact token_at

theorem handled_replace (covers : Covers A B out a0 b0 c) (ha : a0 + n < 2 ^ 32) (hb : b0 + m < 2 ^ 32) :
    Handled A B (diffReplace (segment a0 b0 n m)) 2 w out (a0 + n) (b0 + m) (c + n + m) :=
  (handled_del covers ha b0 b0).append fun _ _ covers' => handled_ins covers' hb a0 a0

theorem handled_single (covers : Covers A B out a0 b0 c) (ha : a0 + n < 2 ^ 32) (hb : b0 + m < 2 ^ 32) (hn : 0 < n)
    (hm : 0 < m)
    (single : n = 1 ∨ m = 1) :
    Handled A B (diffSingle A B (segment a0 b0 n m)) 3 w out (a0 + n) (b0 + m) (c + cost A B a0 b0 n m) := by
  have N := span_end a0 n
  have M := span_end b0 m
  rw [diffSingle, segment]
  rw [N, M, toNat_natCast, toNat_natCast, toNat_natCast, toNat_natCast]
  by_cases one : m = 1
  · have test : (m : Int) = 1 := by omega
    rw [if_pos test, if_pos test]
    subst one
    rcases findToken_spec A B[b0]? a0 n n le_rfl with ⟨none, apart⟩ | ⟨h, hh, found, token⟩
    · rw [none]
      have value : cost A B a0 b0 n 1 = n + 1 := cost_apart fun i j hi hj => by
        obtain rfl : j = 0 := by omega
        exact apart i hi
      rw [value, ← Nat.add_assoc]
      exact (handled_replace covers ha hb).weaken (by omega)
    · rw [found, cost_hit_first hh token, ← Nat.add_assoc, show a0 + n = a0 + h + 1 + (n - (h + 1)) by omega]
      refine (handled_del covers (by omega) b0 b0).append (k := 2) fun _ _ covers' => ?_
      refine (handled_eq (t := 1) covers' (by omega) (by omega) fun i hi => ?_).append (k := 1) fun _ _ covers'' => ?_
      · obtain rfl : i = 0 := by omega
        exact token
      · exact handled_del covers'' (by omega) _ _
  · have test : ¬(m : Int) = 1 := by omega
    rw [if_neg test, if_neg test]
    obtain rfl : n = 1 := by omega
    rcases findToken_spec B A[a0]? b0 m m le_rfl with ⟨none, apart⟩ | ⟨h, hh, found, token⟩
    · rw [none]
      have value : cost A B a0 b0 1 m = 1 + m := cost_apart fun i j hi hj => by
        obtain rfl : i = 0 := by omega
        exact (apart j hj).symm
      rw [value, ← Nat.add_assoc]
      exact (handled_replace covers ha hb).weaken (by omega)
    · rw [found, cost_hit_second hh token, ← Nat.add_assoc, show b0 + m = b0 + h + 1 + (m - (h + 1)) by omega]
      refine (handled_ins covers (by omega) a0 a0).append (k := 2) fun _ _ covers' => ?_
      refine (handled_eq covers' (by omega) (by omega) fun i hi => ?_).append (k := 1) fun _ _ covers'' => ?_
      · obtain rfl : i = 0 := by omega
        exact token.symm
      · exact handled_ins covers'' (by omega) _ _

def HandledBelow (A B : List Nat) (size : Nat) : Prop :=
  ∀ {n m a0 b0 : Nat} {w : SnakeWs} {out : List Hunk} {c : Nat}, n + m < size → a0 + n < 2 ^ 32 → b0 + m < 2 ^ 32 →
    Covers A B out a0 b0 c → Handled A B [segment a0 b0 n m] (rounds (n + m)) w out (a0 + n) (b0 + m)
      (c + cost A B a0 b0 n m)

/-- Segments cut at a snake. Each part has an edit, so that the cut is none of the degenerate ones. -/
theorem handled_split (below : HandledBelow A B (n + m)) (covers : Covers A B out a0 b0 c) (ha : a0 + n < 2 ^ 32)
    (hb : b0 + m < 2 ^ 32)
    (more : 2 ≤ cost A B a0 b0 n m) (step : diffItem A B (segment a0 b0 n m) w = diffSplit A B (segment a0 b0 n m) w) :
    Handled A B [segment a0 b0 n m] (rounds (n + m)) w out (a0 + n) (b0 + m) (c + cost A B a0 b0 n m) := by
  have found := middleSnake_spec A B a0 b0 n m w
  have size : rounds (n + m) = 4 * (n + m) - 2 := by
    have most : cost A B a0 b0 n m ≤ n + m := (edits_bounds _ n m).2.2
    rw [rounds, if_neg (by omega)]
  have fail : ∀ w' r, middleSnake A B a0 ↑(a0 + n) b0 ↑(b0 + m) w = (w', r) → (∀ e x y u v, r ≠ .found e x y u v) →
      Handled A B [segment a0 b0 n m] (rounds (n + m)) w out (a0 + n) (b0 + m) (c + cost A B a0 b0 n m) := by
    intro w' r ran other
    refine (handled_fail rfl (e := if w'.overflow then -2 else -1) ?_).weaken (by
      have most : cost A B a0 b0 n m ≤ n + m := (edits_bounds _ n m).2.2
      omega)
    rw [step, diffSplit, segment]
    rw [ran]
    cases r with
    | found e x y u v => exact absurd rfl (other e x y u v)
    | costly => rfl
    | missed => rfl
  generalize ran : middleSnake A B a0 ↑(a0 + n) b0 ↑(b0 + m) w = result at found fail
  obtain ⟨w', r⟩ := result
  cases r with
  | costly => exact fail w' _ rfl fun _ _ _ _ _ => SnakeEnd.noConfusion
  | missed => exact fail w' _ rfl fun _ _ _ _ _ => SnakeEnd.noConfusion
  | found e x y u v =>
    obtain ⟨p, q, t, rfl, rfl, rfl, rfl, middle⟩ := found
    obtain ⟨hp, hq⟩ := middle.inside
    have total := middle.total
    have halves := middle.halves
    rw [edits_ahead (x := p) (y := q) (by omega) (by omega), edits_back (by omega) (by omega),
      show a0 + (n - (n - (p + t))) = a0 + p + t by omega,
      show b0 + (m - (m - (q + t))) = b0 + q + t by omega] at total halves
    have here : cost A B a0 b0 p q ≤ p + q := (edits_bounds _ p q).2.2
    have there : cost A B (a0 + p + t) (b0 + q + t) (n - (p + t)) (m - (q + t)) ≤ n - (p + t) + (m - (q + t)) :=
      (edits_bounds _ _ _).2.2
    have sum : cost A B a0 b0 p q + cost A B (a0 + p + t) (b0 + q + t) (n - (p + t)) (m - (q + t)) =
      cost A B a0 b0 n m := total
    have cut : diffItem A B (segment a0 b0 n m) w = .ok ([segment a0 b0 p q,
        ⟨.eq, ↑(a0 + p), ↑(a0 + p + t), ↑(b0 + q), ↑(b0 + q + t)⟩,
        segment (a0 + p + t) (b0 + q + t) (n - (p + t)) (m - (q + t))], w') := by
      rw [step, diffSplit, segment]
      rw [ran]
      dsimp only
      rw [if_neg (by omega), segment, segment, show a0 + p + t + (n - (p + t)) = a0 + n by omega,
        show b0 + q + t + (m - (q + t)) = b0 + m by omega]
    rw [size, show 4 * (n + m) - 2 = 4 * (n + m) - 3 + 1 by omega]
    refine handled_diff rfl cut ?_
    have first := below (n := p) (m := q) (w := w') (by omega) (by omega) (by omega) covers
    have whole := first.append fun _ _ covers' =>
      (handled_eq (t := t) covers' (by omega) (by omega) fun i hi => by
        have same := (ahead_iff.mp (middle.along i hi)).2.2
        rwa [← Nat.add_assoc, ← Nat.add_assoc] at same).append fun _ _ covers'' =>
        below (n := n - (p + t)) (m := m - (q + t)) (by omega) (by omega) (by omega) covers''
    rw [Nat.add_assoc c, sum, show a0 + p + t + (n - (p + t)) = a0 + n by omega,
      show b0 + q + t + (m - (q + t)) = b0 + m by omega] at whole
    refine whole.weaken ?_
    rw [rounds, rounds, if_neg (by omega), if_neg (by omega)]
    omega

theorem handled_apart (below : HandledBelow A B (n + m)) (covers : Covers A B out a0 b0 c) (ha : a0 + n < 2 ^ 32)
    (hb : b0 + m < 2 ^ 32)
    (some : ¬(n = 0 ∧ m = 0)) (first : 0 < n → 0 < m → A[a0]? ≠ B[b0]?)
    (last : 0 < n → 0 < m → A[a0 + (n - 1)]? ≠ B[b0 + (m - 1)]?)
    (step : diffItem A B (segment a0 b0 n m) w = diffApart A B (segment a0 b0 n m) w) :
    Handled A B [segment a0 b0 n m] (rounds (n + m)) w out (a0 + n) (b0 + m) (c + cost A B a0 b0 n m) := by
  have N := span_end a0 n
  have M := span_end b0 m
  have size : rounds (n + m) = 4 * (n + m) - 3 + 1 := by
    rw [rounds, if_neg (by omega)]
    omega
  rw [diffApart, segment] at step
  rw [N, M] at step
  by_cases left : n = 0
  · subst left
    rw [if_pos (by omega)] at step
    rw [cost_left, size]
    exact handled_diff rfl step ((handled_ins covers hb _ _).weaken (by omega))
  rw [if_neg (by omega)] at step
  by_cases right : m = 0
  · subst right
    rw [if_pos (by omega)] at step
    rw [cost_right, size]
    exact handled_diff rfl step ((handled_del covers ha _ _).weaken (by omega))
  rw [if_neg (by omega)] at step
  by_cases single : n = 1 ∨ m = 1
  · rw [if_pos (by omega)] at step
    rw [size]
    exact handled_diff rfl step ((handled_single covers ha hb (by omega) (by omega) single).weaken (by omega))
  rw [if_neg (by omega)] at step
  exact handled_split below covers ha hb
    (two_le_cost (by omega) (by omega) (first (by omega) (by omega)) (last (by omega) (by omega))) step

/-- Two segments: the script goes over them with the fewest edits. -/
theorem handled_segment (A B : List Nat) (size : Nat) : HandledBelow A B size := by
  induction size with
  | zero => exact fun small => absurd small (not_lt_zero _)
  | succ size ih =>
    intro n m a0 b0 w out c small ha hb covers
    by_cases less : n + m < size
    · exact ih less ha hb covers
    obtain rfl : size = n + m := by omega
    have N := span_end a0 n
    have M := span_end b0 m
    by_cases empty : n = 0 ∧ m = 0
    · obtain ⟨rfl, rfl⟩ := empty
      have step : diffItem A B (segment a0 b0 0 0) w = .ok ([], w) := by
        rw [segment]
        exact if_pos (by dsimp only; omega)
      exact handled_diff rfl step (by rw [cost_left]; exact handled_nil covers)
    obtain ⟨p, run, hp, along, shut⟩ := slide_zero (sameAhead A B a0 b0) n m
    obtain ⟨s, run', hs, along', shut'⟩ := slide_zero (sameBack A B ↑(a0 + n) ↑(b0 + m)) (n - p) (m - p)
    have ends : cells (sameBack A B ↑(a0 + n) ↑(b0 + m)) (n - p) (m - p) =
        back A B (a0 + p) (b0 + p) (n - p) (m - p) := by
      rw [back, show a0 + p + (n - p) = a0 + n by omega, show b0 + p + (m - p) = b0 + m by omega]
    rw [ends] at along' shut'
    have step : diffItem A B (segment a0 b0 n m) w =
        if (p : Int) ≠ 0 ∨ (s : Int) ≠ 0 then
          .ok ([⟨.eq, a0, a0 + p, b0, b0 + p⟩,
            ⟨.diff, a0 + p, ((a0 + n : Nat) : Int) - s, b0 + p, ((b0 + m : Nat) : Int) - s⟩,
            ⟨.eq, ((a0 + n : Nat) : Int) - s, ↑(a0 + n), ((b0 + m : Nat) : Int) - s, ↑(b0 + m)⟩], w)
        else diffApart A B (segment a0 b0 n m) w := by
      rw [diffItem, segment]
      rw [N, M, if_neg (by omega), toNat_natCast, run]
      dsimp only
      rw [show n - p = ((n - p : Nat) : Int) by omega, show m - p = ((m - p : Nat) : Int) by omega, toNat_natCast, run']
    by_cases strip : p = 0 ∧ s = 0
    · obtain ⟨rfl, rfl⟩ := strip
      refine handled_apart ih covers ha hb empty (fun hn hm same => ?_) (fun hn hm same => ?_) step
      · have free : ahead A B a0 b0 n m 0 0 = true := ahead_iff.mpr ⟨hn, hm, same⟩
        exact absurd (shut.symm.trans free) (by decide)
      · have free : back A B a0 b0 n m 0 0 = true := (back_iff hn hm).mpr same
        exact absurd (shut'.symm.trans free) (by decide)
    · rw [if_pos (by omega)] at step
      have prefixes : ∀ i, i < p → A[a0 + i]? = B[b0 + i]? := fun i hi => (ahead_iff.mp (along i hi)).2.2
      have suffixes : ∀ i, i < s → A[a0 + p + (n - p - s) + i]? = B[b0 + p + (m - p - s) + i]? := fun i hi => by
        have same := (back_iff (by omega) (by omega)).mp (along' (s - 1 - i) (by omega))
        rwa [show a0 + p + (n - p - 1 - (s - 1 - i)) = a0 + p + (n - p - s) + i by omega,
          show b0 + p + (m - p - 1 - (s - 1 - i)) = b0 + p + (m - p - s) + i by omega] at same
      have value : cost A B a0 b0 n m = cost A B (a0 + p) (b0 + p) (n - p - s) (m - p - s) := by
        have outer := cost_prefix (n := n - p) (m := m - p) prefixes
        have inner := cost_suffix suffixes
        rw [show n - p + p = n by omega, show m - p + p = m by omega] at outer
        rw [show n - p - s + s = n - p by omega, show m - p - s + s = m - p by omega] at inner
        exact outer.trans inner
      rw [value]
      have first := handled_eq (w := w) covers (by omega) (by omega) prefixes
      have whole := first.append fun _ _ covers' =>
        (ih (by omega) (by omega) (by omega) covers').append fun _ _ covers'' =>
          handled_eq covers'' (by omega) (by omega) suffixes
      rw [show a0 + p + (n - p - s) + s = a0 + n by omega, show b0 + p + (m - p - s) + s = b0 + m by omega] at whole
      rw [show ((a0 + n : Nat) : Int) - s = ((a0 + p + (n - p - s) : Nat) : Int) by omega,
        show ((b0 + m : Nat) : Int) - s = ((b0 + p + (m - p - s) : Nat) : Int) by omega] at step
      refine (handled_diff rfl step whole).weaken ?_
      rw [rounds, rounds, if_neg (show ¬n + m = 0 by omega)]
      split <;> omega

end Items

section Result

theorem toInt32_small {x : Nat} (small : x ≤ diffMaxTokens) : toInt32 x = x := by
  rw [diffMaxTokens] at small
  exact bmod_eq_of_le (by omega) (by omega)

/-- The script of a run on two token sequences: its hunks lead through both of them, with as
many edits as a longest common subsequence leaves tokens. -/
def Exact (A B : List Nat) (hunks : List Hunk) : Prop :=
  ∃ edits L, Covers A B hunks A.length B.length edits ∧ IsGreatest (Common A B) L ∧ edits + 2 * L = A.length + B.length

/-- The run ends, and where it returns 0 its script is exact and minimal. -/
theorem diff_run_exact (A B : Tokens) (w : SnakeWs) :
    ∃ r, diffRun A B w [] = some r ∧ ∀ hunks, r = .ok hunks → Exact A.ids B.ids hunks := by
  have fa := A.few
  have fb := B.few
  have limit : diffMaxTokens < 2 ^ 32 := by decide
  have handled : Handled A.ids B.ids [segment 0 0 A.ids.length B.ids.length] (rounds (A.ids.length + B.ids.length)) w []
      (0 + A.ids.length) (0 + B.ids.length) (0 + cost A.ids B.ids 0 0 A.ids.length B.ids.length) :=
    handled_segment A.ids B.ids (A.ids.length + B.ids.length + 1) (by omega) (by omega) (by omega) .nil
  obtain ⟨used, few, result⟩ := handled
  have bound : used ≤ 4 * (A.ids.length + B.ids.length) + 1 := by
    rw [rounds] at few
    split at few <;> omega
  have run : diffRun A B w [] = diffLoop A.ids B.ids (4 * (A.ids.length + B.ids.length) + 1 - used + used)
    ([segment 0 0 A.ids.length B.ids.length] ++ []) w [] := by
    rw [diffRun, Nat.sub_add_cancel bound, segment, toInt32_small fa, toInt32_small fb, Nat.zero_add, Nat.zero_add]
    rfl
  rcases result with ⟨e, failed⟩ | ⟨w', out', covers, ran⟩
  · rw [failed] at run
    exact ⟨_, run, fun hunks ok => nomatch ok⟩
  · rw [ran, diffLoop] at run
    refine ⟨_, run, fun hunks ok => ?_⟩
    obtain rfl := Except.ok.inj ok
    obtain ⟨L, most, total⟩ := exists_lcs A.ids B.ids
    rw [Nat.zero_add, Nat.zero_add, Nat.zero_add] at covers
    have fewest : cost A.ids B.ids 0 0 A.ids.length B.ids.length =
      edits (agree A.ids B.ids) A.ids.length B.ids.length := by
      refine edits_congr fun i j hi hj => ?_
      rw [Bool.eq_iff_iff, ahead_iff, agree, decide_eq_true_eq, Nat.zero_add, Nat.zero_add]
      exact ⟨fun free => free.2.2, fun same => ⟨hi, hj, same⟩⟩
    refine ⟨_, L, covers, most, ?_⟩
    rw [fewest]
    exact total

example : diffRun ⟨[1, 2, 3, 1], by decide⟩ ⟨[3, 2, 1, 2], by decide⟩ ⟨fun _ => 0, fun _ => 0, 100, false⟩ [] =
    some (.ok [⟨.ins, 4, 4, 3, 4⟩, ⟨.eq, 3, 4, 2, 3⟩, ⟨.ins, 3, 3, 1, 2⟩, ⟨.eq, 2, 3, 0, 1⟩, ⟨.del, 0, 2, 0, 0⟩]) := by
  rfl

end Result

end DynaJS.Diff
