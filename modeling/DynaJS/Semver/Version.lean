import Mathlib.Order.Compare

/-! Versions of `dyna-semver.c` and their order. -/
namespace DynaJS.Semver

open Std List

attribute [local instance] lexOrd

structure Id where
  s : List UInt8
  numeric : Bool
deriving DecidableEq, Repr

structure SemVer where
  major : Nat
  minor : Nat
  patch : Nat
  pre : List Id
  build : List Id
deriving DecidableEq, Repr

variable (a b : List UInt8)

def memcmp : Ordering := compare (a.take (min a.length b.length)) (b.take (min a.length b.length))

def stripZeros : List UInt8 → List UInt8
  | c :: d :: l => if c = 48 then stripZeros (d :: l) else c :: d :: l
  | l => l

def svCmpNum : Ordering :=
  let a := stripZeros a
  let b := stripZeros b
  if a.length ≠ b.length then if a.length < b.length then .lt else .gt else memcmp a b

def svCmpId (a b : Id) : Ordering :=
  if a.numeric && b.numeric then svCmpNum a.s b.s
  else if a.numeric then .lt
  else if b.numeric then .gt
  else if memcmp a.s b.s ≠ .eq then memcmp a.s b.s
  else if a.s.length ≠ b.s.length then if a.s.length < b.s.length then .lt else .gt
  else .eq

def svCmpPre : List Id → List Id → Ordering
  | [], [] => .eq
  | [], _ :: _ => .lt
  | _ :: _, [] => .gt
  | x :: a, y :: b => if svCmpId x y ≠ .eq then svCmpId x y else svCmpPre a b

def semverCompare (a b : SemVer) : Ordering :=
  if a.major ≠ b.major then if a.major < b.major then .lt else .gt
  else if a.minor ≠ b.minor then if a.minor < b.minor then .lt else .gt
  else if a.patch ≠ b.patch then if a.patch < b.patch then .lt else .gt
  else if a.pre.length = 0 ∧ b.pre.length = 0 then .eq
  else if a.pre.length = 0 then .gt
  else if b.pre.length = 0 then .lt
  else svCmpPre a.pre b.pre

/-! ### The order as a key -/

/-- Numbers come before words, and go by length and then by bytes. -/
def Id.key (i : Id) : Nat × Nat × List UInt8 :=
  if i.numeric then (0, (stripZeros i.s).length, stripZeros i.s) else (1, 0, i.s)

/-- A release comes after its prereleases. -/
def SemVer.key (v : SemVer) : Nat × Nat × Nat × Nat × List (Nat × Nat × List UInt8) :=
  (v.major, v.minor, v.patch, if v.pre = [] then 1 else 0, v.pre.map Id.key)

theorem compare_ite (a b : Nat) (o : Ordering) :
    (compare a b).then o = if a ≠ b then if a < b then .lt else .gt else o := by
  rcases Nat.lt_trichotomy a b with less | same | more
  · rw [Nat.compare_eq_lt.mpr less, if_pos (by omega), if_pos less]
    rfl
  · rw [Nat.compare_eq_eq.mpr same, if_neg (by omega)]
    rfl
  · rw [Nat.compare_eq_gt.mpr more, if_pos (by omega), if_neg (by omega)]
    rfl

theorem compare_pair {α β : Type} [Ord α] [Ord β] (a c : α) (b d : β) :
    compare (a, b) (c, d) = (compare a c).then (compare b d) := rfl

theorem memcmp_length : (memcmp a b).then (compare a.length b.length) = compare a b := by
  induction a generalizing b with
  | nil => cases b <;> rfl
  | cons x a ih =>
    cases b with
    | nil => rfl
    | cons y b =>
      have head : memcmp (x :: a) (y :: b) = (compare x y).then (memcmp a b) := by
        rw [memcmp, length_cons, length_cons, Nat.add_min_add_right, take_succ_cons, take_succ_cons,
          List.compare_cons_cons]
        rfl
      have lengths : compare (x :: a).length (y :: b).length = compare a.length b.length := by
        rw [Nat.compare_eq_ite_lt, Nat.compare_eq_ite_lt]
        simp
      rw [head, Ordering.then_assoc, lengths, ih, List.compare_cons_cons]

theorem svCmpId_key (a b : Id) : svCmpId a b = compare a.key b.key := by
  unfold svCmpId Id.key
  cases a.numeric with
  | true =>
    cases b.numeric with
    | true =>
      simp only [Bool.and_self, if_true, compare_pair, compare_ite]
      rw [svCmpNum]
      by_cases same : (stripZeros a.s).length = (stripZeros b.s).length
      · rw [if_neg (not_not.mpr same), if_neg (not_not.mpr same)]
        rw [← memcmp_length, Nat.compare_eq_eq.mpr same]
        cases memcmp (stripZeros a.s) (stripZeros b.s) <;> rfl
      · rw [if_pos same, if_neg (not_not.mpr rfl), if_pos same]
    | false => rfl
  | false =>
    cases b.numeric with
    | true => rfl
    | false =>
      simp only [Bool.and_self, Bool.false_eq_true, if_false, compare_pair]
      rw [← memcmp_length]
      cases memcmp a.s b.s with
      | lt => rfl
      | gt => rfl
      | eq =>
        have := compare_ite a.s.length b.s.length .eq
        rw [← this]
        cases compare a.s.length b.s.length <;> rfl

theorem svCmpPre_key (a b : List Id) : svCmpPre a b = compare (a.map Id.key) (b.map Id.key) := by
  induction a generalizing b with
  | nil => cases b <;> rfl
  | cons x a ih =>
    cases b with
    | nil => rfl
    | cons y b =>
      rw [svCmpPre, map_cons, map_cons, List.compare_cons_cons, ← svCmpId_key, ih]
      cases svCmpId x y <;> rfl

theorem semverCompare_key (a b : SemVer) : semverCompare a b = compare a.key b.key := by
  unfold semverCompare SemVer.key
  simp only [compare_pair, compare_ite, length_eq_zero_iff]
  congr 3
  cases ha : a.pre with
  | nil => cases hb : b.pre <;> rfl
  | cons x l =>
    cases hb : b.pre with
    | nil => rfl
    | cons y k =>
      rw [svCmpPre_key]
      rfl

instance : TransCmp semverCompare :=
  have same : semverCompare = compareOn SemVer.key := funext fun a => funext fun b => semverCompare_key a b
  same ▸ inferInstanceAs (TransCmp (compareOn SemVer.key))

/-- Precedence is a total preorder, and versions tie exactly if they differ at most in their build
metadata and in zeros in front of numbers. -/
theorem semver_precedence_total (a b c : SemVer) :
    semverCompare b a = (semverCompare a b).swap ∧
    ((semverCompare a b).isLE → (semverCompare b c).isLE → (semverCompare a c).isLE) ∧
    (semverCompare a b = .eq ↔
      (a.major, a.minor, a.patch) = (b.major, b.minor, b.patch) ∧ a.pre.map Id.key = b.pre.map Id.key) := by
  refine ⟨OrientedCmp.eq_swap, TransCmp.isLE_trans, ?_⟩
  rw [semverCompare_key, LawfulEqCmp.compare_eq_iff_eq]
  simp only [SemVer.key, Prod.mk.injEq]
  constructor
  · rintro ⟨major, minor, patch, -, pre⟩
    exact ⟨⟨major, minor, patch⟩, pre⟩
  · rintro ⟨⟨major, minor, patch⟩, pre⟩
    refine ⟨major, minor, patch, if_congr ?_ rfl rfl, pre⟩
    rw [← map_eq_nil_iff, pre, map_eq_nil_iff]

end DynaJS.Semver
