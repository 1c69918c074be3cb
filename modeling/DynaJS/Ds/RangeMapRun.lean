import DynaJS.Ds.RangeMapCarve

/-! Whole runs of the range map against a partial function on points, with a book of
the references its callbacks make and release. -/
namespace DynaJS.Ds

open Pieces List

variable {α V : Type} [LinearOrder α]

/-- A stored cell: the value and the number of the reference that keeps it alive. -/
structure Cell (V : Type) where
  val : V
  ref : Nat
deriving DecidableEq

/-- The book of the callbacks. References are numbered as they are made, one for each
value handed to the map and one for each copy; releases are listed in order. -/
structure Ledger where
  handed : Nat
  dups : Nat
  released : List Nat

def Ledger.made (b : Ledger) : Nat := b.handed + b.dups

/-- `ds2_dup_cell` and `ds2_free_cell`, written into the book. -/
def ledger : Callbacks Ledger (Cell V) where
  dup b c := ({ b with dups := b.dups + 1 }, ⟨c.val, b.made⟩)
  fn := some fun b c => { b with released := b.released ++ [c.ref] }

theorem ledger_dup_made (b : Ledger) (c : Cell V) : (ledger.dup b c).1.made = b.made + 1 := rfl

structure RmapState (α V : Type) where
  map : Rmap α (Cell V)
  book : Ledger

inductive RmapOp (α V : Type) where
  | put (lo hi : α) (v : V) (ok ok' : Bool)
  | remove (lo hi : α) (ok : Bool)

/-- One call, the way `ds2_rmap_put` and `ds2_rmap_remove` make it: an empty interval
hands nothing over, and a put that fails gives its reference back. -/
def RmapOp.exec (s : RmapState α V) : RmapOp α V → Int × RmapState α V
  | .put lo hi v ok ok' =>
    if lo < hi then
      let r := rmapPut ledger s.map lo hi ⟨v, s.book.made⟩ { s.book with handed := s.book.handed + 1 } ok ok'
      if r.1 < 0 then (-1, ⟨r.2.1, ledger.release r.2.2 (⟨v, s.book.made⟩ : Cell V)⟩)
      else (r.1, ⟨r.2.1, r.2.2⟩)
    else (0, s)
  | .remove lo hi ok =>
    let r := rmapRemove ledger s.map lo hi s.book ok
    (r.1, ⟨r.2.1, r.2.2⟩)

def RmapOp.granted : RmapOp α V → Bool
  | .put _ _ _ ok ok' => ok && ok'
  | .remove _ _ ok => ok

def RmapOp.covers (x : α) : RmapOp α V → Bool
  | .put lo hi _ _ _ => lo ≤ x ∧ x < hi
  | .remove lo hi _ => lo ≤ x ∧ x < hi

def RmapOp.value : RmapOp α V → Option V
  | .put _ _ v _ _ => some v
  | .remove _ _ _ => none

variable (memory : Nat → Piece α (Cell V)) (ops : List (RmapOp α V))

def rmapRun : RmapState α V := ops.foldl (fun s op => (op.exec s).2) ⟨rmapNew memory, ⟨0, 0, []⟩⟩

def AllReturnedZero : Prop := ∀ before op after, ops = before ++ op :: after → (op.exec (rmapRun memory before)).1 = 0

def lastWrite (x : α) : Option V := (ops.reverse.find? (·.covers x)).bind RmapOp.value

theorem rmapRun_append (op : RmapOp α V) : rmapRun memory (ops ++ [op]) = (op.exec (rmapRun memory ops)).2 := by
  simp [rmapRun]

theorem lastWrite_append (op : RmapOp α V) (x : α) :
    lastWrite (ops ++ [op]) x = if op.covers x then op.value else lastWrite ops x := by
  simp only [lastWrite, reverse_append, reverse_singleton, singleton_append, List.find?_cons]
  cases op.covers x <;> simp

def refs (l : List (Piece α (Cell V))) : List Nat := (vals l).map (·.ref)

/-- Every reference ever made is held exactly once or was released exactly once. -/
def Settled (held : List Nat) (b : Ledger) : Prop := (held ++ b.released).Perm (List.range b.made)

theorem foldl_release (cells : List (Cell V)) (b : Ledger) :
    cells.foldl ledger.release b = { b with released := b.released ++ cells.map (·.ref) } := by
  induction cells generalizing b with
  | nil => simp
  | cons c cells ih =>
    rw [foldl_cons, ih]
    simp [Callbacks.release, ledger]

variable {held : List Nat} {b : Ledger} {lo hi : α}

theorem settled_release {gone : List Nat} (bal : Settled (held ++ gone) b) :
    Settled held { b with released := b.released ++ gone } := by
  refine List.Perm.trans ?_ bal
  rw [append_assoc]
  exact List.Perm.append_left _ perm_append_comm

theorem settled_new {b' : Ledger} (bal : Settled held b)
    (more : b'.made = b.made + 1) (same : b'.released = b.released) :
    Settled (b.made :: held) b' := by
  rw [Settled, more, same, range_succ]
  exact (List.Perm.cons _ bal).trans (perm_append_singleton _ _).symm

theorem Settled.perm {held' : List Nat} (bal : Settled held b) (perm : held.Perm held') : Settled held' b :=
  (perm.symm.append_right _).trans bal

/-- Carving keeps the book settled, whatever else is held meanwhile. -/
theorem carved_settled {m : Rmap α (Cell V)}
    {r : Carve α (Cell V) Ledger} {pre post : List (Piece α (Cell V))} (extra : List Nat)
    (carved : Carved Cell.val ledger m lo hi b r pre post)
    (bal : Settled (extra ++ refs m.toList) b) :
    Settled (extra ++ refs (pre ++ post)) r.ud := by
  rcases carved.owned with ⟨gone, ud, perm⟩ | ⟨c, _, ud, perm⟩
  · rw [ud, foldl_release]
    apply settled_release
    refine bal.perm ?_
    rw [append_assoc]
    refine List.Perm.append_left _ ?_
    simpa [refs] using perm.map (·.ref)
  · rw [ud]
    refine (settled_new bal (ledger_dup_made b c) rfl).perm ?_
    refine perm_middle.symm.trans (List.Perm.append_left _ ?_)
    simpa [refs, ledger] using (perm.map (·.ref)).symm

/-- A copy that is released again leaves the book settled. -/
theorem settled_copy (bal : Settled held b) (c : Cell V) :
    Settled held (ledger.release (ledger.dup b c).1 (ledger.dup b c).2) := by
  have copied := (settled_new bal (ledger_dup_made b c) rfl).perm (perm_append_singleton _ _).symm
  simpa [Callbacks.release, ledger] using settled_release copied

variable {s : RmapState α V}

section

variable (v : s.map.Valid)
include v

/-- What a put with a proper interval can do: carve and write, carve and find no room
for its own span, or fail before anything is carved. -/
theorem rmapPut_cases (h : lo < hi) (w : V) (ok ok' : Bool) :
    let b := { s.book with handed := s.book.handed + 1 }
    let span : Piece α (Cell V) := ⟨lo, hi, ⟨w, s.book.made⟩⟩
    let c := rmapCarve ledger s.map lo hi b ok
    let t := c.map.splice rmapSpanSize c.pos 0 [span] ok'
    let r := (RmapOp.put lo hi w ok ok').exec s
    (∃ pre post, Carved Cell.val ledger s.map lo hi b c pre post ∧ t.2.Wf ∧
      ((t.1 = 0 ∧ r = (0, ⟨t.2, c.ud⟩) ∧ t.2.toList = pre ++ span :: post) ∨
        (t.1 = -1 ∧ r = (-1, ⟨t.2, ledger.release c.ud span.val⟩) ∧ t.2.toList = pre ++ post))) ∨
    (c.rc = -1 ∧ r = (-1, ⟨c.map, ledger.release c.ud span.val⟩) ∧ c.map.Wf ∧ c.map.toList = s.map.toList ∧
      (∃ d : Cell V, c.ud = ledger.release (ledger.dup b d).1 (ledger.dup b d).2) ∧
      (ok = false ∨ 2 ^ 31 ≤ s.map.len)) := by
  simp only [RmapOp.exec, if_pos h, rmapPut, not_not.mpr h, if_false]
  generalize ({ s.book with handed := s.book.handed + 1 } : Ledger) = b
  have spec := rmapCarve_spec (f := Cell.val) ledger (fun _ _ => rfl) v h b ok
  generalize rmapCarve ledger s.map lo hi b ok = c at *
  rcases spec with ⟨pre, post, carved⟩ | ⟨rc, wf, same, ud, refused, -⟩
  · refine .inl ⟨pre, post, carved, ?_⟩
    have cut : c.pos + 0 ≤ c.map.len := by
      rw [← c.map.toList_length, carved.list, carved.pos]
      simp
    have done := c.map.splice_spec carved.wf c.pos 0 cut rmapSpanSize [⟨lo, hi, ⟨w, s.book.made⟩⟩] ok'
    refine ⟨done.1, ?_⟩
    rcases done.2 with ⟨rc, list⟩ | ⟨rc, list⟩
    · refine .inl ⟨rc, by simp [carved.rc, rc], ?_⟩
      rw [list, carved.list, carved.pos]
      simp
    · exact .inr ⟨rc, by simp [carved.rc, rc], list.trans carved.list⟩
  · exact .inr ⟨rc, by simp [rc], wf, same, ud, refused⟩

variable (bal : Settled (refs s.map.toList) s.book)
include bal

/-- The three outcomes of a put with a proper interval. The last one is the carving
left behind by a put whose new span found no room. -/
theorem rmapPut_spec (h : lo < hi) (w : V) (ok ok' : Bool) (r : Int × RmapState α V)
    (eq : r = (RmapOp.put lo hi w ok ok').exec s) :
    r.2.map.Valid ∧ Settled (refs r.2.map.toList) r.2.book ∧
    ((r.1 = 0 ∧ ∀ x u, Gives Cell.val r.2.map.toList x u ↔
        if lo ≤ x ∧ x < hi then w = u else Gives Cell.val s.map.toList x u) ∨
      (r.1 = -1 ∧ r.2.map.toList = s.map.toList ∧ (ok = false ∨ 2 ^ 31 ≤ s.map.len)) ∨
      (r.1 = -1 ∧ (∀ x u, Gives Cell.val r.2.map.toList x u ↔ ¬ (lo ≤ x ∧ x < hi) ∧ Gives Cell.val s.map.toList x u) ∧
        (ok' = false ∨ 2 ^ 31 ≤ s.map.len + 1))) := by
  have owed : Settled ([s.book.made] ++ refs s.map.toList) { s.book with handed := s.book.handed + 1 } :=
    settled_new bal (by simp [Ledger.made]; omega) rfl
  rcases rmapPut_cases v h w ok ok' with
    ⟨pre, post, carved, wf, ⟨_, done, list⟩ | ⟨rc, done, list⟩⟩ | ⟨_, done, wf, same, ⟨d, ud⟩, refused⟩
  · have bal' := carved_settled [s.book.made] carved owed
    rw [done] at eq
    subst eq
    simp only [list]
    refine ⟨⟨wf, ?_⟩, ?_, .inl ⟨trivial, gives_written carved.clear carved.agree⟩⟩
    · rw [list]
      exact carved.clear.ordered.insert h carved.clear.before carved.clear.behind
    · refine bal'.perm ?_
      simp only [refs, vals, map_append, map_cons, singleton_append]
      exact perm_middle.symm
  · have bal' := carved_settled [s.book.made] carved owed
    rw [done] at eq
    subst eq
    simp only [list]
    refine ⟨⟨wf, ?_⟩, settled_release (bal'.perm perm_append_comm),
      .inr (.inr ⟨trivial, gives_carved carved.clear carved.agree, ?_⟩)⟩
    · rw [list]
      exact carved.clear.ordered
    · have total : (pre ++ post).length ≤ s.map.toList.length + 1 := by
        rcases carved.owned with ⟨_, _, perm⟩ | ⟨_, _, _, perm⟩
        all_goals
          have := perm.length_eq
          simp only [vals, length_map, length_append, length_cons] at this ⊢
          omega
      rw [← carved.list, Gapvec.toList_length, Gapvec.toList_length] at total
      refine ((Gapvec.splice_refused_iff carved.wf (by decide) (by decide)).mp rc).2.imp id fun large => ?_
      rw [length_singleton] at large
      omega
  · rw [done] at eq
    subst eq
    simp only [same, ud]
    refine ⟨⟨wf, ?_⟩, ?_, .inr (.inl ⟨trivial, trivial, refused⟩)⟩
    · rw [same]
      exact v.ordered
    · -- The copy and the handed reference are both given back.
      exact settled_release ((settled_copy owed d).perm perm_append_comm)

theorem rmapRemove_spec (h : lo < hi)
    (ok : Bool) (r : Int × RmapState α V) (eq : r = (RmapOp.remove lo hi ok).exec s) :
    r.2.map.Valid ∧ Settled (refs r.2.map.toList) r.2.book ∧
    ((r.1 = 0 ∧ ∀ x u, Gives Cell.val r.2.map.toList x u ↔ ¬ (lo ≤ x ∧ x < hi) ∧ Gives Cell.val s.map.toList x u) ∨
      (r.1 = -1 ∧ r.2.map.toList = s.map.toList ∧ (ok = false ∨ 2 ^ 31 ≤ s.map.len))) := by
  simp only [RmapOp.exec, rmapRemove, not_not.mpr h, if_false] at eq
  have spec := rmapCarve_spec (f := Cell.val) ledger (fun _ _ => rfl) v h s.book ok
  generalize rmapCarve ledger s.map lo hi s.book ok = c at *
  subst eq
  rcases spec with ⟨pre, post, carved⟩ | ⟨rc, wf, same, ⟨d, ud⟩, refused, -⟩
  · have bal' := carved_settled [] carved bal
    simp only [carved.list]
    refine ⟨⟨carved.wf, ?_⟩, bal', .inl ⟨carved.rc, gives_carved carved.clear carved.agree⟩⟩
    rw [carved.list]
    exact carved.clear.ordered
  · simp only [same, ud]
    refine ⟨⟨wf, ?_⟩, settled_copy bal d, .inr ⟨rc, trivial, refused⟩⟩
    rw [same]
    exact v.ordered

/-- What one call does to a valid state: order and balance stay, and unless it returns
-1 the points of its interval take its value. -/
theorem rmapOp_step (op : RmapOp α V) :
    (op.exec s).2.map.Valid ∧ Settled (refs (op.exec s).2.map.toList) (op.exec s).2.book ∧
    (((op.exec s).1 = 0 ∧ ∀ x u, Gives Cell.val (op.exec s).2.map.toList x u ↔
        if op.covers x then op.value = some u else Gives Cell.val s.map.toList x u) ∨
      ((op.exec s).1 = -1 ∧ (op.granted = false ∨ 2 ^ 31 ≤ s.map.len + 1))) := by
  cases op with
  | put lo hi w ok ok' =>
    by_cases h : lo < hi
    · obtain ⟨valid, bal', outcome⟩ := rmapPut_spec v bal h w ok ok' _ rfl
      refine ⟨valid, bal', ?_⟩
      rcases outcome with ⟨rc, gives⟩ | ⟨rc, _, refused⟩ | ⟨rc, _, refused⟩
      · refine .inl ⟨rc, fun x u => ?_⟩
        simpa [RmapOp.covers, RmapOp.value] using gives x u
      · refine .inr ⟨rc, refused.imp (fun f => by simp [RmapOp.granted, f]) fun l => by omega⟩
      · refine .inr ⟨rc, refused.imp (fun f => by simp [RmapOp.granted, f]) id⟩
    · simp only [RmapOp.exec, if_neg h]
      refine ⟨v, bal, .inl ⟨trivial, fun x u => ?_⟩⟩
      have out : ¬ (lo ≤ x ∧ x < hi) := fun inside => h (by order)
      simp [RmapOp.covers, out]
  | remove lo hi ok =>
    by_cases h : lo < hi
    · obtain ⟨valid, bal', outcome⟩ := rmapRemove_spec v bal h ok _ rfl
      refine ⟨valid, bal', ?_⟩
      rcases outcome with ⟨rc, gives⟩ | ⟨rc, _, refused⟩
      · refine .inl ⟨rc, fun x u => ?_⟩
        rw [gives x u]
        by_cases inside : lo ≤ x ∧ x < hi <;> simp [RmapOp.covers, RmapOp.value, inside]
      · exact .inr ⟨rc, refused.imp id fun l => by omega⟩
    · simp only [RmapOp.exec, rmapRemove, if_pos h]
      refine ⟨v, bal, .inl ⟨trivial, fun x u => ?_⟩⟩
      have out : ¬ (lo ≤ x ∧ x < hi) := fun inside => h (by order)
      simp [RmapOp.covers, out]

end

theorem rmapRun_valid : (rmapRun memory ops).map.Valid ∧
    Settled (refs (rmapRun memory ops).map.toList) (rmapRun memory ops).book := by
  induction ops using List.reverseRecOn with
  | nil => exact ⟨rmapNew_valid memory, .refl _⟩
  | append_singleton ops op ih =>
    rw [rmapRun_append]
    have step := rmapOp_step ih.1 ih.2 op
    exact ⟨step.1, step.2.1⟩

theorem rmapRun_gives (served : AllReturnedZero memory ops) (x : α) (u : V) :
    Gives Cell.val (rmapRun memory ops).map.toList x u ↔ lastWrite ops x = some u := by
  induction ops using List.reverseRecOn with
  | nil =>
    have empty : (rmapRun memory ([] : List (RmapOp α V))).map.toList = [] := rfl
    rw [empty]
    simp [lastWrite]
  | append_singleton ops op ih =>
    have earlier : AllReturnedZero memory ops := fun before op' after cut =>
      served before op' (after ++ [op]) (by simp [cut])
    have last := served ops op [] rfl
    obtain ⟨v, bal⟩ := rmapRun_valid memory ops
    rcases (rmapOp_step v bal op).2.2 with ⟨_, gives⟩ | ⟨rc, _⟩
    · rw [rmapRun_append, gives x u, lastWrite_append]
      cases op.covers x
      · simpa using ih earlier
      · simp
    · rw [last] at rc
      contradiction

end DynaJS.Ds
