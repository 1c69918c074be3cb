import DynaJS.Timer.Slots

/-! Whole histories of timers, as long as no slot is released `2 ^ 32` times. -/
namespace DynaJS.Timer

open List Nat

variable {C : Type}

variable (log : List (TimerEvent C))

def added : List (TNode C) := log.filterMap fun | .added x => some x | _ => none

def gone : List (TNode C) :=
  log.filterMap fun | .added _ => none | .popped x => some x | .cancelled x => some x

def popped : List (TNode C) := log.filterMap fun | .popped x => some x | _ => none

def releases (k : Nat) : Nat := (gone log).countP fun x => idIndex x.id = k

def live : Set (TNode C) := {x | x ∈ added log ∧ x ∉ gone log}

def pending (t : Timers C) : List (TNode C) := (List.range t.n).map t.h

def PopsLeast : Prop :=
  ∀ before x after, log = before ++ .popped x :: after → ∀ y ∈ live before, x.rank ≤ y.rank

def Few : Prop := ∀ k, releases log k < 2 ^ 32

section Log

variable (log log' : List (TimerEvent C)) (x : TNode C)

@[simp]
theorem added_append : added (log ++ log') = added log ++ added log' := filterMap_append ..

@[simp]
theorem gone_append : gone (log ++ log') = gone log ++ gone log' := filterMap_append ..

@[simp]
theorem popped_append : popped (log ++ log') = popped log ++ popped log' := filterMap_append ..

@[simp]
theorem releases_append (k : Nat) : releases (log ++ log') k = releases log k + releases log' k := by
  simp [releases]

@[simp]
theorem added_added : added [TimerEvent.added x] = [x] := rfl

@[simp]
theorem added_popped : added [TimerEvent.popped x] = [] := rfl

@[simp]
theorem added_cancelled : added [TimerEvent.cancelled x] = [] := rfl

@[simp]
theorem gone_added : gone [TimerEvent.added x] = [] := rfl

@[simp]
theorem gone_popped : gone [TimerEvent.popped x] = [x] := rfl

@[simp]
theorem gone_cancelled : gone [TimerEvent.cancelled x] = [x] := rfl

theorem mem_live : x ∈ live log ↔ x ∈ added log ∧ x ∉ gone log := Iff.rfl

theorem live_added (new : x ∉ gone log) : live (log ++ [.added x]) = insert x (live log) := by
  ext y
  simp only [mem_live, Set.mem_insert_iff, added_append, gone_append, added_added, gone_added,
    append_nil, mem_append, mem_singleton]
  constructor
  · tauto
  · rintro (rfl | there)
    · exact ⟨.inr rfl, new⟩
    · exact ⟨.inl there.1, there.2⟩

theorem live_gone {e : TimerEvent C} (none : added [e] = []) (one : gone [e] = [x]) :
    live (log ++ [e]) = live log \ {x} := by
  ext y
  simp only [mem_live, Set.mem_sdiff, Set.mem_singleton_iff, added_append, gone_append,
    none, one, append_nil, mem_append, mem_singleton, not_or, and_assoc]

end Log

theorem Few.before {log log' : List (TimerEvent C)} (few : Few log') (grows : log <+: log') : Few log := by
  obtain ⟨more, rfl⟩ := grows
  intro k
  have := few k
  rw [releases_append] at this
  omega

theorem PopsLeast.snoc {log : List (TimerEvent C)} (p : PopsLeast log) (e : TimerEvent C)
    (least : ∀ x, e = .popped x → ∀ y ∈ live log, x.rank ≤ y.rank) : PopsLeast (log ++ [e]) := by
  intro before x after eq
  rcases eq_nil_or_concat after with rfl | ⟨after, e', rfl⟩
  · obtain ⟨rfl, same⟩ := append_inj' eq rfl
    exact least x (singleton_inj.mp same)
  · have cut : log ++ [e] = (before ++ .popped x :: after) ++ [e'] := by simpa using eq
    exact p before x after (append_inj' cut rfl).1

structure History.Valid (s : History C) : Prop where
  timers : s.timers.Valid (live s.log)
  gens : ∀ k < s.timers.nslots, (s.timers.slots k).gen = releases s.log k
  older : ∀ x ∈ gone s.log, x.slot < s.timers.nslots ∧ idGen x.id < releases s.log x.slot
  known : ∀ x ∈ gone s.log, x ∈ added s.log
  once : (gone s.log).Nodup
  ids : ((added s.log).map TNode.id).Nodup
  narrow : ∀ x ∈ added s.log, 0 < x.id ∧ x.id < 2 ^ 64
  seqs : (added s.log).map TNode.seq = List.range (added s.log).length
  next : s.timers.seq = (added s.log).length
  least : PopsLeast s.log

theorem initial_valid (heap : Nat → TNode C) (slots : Nat → TSlot) : History.Valid ⟨timersNew heap slots, []⟩ where
  timers := by
    have none : live ([] : List (TimerEvent C)) = ∅ := by simp [live, added]
    rw [none]
    exact timersNew_valid heap slots
  gens := nofun
  older := forall_mem_nil _
  known := forall_mem_nil _
  once := nodup_nil
  ids := nodup_nil
  narrow := forall_mem_nil _
  seqs := rfl
  next := rfl
  least := fun before x after eq => by simp at eq

section Steps

variable {s : History C}

theorem History.Valid.live_or_gone {x : TNode C} (member : x ∈ added s.log) : x ∈ live s.log ∨ x ∈ gone s.log := by
  by_cases there : x ∈ gone s.log
  · exact .inr there
  · exact .inl ⟨member, there⟩

/-- The id of a new node was not given out before: the slot's generation has moved on. -/
theorem History.Valid.new_id (v : s.Valid) {x : TNode C} {t' : Timers C}
    (a : Added (live s.log) x s.timers t') {y : TNode C} (member : y ∈ added s.log) : y.id ≠ x.id := by
  intro same
  have slot : y.slot = x.slot := by rw [TNode.slot, same, TNode.slot]
  rcases History.Valid.live_or_gone member with there | there
  · exact a.unused y there slot
  · obtain ⟨inside, older⟩ := v.older y there
    have gen := a.valid.tabled.gen_eq (Set.mem_insert x _)
    rw [slot] at inside older
    rw [same, gen, a.gen _ inside, v.gens _ inside] at older
    exact lt_irrefl _ older

/-- Fewer than `2 ^ 64` timers are ever added, so the sequence number does not wrap. -/
theorem length_lt_of_ids {l : List (TNode C)} (ids : (l.map TNode.id).Nodup)
    (narrow : ∀ x ∈ l, 0 < x.id ∧ x.id < 2 ^ 64) : l.length < 2 ^ 64 := by
  have inside : l.map TNode.id ⊆ List.range' 1 (2 ^ 64 - 1) := by
    intro id member
    obtain ⟨x, there, rfl⟩ := mem_map.mp member
    have := narrow x there
    rw [mem_range'_1]
    omega
  have := (ids.subperm inside).length_le
  rw [length_map, length_range'] at this
  omega

theorem History.Valid.add (v : s.Valid) {x : TNode C} {t' : Timers C}
    (a : Added (live s.log) x s.timers t') (seq : x.seq = s.timers.seq) :
    History.Valid ⟨t', s.log ++ [.added x]⟩ := by
  have new : x ∉ gone s.log := fun there => v.new_id a (v.known x there) rfl
  have ids : ((added s.log ++ [x]).map TNode.id).Nodup := by
    rw [map_append, nodup_append]
    refine ⟨v.ids, nodup_singleton _, fun id there id' here same => ?_⟩
    obtain ⟨y, member, rfl⟩ := mem_map.mp there
    exact v.new_id a member (same.trans (mem_singleton.mp here))
  have narrow : ∀ y ∈ added s.log ++ [x], 0 < y.id ∧ y.id < 2 ^ 64 := by
    intro y member
    rcases mem_append.mp member with there | here
    · exact v.narrow y there
    · rw [mem_singleton.mp here]
      exact a.valid.tabled.narrow (Set.mem_insert ..)
  have count := length_lt_of_ids ids narrow
  rw [length_append, length_singleton] at count
  refine ⟨?_, fun k inside => ?_, fun y member => ?_, fun y member => ?_, ?_, ?_, ?_, ?_, ?_, ?_⟩
  · rw [live_added _ _ new]
    exact a.valid
  · rw [releases_append, show releases [TimerEvent.added x] k = 0 from rfl, add_zero]
    by_cases old : k < s.timers.nslots
    · exact (a.gen k old).trans (v.gens k old)
    · rw [a.fresh k (not_lt.mp old) inside, releases, eq_comm, countP_eq_zero]
      intro y member same
      have bound := (v.older y member).1
      rw [TNode.slot, of_decide_eq_true same] at bound
      exact old bound
  · have old := v.older y (by simpa using member)
    refine ⟨old.1.trans_le a.grows, ?_⟩
    rw [releases_append]
    omega
  · rw [gone_append, gone_added, append_nil] at member
    rw [added_append]
    exact mem_append_left _ (v.known y member)
  · simpa using v.once
  · rw [added_append]
    exact ids
  · rw [added_append]
    exact narrow
  · rw [added_append, added_added, map_append, v.seqs, length_append, length_singleton,
      range_succ, map_singleton, seq, v.next]
  · rw [a.seq, v.next, added_append, added_added, length_append, length_singleton, mod_eq_of_lt count]
  · exact v.least.snoc _ fun y same => by contradiction

theorem History.Valid.remove (v : s.Valid) {i : Nat} (inside : i < s.timers.n) {e : TimerEvent C}
    (none : added [e] = []) (one : gone [e] = [s.timers.h i])
    (least : ∀ x, e = .popped x → ∀ y ∈ live s.log, x.rank ≤ y.rank) (few : Few (s.log ++ [e])) :
    History.Valid ⟨heapRemoveAt s.timers i, s.log ++ [e]⟩ := by
  obtain ⟨valid, removed⟩ := heapRemoveAt_spec v.timers inside
  have member := v.timers.filled.member inside
  have slot := (v.timers.tabled.ids _ member).1
  have count : ∀ k, releases [e] k = if (s.timers.h i).slot = k then 1 else 0 := by
    intro k
    rw [releases, one, countP_singleton]
    exact if_congr (by rw [decide_eq_true_eq, TNode.slot]) rfl rfl
  refine ⟨?_, fun k bound => ?_, fun y there => ?_, fun y there => ?_, ?_, ?_, ?_, ?_, ?_, v.least.snoc _ least⟩
  · rw [live_gone _ _ none one]
    exact valid
  · rw [removed.nslots] at bound
    have below := few k
    rw [releases_append, count] at below ⊢
    by_cases here : (s.timers.h i).slot = k
    · rw [if_pos here] at below ⊢
      subst here
      rw [removed.bumped, v.gens _ bound, mod_eq_of_lt below]
    · rw [if_neg here, removed.gen k (Ne.symm here), v.gens k bound, add_zero]
  · rw [removed.nslots, releases_append, count]
    rw [gone_append, one, mem_append, mem_singleton] at there
    rcases there with there | rfl
    · have old := v.older y there
      exact ⟨old.1, by omega⟩
    · rw [if_pos rfl, v.timers.tabled.gen_eq member, v.gens _ slot]
      exact ⟨slot, lt_succ_self _⟩
  · rw [added_append, none, append_nil]
    rw [gone_append, one, mem_append, mem_singleton] at there
    rcases there with there | rfl
    · exact v.known y there
    · exact member.1
  · rw [gone_append, one]
    refine nodup_append.mpr ⟨v.once, nodup_singleton _, fun y there x here same => ?_⟩
    rw [mem_singleton.mp here] at same
    exact member.2 (same ▸ there)
  · rw [added_append, none, append_nil]
    exact v.ids
  · rw [added_append, none, append_nil]
    exact v.narrow
  · rw [added_append, none, append_nil]
    exact v.seqs
  · rw [added_append, none, append_nil]
    exact removed.seq.trans v.next

/-- A timer that a call adds is due no earlier than `d`. -/
def TimerCall.NotBefore (d : Nat) : TimerCall C → Prop
  | .add now delay _ _ _ => d ≤ deadlineAt now delay
  | .cancel _ => True

instance (d : Nat) : (c : TimerCall C) → Decidable (c.NotBefore d)
  | .add now delay _ _ _ => inferInstanceAs (Decidable (d ≤ deadlineAt now delay))
  | .cancel _ => inferInstanceAs (Decidable True)

def TimerCall.isAdd : TimerCall C → Bool
  | .add .. => true
  | .cancel _ => false

theorem TimerCall.exec_cases (v : s.Valid) (c : TimerCall C) :
    (∃ cap, c.exec s = ⟨{ s.timers with cap := cap }, s.log⟩) ∨
    (∃ x t', c.exec s = ⟨t', s.log ++ [.added x]⟩ ∧ Added (live s.log) x s.timers t' ∧
      x.seq = s.timers.seq ∧ c.isAdd = true ∧ ∀ d, c.NotBefore d → d ≤ x.deadline) ∨
    ∃ i < s.timers.n, c.exec s = ⟨heapRemoveAt s.timers i, s.log ++ [.cancelled (s.timers.h i)]⟩ := by
  cases c with
  | add now delay cb ok ok' =>
    rcases timerAdd_cases v.timers now delay cb ok ok' with ⟨failed, cap, same⟩ | ⟨c, rfl, done, a⟩
    · refine .inl ⟨cap, ?_⟩
      cases cb with
      | none => rw [exec, same]
      | some c => simp only [exec, failed, same, if_true]
    · refine .inr (.inl ⟨_, _, ?_, a, rfl, rfl, fun d early => early⟩)
      simp only [exec, if_neg done]
  | cancel id =>
    rcases timerCancel_cases v.timers id with ⟨i, inside, pos, -, -, -, eq⟩ | ⟨eq, -⟩
    · refine .inr (.inr ⟨i, inside, ?_⟩)
      simp only [exec, eq, pos, if_true]
    · refine .inl ⟨s.timers.cap, ?_⟩
      simp only [exec, eq]
      cases (s.timers.slots (idIndex id)).pos <;> simp

theorem TimerCall.exec_log (s : History C) (c : TimerCall C) :
    ∃ more, s.log ++ more = (c.exec s).log ∧ popped more = [] := by
  cases c with
  | add now delay cb ok ok' =>
    cases cb with
    | none => exact ⟨[], append_nil _, rfl⟩
    | some c =>
      simp only [exec]
      split_ifs
      · exact ⟨[], append_nil _, rfl⟩
      · exact ⟨[_], rfl, rfl⟩
  | cancel id =>
    simp only [exec]
    split
    · exact ⟨[], append_nil _, rfl⟩
    · split_ifs
      · exact ⟨[_], rfl, rfl⟩
      · exact ⟨[], append_nil _, rfl⟩

theorem calls_log (calls : List (TimerCall C)) (s : History C) :
    ∃ more, s.log ++ more = (calls.foldl TimerCall.exec s).log ∧ popped more = [] := by
  induction calls generalizing s with
  | nil => exact ⟨[], append_nil _, rfl⟩
  | cons c calls ih =>
    obtain ⟨more, first, none⟩ := c.exec_log s
    obtain ⟨rest, later, nil⟩ := ih (c.exec s)
    refine ⟨more ++ rest, ?_, by rw [popped_append, none, nil, nil_append]⟩
    rw [← append_assoc, first, later, foldl_cons]

theorem calls_grow (calls : List (TimerCall C)) (s : History C) : s.log <+: (calls.foldl TimerCall.exec s).log :=
  (calls_log calls s).imp fun _ => And.left

section

variable (v : s.Valid)
include v

theorem TimerCall.exec_valid (c : TimerCall C) (few : Few (c.exec s).log) : (c.exec s).Valid := by
  obtain ⟨cap, eq⟩ | ⟨x, t', eq, a, seq, -⟩ | ⟨i, inside, eq⟩ := c.exec_cases v
  · rw [eq]
    exact ⟨v.timers.recap cap, v.gens, v.older, v.known, v.once, v.ids, v.narrow, v.seqs, v.next, v.least⟩
  · rw [eq]
    exact v.add a seq
  · rw [eq] at few ⊢
    exact v.remove inside rfl rfl (fun _ same => nomatch same) few

variable (calls : List (TimerCall C))

theorem calls_valid (few : Few (calls.foldl TimerCall.exec s).log) : (calls.foldl TimerCall.exec s).Valid := by
  induction calls generalizing s with
  | nil => exact v
  | cons c calls ih => exact ih (c.exec_valid v (few.before (calls_grow calls _))) few

theorem History.Valid.pop (some : 0 < s.timers.n) (few : Few s.pop.log) : s.pop.Valid :=
  v.remove some rfl rfl (fun _ same _ member => TimerEvent.popped.inj same ▸ v.timers.least member) few

theorem History.Valid.rank_inj {x y : TNode C} (hx : x ∈ added s.log)
    (hy : y ∈ added s.log) (same : x.rank = y.rank) : x = y := by
  have nodup : ((added s.log).map TNode.seq).Nodup := v.seqs ▸ nodup_range
  exact inj_on_of_nodup_map nodup hx hy (congrArg (fun r => (ofLex r).2) same)

theorem History.Valid.pop_first (some : 0 < s.timers.n) {y : TNode C}
    (member : y ∈ live s.pop.log) : (s.timers.h 0).rank < y.rank := by
  rw [History.pop, live_gone _ _ (added_popped _) (gone_popped _)] at member
  refine lt_of_le_of_ne (v.timers.least member.1) fun same => member.2 ?_
  exact (v.rank_inj (v.timers.filled.member some).1 member.1.1 same).symm

/-- Calls that add no earlier timer keep every pending timer after `x`. -/
theorem calls_after (few : Few (calls.foldl TimerCall.exec s).log) {x : TNode C} (known : x ∈ added s.log)
    (forward : ∀ c ∈ calls, c.NotBefore x.deadline) (after : ∀ y ∈ live s.log, x.rank < y.rank) :
    ∀ y ∈ live (calls.foldl TimerCall.exec s).log, x.rank < y.rank := by
  induction calls generalizing s with
  | nil => exact after
  | cons c calls ih =>
    rw [forall_mem_cons] at forward
    have valid := c.exec_valid v (few.before (calls_grow calls _))
    refine ih valid few ?_ forward.2 ?_
    · obtain ⟨more, eq, -⟩ := c.exec_log s
      rw [← eq, added_append]
      exact mem_append_left _ known
    · obtain ⟨cap, eq⟩ | ⟨z, t', eq, a, seq, -, late⟩ | ⟨i, inside, eq⟩ := c.exec_cases v
      · rw [eq]
        exact after
      · rw [eq, live_added _ _ fun there => v.new_id a (v.known z there) rfl, Set.forall_mem_insert]
        refine ⟨?_, after⟩
        have earlier : x.seq < z.seq := by
          rw [seq, v.next, ← mem_range, ← v.seqs]
          exact mem_map_of_mem known
        rw [TNode.rank, TNode.rank, Prod.Lex.toLex_lt_toLex]
        have := late _ forward.1
        omega
      · rw [eq, live_gone _ _ (added_cancelled _) (gone_cancelled _)]
        exact fun y member => after y member.1

theorem TimerCall.exec_count (c : TimerCall C) :
    (c.exec s).timers.n ≤ s.timers.n + if c.isAdd = true then 1 else 0 := by
  obtain ⟨cap, eq⟩ | ⟨z, t', eq, a, -, isAdd, -⟩ | ⟨i, inside, eq⟩ := c.exec_cases v
  · rw [eq]
    exact Nat.le_add_right ..
  · rw [eq, if_pos isAdd]
    exact a.n.le
  · rw [eq]
    have : (heapRemoveAt s.timers i).n + 1 = s.timers.n := (heapRemoveAt_spec v.timers inside).2.n
    dsimp only
    omega

theorem calls_count (few : Few (calls.foldl TimerCall.exec s).log) :
    (calls.foldl TimerCall.exec s).timers.n ≤ s.timers.n + calls.countP TimerCall.isAdd := by
  induction calls generalizing s with
  | nil => exact le_rfl
  | cons c calls ih =>
    have rest := ih (c.exec_valid v (few.before (calls_grow calls _))) few
    have one := c.exec_count v
    rw [countP_cons]
    rw [foldl_cons]
    omega

end

section Run

variable (now : Nat) (script : List (List (TimerCall C)))

theorem runLoop_stop (s : History C) (stop : ¬ (0 < s.timers.n ∧ (s.timers.h 0).deadline ≤ now)) :
    runLoop now script s = (true, [], s) := by
  cases script <;> rw [runLoop, if_neg stop]

theorem runLoop_cons (calls : List (TimerCall C)) (script : List (List (TimerCall C))) (s : History C)
    (due : 0 < s.timers.n ∧ (s.timers.h 0).deadline ≤ now) :
    runLoop now (calls :: script) s = ((runLoop now script (calls.foldl TimerCall.exec s.pop)).1,
        s.timers.h 0 :: (runLoop now script (calls.foldl TimerCall.exec s.pop)).2.1,
        (runLoop now script (calls.foldl TimerCall.exec s.pop)).2.2) := by
  rw [runLoop, if_pos due]

/-- The rule for runs: what holds where the loop stops, and of a whole run when it holds
of the rest after one turn, holds of every run. -/
theorem runLoop_induct (P : List (List (TimerCall C)) → History C → Bool × List (TNode C) × History C → Prop)
    (stop : ∀ script s, ¬ (0 < s.timers.n ∧ (s.timers.h 0).deadline ≤ now) → P script s (true, [], s))
    (short : ∀ s, 0 < s.timers.n ∧ (s.timers.h 0).deadline ≤ now → P [] s (false, [], s))
    (turn : ∀ calls script s r, 0 < s.timers.n ∧ (s.timers.h 0).deadline ≤ now →
      r = runLoop now script (calls.foldl TimerCall.exec s.pop) →
      P script (calls.foldl TimerCall.exec s.pop) r →
      P (calls :: script) s (r.1, s.timers.h 0 :: r.2.1, r.2.2))
    (script : List (List (TimerCall C))) (s : History C) : P script s (runLoop now script s) := by
  induction script generalizing s with
  | nil =>
    by_cases due : 0 < s.timers.n ∧ (s.timers.h 0).deadline ≤ now
    · rw [runLoop, if_pos due]
      exact short s due
    · rw [runLoop_stop now _ _ due]
      exact stop [] s due
  | cons calls script ih =>
    by_cases due : 0 < s.timers.n ∧ (s.timers.h 0).deadline ≤ now
    · rw [runLoop_cons now _ _ _ due]
      exact turn calls script s _ due rfl (ih _)
    · rw [runLoop_stop now _ _ due]
      exact stop _ s due

structure Ran (script : List (List (TimerCall C))) (s : History C)
    (r : Bool × List (TNode C) × History C) : Prop where
  grows : s.log <+: r.2.2.log
  pops : popped r.2.2.log = popped s.log ++ r.2.1
  due : ∀ x ∈ r.2.1, x.deadline ≤ now
  done : r.1 = true → ¬ (0 < r.2.2.timers.n ∧ (r.2.2.timers.h 0).deadline ≤ now)
  short : r.1 = false → r.2.1.length = script.length

theorem runLoop_ran (s : History C) : Ran now script s (runLoop now script s) := by
  refine runLoop_induct now (Ran now) (fun script s stop => ?_) (fun s due => ?_)
    (fun calls script s r due _ rest => ?_) script s
  · exact ⟨prefix_rfl, (append_nil _).symm, nofun, fun _ => stop, nofun⟩
  · exact ⟨prefix_rfl, (append_nil _).symm, nofun, nofun, fun _ => rfl⟩
  · refine ⟨?_, ?_, ?_, rest.done, fun running => ?_⟩
    · exact (prefix_append _ [_]).trans ((calls_grow calls s.pop).trans rest.grows)
    · obtain ⟨more, eq, none⟩ := calls_log calls s.pop
      rw [rest.pops, ← eq, popped_append, none, append_nil, History.pop, popped_append]
      exact append_assoc ..
    · rw [forall_mem_cons]
      exact ⟨due.2, rest.due⟩
    · rw [length_cons, length_cons, rest.short running]

structure RanValid (script : List (List (TimerCall C))) (s : History C)
    (r : Bool × List (TNode C) × History C) : Prop where
  valid : r.2.2.Valid
  count : r.2.1.length + r.2.2.timers.n ≤ s.timers.n + script.flatten.countP TimerCall.isAdd
  sorted : (∀ p ∈ r.2.1.zip script, ∀ c ∈ p.2, c.NotBefore p.1.deadline) →
    r.2.1.Pairwise (fun x y => x.rank < y.rank) ∧ ∀ b, (∀ y ∈ live s.log, b < y.rank) → ∀ y ∈ r.2.1, b < y.rank

/-- A run ends: it pops no more than there are timers and timers added by its callbacks. While no callback
adds a timer earlier than its own, every pop comes after the one before it. -/
theorem runLoop_valid {now : Nat} (v : s.Valid) (few : Few (runLoop now script s).2.2.log) :
    RanValid script s (runLoop now script s) := by
  revert v few
  refine runLoop_induct now (fun script s r => s.Valid → Few r.2.2.log → RanValid script s r) ?_ ?_ ?_ script s
  · exact fun _ _ _ v _ => ⟨v, by simp, fun _ => ⟨List.Pairwise.nil, fun _ _ => nofun⟩⟩
  · exact fun _ _ v _ => ⟨v, by simp, fun _ => ⟨List.Pairwise.nil, fun _ _ => nofun⟩⟩
  rintro calls script s r due rfl rest v few
  have later := few.before (runLoop_ran now script _).grows
  have valid := v.pop due.1 (later.before (calls_grow ..))
  have turns := rest (calls_valid valid calls later) few
  refine ⟨turns.valid, ?_, fun forward => ?_⟩
  · have total := turns.count
    have grown := calls_count valid calls later
    have popped : s.pop.timers.n + 1 = s.timers.n := (heapRemoveAt_spec v.timers due.1).2.n
    rw [flatten_cons, countP_append, length_cons]
    dsimp only
    omega
  · rw [zip_cons_cons, forall_mem_cons] at forward
    have root := v.timers.filled.member due.1
    have known : s.timers.h 0 ∈ added s.pop.log := by
      rw [History.pop, added_append]
      exact mem_append_left _ root.1
    obtain ⟨sorted, above⟩ := turns.sorted forward.2
    have next := above _ (calls_after valid calls later known forward.1 fun y => v.pop_first due.1)
    refine ⟨pairwise_cons.mpr ⟨next, sorted⟩, fun b below => ?_⟩
    rw [forall_mem_cons]
    exact ⟨below _ root, fun y member => (below _ root).trans (next y member)⟩

end Run

end Steps

theorem TimerOp.exec_grows (s : History C) (op : TimerOp C) : s.log <+: (op.exec s).log := by
  cases op with
  | call c => exact (c.exec_log s).imp fun _ => And.left
  | run now script => exact (runLoop_ran now script s).grows

theorem TimerOp.exec_valid {s : History C} (v : s.Valid) (op : TimerOp C) (few : Few (op.exec s).log) :
    (op.exec s).Valid := by
  cases op with
  | call c => exact c.exec_valid v few
  | run now script => exact (runLoop_valid script v few).valid

theorem timersRun_valid (heap : Nat → TNode C) (slots : Nat → TSlot) (ops : List (TimerOp C))
    (few : Few (timersRun heap slots ops).log) : (timersRun heap slots ops).Valid := by
  induction ops using List.reverseRecOn with
  | nil => exact initial_valid heap slots
  | append_singleton ops op ih =>
    rw [timersRun, foldl_append] at few ⊢
    exact TimerOp.exec_valid (ih (few.before (TimerOp.exec_grows _ op))) op few

section Pending

variable {t : Timers C} {S : Set (TNode C)}

variable (v : t.Valid S)
include v

theorem mem_pending (x : TNode C) : x ∈ pending t ↔ x ∈ S := by
  rw [pending, mem_map, v.filled.contents]
  simp only [mem_range]

theorem pending_nodup : (pending t).Nodup := by
  refine List.Nodup.map_on (fun i hi j hj same => ?_) nodup_range
  rw [mem_range] at hi hj
  have here := v.filled.mirror i hi
  rw [same, v.filled.mirror j hj] at here
  exact (Option.some.inj here).symm

theorem pending_remove {i : Nat} (inside : i < t.n) : (pending t).Perm (t.h i :: pending (heapRemoveAt t i)) := by
  obtain ⟨valid, -⟩ := heapRemoveAt_spec v inside
  have member := v.filled.member inside
  have out : t.h i ∉ pending (heapRemoveAt t i) := fun there => ((mem_pending valid _).mp there).2 rfl
  refine (perm_ext_iff_of_nodup (pending_nodup v) (nodup_cons.mpr ⟨out, pending_nodup valid⟩)).mpr fun x => ?_
  rw [mem_cons, mem_pending v, mem_pending valid]
  constructor
  · tauto
  · rintro (rfl | there)
    · exact member
    · exact there.1

end Pending

section History

variable {s : History C}

variable (v : s.Valid)
include v

theorem History.Valid.partition : (added s.log).Perm (gone s.log ++ pending s.timers) := by
  have apart : (gone s.log ++ pending s.timers).Nodup := by
    refine nodup_append.mpr ⟨v.once, pending_nodup v.timers, fun x there y here same => ?_⟩
    rw [mem_pending v.timers] at here
    exact here.2 (same ▸ there)
  refine (perm_ext_iff_of_nodup (List.Nodup.of_map _ v.ids) apart).mpr fun x => ?_
  rw [mem_append, mem_pending v.timers]
  constructor
  · exact fun member => (History.Valid.live_or_gone member).symm
  · rintro (there | there)
    · exact v.known x there
    · exact there.1

theorem History.Valid.cancel_gone {x : TNode C} (member : x ∈ gone s.log) :
    timerCancel s.timers x.id = (0, s.timers) := by
  rcases timerCancel_cases v.timers x.id with ⟨i, inside, -, slot, gen, -⟩ | ⟨eq, -⟩
  · have older := (v.older x member).2
    have there := v.timers.filled.member inside
    have bound := (v.timers.tabled.ids _ there).1
    rw [← gen, v.timers.tabled.gen_eq there, v.gens _ bound, slot, ← TNode.slot] at older
    exact absurd older (lt_irrefl _)
  · exact eq

theorem History.Valid.cancel_pending {x : TNode C} (member : x ∈ pending s.timers) :
    (timerCancel s.timers x.id).1 = 1 ∧ (pending s.timers).Perm (x :: pending (timerCancel s.timers x.id).2) := by
  rw [mem_pending v.timers] at member
  rcases timerCancel_cases v.timers x.id with ⟨i, inside, -, slot, -, -, eq⟩ | ⟨-, other⟩
  · obtain rfl := v.timers.filled.slot_inj (v.timers.filled.member inside) member slot
    rw [eq]
    exact ⟨rfl, pending_remove v.timers inside⟩
  · exact absurd rfl (other x member)

theorem History.Valid.cancel_id {id : Nat} (narrow : id < 2 ^ 64)
    (done : (timerCancel s.timers id).1 = 1) : ∃ x ∈ pending s.timers, x.id = id := by
  rcases timerCancel_cases v.timers id with ⟨i, inside, -, -, -, same, -⟩ | ⟨eq, -⟩
  · exact ⟨_, (mem_pending v.timers _).mpr (v.timers.filled.member inside), same narrow⟩
  · rw [eq] at done
    exact absurd done (show ¬ (0 : Int) = 1 by decide)

end History

/-- Timers fire once and in order, as long as no slot is released `2 ^ 32` times. A
history is given up to a run and through it.

The sequence numbers count the timers added. Every timer added is pending, or was popped
or cancelled once; a cancel through the id of one that is gone changes nothing, and
through the id of a pending one removes that one alone. Every pop takes the least pending
timer. A run pops timers that are due until none is, and comes to that point unless its
callbacks go on adding timers; as long as no callback adds a timer earlier than its own,
it pops in strictly increasing order. -/
theorem timers_fire_once (heap : Nat → TNode C) (slots : Nat → TSlot) (ops : List (TimerOp C))
    (now : Nat) (script : List (List (TimerCall C)))
    (few : ∀ k, releases (timersRun heap slots (ops ++ [.run now script])).log k < 2 ^ 32) :
    let s := timersRun heap slots ops
    let r := runLoop now script s
    ((added s.log).map TNode.seq = List.range (added s.log).length ∧ ((added s.log).map TNode.id).Nodup ∧
      (added s.log).Perm (gone s.log ++ pending s.timers)) ∧
    ((∀ x ∈ gone s.log, timerCancel s.timers x.id = (0, s.timers)) ∧
      (∀ x ∈ pending s.timers, (timerCancel s.timers x.id).1 = 1 ∧
        (pending s.timers).Perm (x :: pending (timerCancel s.timers x.id).2)) ∧
      ∀ id < 2 ^ 64, (timerCancel s.timers id).1 = 1 → ∃ x ∈ pending s.timers, x.id = id) ∧
    (popped r.2.2.log = popped s.log ++ r.2.1 ∧ PopsLeast r.2.2.log ∧ (∀ x ∈ r.2.1, x.deadline ≤ now) ∧
      (r.1 = true → ∀ x ∈ pending r.2.2.timers, now < x.deadline) ∧
      (r.1 = false → r.2.1.length = script.length) ∧
      (s.timers.n + script.flatten.countP TimerCall.isAdd < script.length → r.1 = true) ∧
      ((∀ p ∈ r.2.1.zip script, ∀ c ∈ p.2, c.NotBefore p.1.deadline) →
        r.2.1.Pairwise (fun x y => x.rank < y.rank))) := by
  intro s r
  have run : timersRun heap slots (ops ++ [.run now script]) = r.2.2 := by
    rw [timersRun, foldl_append]
    rfl
  rw [run] at few
  have ran : Ran now script s r := runLoop_ran now script s
  have v : s.Valid := timersRun_valid heap slots ops (Few.before few ran.grows)
  have whole : RanValid script s r := runLoop_valid script v few
  have w := whole.valid
  refine ⟨⟨v.seqs, v.ids, v.partition⟩, ⟨fun x => v.cancel_gone, fun x => v.cancel_pending, fun id => v.cancel_id⟩,
    ran.pops, w.least, ran.due, fun done x member => ?_, ran.short, fun long => ?_, fun forward =>
      (whole.sorted forward).1⟩
  · rw [mem_pending w.timers] at member
    obtain ⟨i, inside, -⟩ := (w.timers.filled.contents x).mp member
    have root := w.timers.least member
    have late : now < (r.2.2.timers.h 0).deadline :=
      not_le.mp fun due => ran.done done ⟨zero_lt_of_lt inside, due⟩
    rw [TNode.rank, TNode.rank, Prod.Lex.toLex_le_toLex] at root
    omega
  · by_contra running
    have short := ran.short (Bool.eq_false_iff.mpr running)
    have count := whole.count
    omega

theorem releases_le (k : Nat) : releases log k ≤ log.length :=
  countP_le_length.trans (length_filterMap_le _ _)

/-- Two timers, added in the order opposite to their deadlines, and a run that finds both
due; its first callback adds a third that is not. -/
theorem timers_fire_once_three :
    let s : History Unit := timersRun (fun _ => ⟨0, 0, (), 0⟩) (fun _ => ⟨none, 0, none⟩)
      [.call (.add 0 5 (some ()) true true), .call (.add 0 3 (some ()) true true)]
    let r := runLoop 6 [[.add 6 1 (some ()) true true], []] s
    r.2.1.map TNode.deadline = [3, 5] ∧ r.2.1.Pairwise (fun x y => x.rank < y.rank) ∧
      ∀ x ∈ pending r.2.2.timers, 6 < x.deadline := by
  have few : ∀ k, releases (timersRun (fun _ => ⟨0, 0, (), 0⟩) (fun _ => ⟨none, 0, none⟩)
      ([.call (.add 0 5 (some ()) true true), .call (.add 0 3 (some ()) true true)] ++
        [.run 6 [[.add 6 1 (some ()) true true], []]])).log k < 2 ^ 32 := fun k =>
    (releases_le _ k).trans_lt (by decide +kernel)
  obtain ⟨-, -, -, -, -, done, -, -, sorted⟩ := timers_fire_once _ _ _ _ _ few
  exact ⟨by decide +kernel, sorted (by decide +kernel), done (by decide +kernel)⟩

/-- A callback can add a timer earlier than its own, and that one is popped next. -/
theorem earlier_from_callback :
    let s : History Unit := timersRun (fun _ => ⟨0, 0, (), 0⟩) (fun _ => ⟨none, 0, none⟩)
      [.call (.add 0 50 (some ()) true true)]
    let r := runLoop 100 [[.add 0 10 (some ()) true true], []] s
    (∀ k, releases r.2.2.log k < 2 ^ 32) ∧ r.1 = true ∧ r.2.1.map TNode.deadline = [50, 10] := by
  refine ⟨fun k => (releases_le _ k).trans_lt ?_, ?_, ?_⟩ <;> decide +kernel

end DynaJS.Timer
