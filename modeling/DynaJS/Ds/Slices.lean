import DynaJS.Ds.Records
import DynaJS.Lib.Links

/-! One direction of the slices of the table of `dyn-ds.c`: for each key of the records
a chain of record numbers, found through an index whose keys are borrowed from the
records. -/
namespace DynaJS.Ds

open Function List Option

/-- `ds_key`: the bytes, the stored hash and the address of the copy. -/
structure DsKey (K : Type) where
  bytes : K
  h : Nat
  p : Nat
deriving DecidableEq

/-- `table_chain`; `key` is the address in the index slot of the chain. -/
structure TableChain where
  head : Option Nat
  tail : Nat
  key : Nat
deriving DecidableEq

/-- `row_ix`, `row_chain`, `row_chain_cap` and `row_next` of `struct dyn_table`, or those
of the columns. The length of `chain` is `row_chains`; a link `none` is `UINT32_MAX`. -/
structure Slices (K : Type) where
  ix : Ix K
  chain : List TableChain
  chainCap : Nat
  next : Nat → Option Nat

def tableChainSize : Nat := 8

def slicesEmpty {K : Type} : Slices K := ⟨ixEmpty, [], 0, fun _ => none⟩

variable {K : Type} [DecidableEq K]

def Slices.chainAt (s : Slices K) (c : Nat) : TableChain := (s.chain[c]?).getD ⟨none, 0, 0⟩

def tableChainAdd (s : Slices K) (k : DsKey K) (i : Nat) (mem : Nat → Bool) : Option (Slices K) :=
  let next := update s.next i none
  match ixFind s.ix k.h k.bytes with
  | some pos =>
    let c := s.chainAt (s.ix.idxAt pos)
    some { s with
      next := update next c.tail (some i)
      chain := s.chain.set (s.ix.idxAt pos) { c with tail := i } }
  | none =>
    match dsReserve s.chainCap (s.chain.length + 1) tableChainSize (mem 0) with
    | none => none
    | some cap =>
      (ixInsert s.ix k.h k.bytes s.chain.length (mem 1)).map fun ix =>
        { ix := ix, chain := s.chain ++ [⟨some i, i, k.p⟩], chainCap := cap, next := next }

def TableChain.borrow (c : TableChain) (rec : Nat → Option (DsKey K)) : TableChain :=
  { c with key := ((c.head.bind rec).map DsKey.p).getD c.key }

def tableChainUnlink (s : Slices K) (rec : Nat → Option (DsKey K)) (fuel i : Nat) : Slices K :=
  match rec i with
  | none => s
  | some k =>
    match ixFind s.ix k.h k.bytes with
    | none => s
    | some pos =>
      let c := s.chainAt (s.ix.idxAt pos)
      if c.head = some i then
        if c.tail = i then { s with ix := ixErase s.ix pos }
        else
          let c := { c with head := s.next i }
          { s with chain := s.chain.set (s.ix.idxAt pos) (c.borrow rec) }
      else
        match Chain.walk s.next (fun p => s.next p == some i) fuel c.head with
        | none => s
        | some p =>
          let c := { c with tail := if c.tail = i then p else c.tail }
          { s with
            next := update s.next p (s.next i)
            chain := s.chain.set (s.ix.idxAt pos) (c.borrow rec) }

def tableChainMove (s : Slices K) (k : DsKey K) (fuel src dst : Nat) : Slices K :=
  match ixFind s.ix k.h k.bytes with
  | none => s
  | some pos =>
    let c := s.chainAt (s.ix.idxAt pos)
    let next := update s.next dst (s.next src)
    let tail := if c.tail = src then dst else c.tail
    if c.head = some src then
      { s with
        next := next
        chain := s.chain.set (s.ix.idxAt pos) { c with head := some dst, tail := tail } }
    else
      { s with
        next := match Chain.walk next (fun p => next p == some src) fuel c.head with
          | none => next
          | some p => update next p (some dst)
        chain := s.chain.set (s.ix.idxAt pos) { c with tail := tail } }

/-! The chains against the keys of the live records, `live i` being the key of record
`i` as long as the chains count it. -/

/-- A chain runs through the records of its key, and its slot borrows the key of the
first of them. -/
structure Lists (next : Nat → Option Nat) (live : Nat → Option (DsKey K)) (k : K) (c : TableChain)
    (l : List Nat) : Prop where
  linked : Links.Linked next l
  head : c.head = l.head?
  tail : l.getLast? = some c.tail
  members : ∀ i, i ∈ l ↔ ∃ key, live i = some key ∧ key.bytes = k
  borrowed : ∃ key, c.head.bind live = some key ∧ key.p = c.key

structure Chained (hash : K → Nat) (s : Slices K) (live : Nat → Option (DsKey K)) : Prop where
  valid : s.ix.Valid hash
  capacity : Capacity s.chainCap
  room : s.chain.length ≤ s.chainCap
  hashed : ∀ i key, live i = some key → key.h = hash key.bytes
  lists : ∀ k c, ixGet hash s.ix k = some c → c < s.chain.length ∧ ∃ l, Lists s.next live k (s.chainAt c) l
  found : ∀ i key, live i = some key → ∃ c, ixGet hash s.ix key.bytes = some c
  apart : ∀ k k' c, ixGet hash s.ix k = some c → ixGet hash s.ix k' = some c → k = k'

variable {hash : K → Nat} {s : Slices K} {live live' : Nat → Option (DsKey K)}

theorem slicesEmpty_chained : Chained hash (slicesEmpty : Slices K) fun _ => none where
  valid := ixEmpty_valid
  capacity := .inl rfl
  room := Nat.le_refl _
  hashed := fun _ _ h => by contradiction
  lists := fun k c h => by simp [slicesEmpty, ixEmpty_get] at h
  found := fun _ _ h => by contradiction
  apart := fun k k' c h => by simp [slicesEmpty, ixEmpty_get] at h

variable {l : List Nat} {c : TableChain} {next next' : Nat → Option Nat} {k : K} {s' : Slices K} {src dst i n : Nat}

section Lists

omit [DecidableEq K]

section

variable (L : Lists next live k c l)
include L

theorem Lists.frame (same : ∀ i key, key.bytes = k → (live' i = some key ↔ live i = some key))
    (links : ∀ i key, live i = some key → key.bytes = k → next' i = next i) :
    Lists next' live' k c l := by
  refine ⟨L.linked.congr fun i member => ?_, L.head, L.tail, fun i => (L.members i).trans ?_, ?_⟩
  · obtain ⟨key, there, bytes⟩ := (L.members i).mp member
    exact links i key there bytes
  · exact exists_congr fun key => and_congr_left fun bytes => (same i key bytes).symm
  · obtain ⟨key, there, p⟩ := L.borrowed
    obtain ⟨i, first, there⟩ := bind_eq_some_iff.mp there
    have bytes : key.bytes = k := by
      rw [L.head] at first
      obtain ⟨key', there', bytes⟩ := (L.members i).mp (mem_of_mem_head? first)
      rw [there, some.injEq] at there'
      exact there' ▸ bytes
    exact ⟨key, bind_eq_some_iff.mpr ⟨i, first, (same i key bytes).mpr there⟩, p⟩

theorem Lists.length_le (below : ∀ i key, live i = some key → i < n) : l.length ≤ n := by
  have inside : l ⊆ List.range n := fun i member => by
    obtain ⟨key, there, _⟩ := (L.members i).mp member
    exact mem_range.mpr (below i key there)
  have := (L.linked.nodup.subperm inside).length_le
  rwa [length_range] at this

theorem Lists.of_live {key : DsKey K} (there : live i = some key) (bytes : key.bytes = k) : i ∈ l :=
  (L.members i).mpr ⟨key, there, bytes⟩

theorem Lists.not_mem (out : ∀ key, live i = some key → key.bytes ≠ k) :
    i ∉ l := fun member => by
  obtain ⟨key, there, bytes⟩ := (L.members i).mp member
  exact out key there bytes

theorem Lists.first (first : c.head = some i) : ∃ rest, l = i :: rest := by
  rw [L.head] at first
  cases l with
  | nil => simp at first
  | cons a rest => exact ⟨rest, by simpa using first⟩

end

theorem update_elsewhere {o : Option (DsKey K)} {b : K} (old : ∀ key, live i = some key → key.bytes = b)
    (new : ∀ key, o = some key → key.bytes = b) (j : Nat) (key : DsKey K) (other : key.bytes ≠ b) :
    update live i o j = some key ↔ live j = some key := by
  by_cases here : j = i
  · subst here
    rw [update_self]
    exact ⟨fun h => absurd (new key h) other, fun h => absurd (old key h) other⟩
  · rw [update_of_ne here]

variable {k : DsKey K}

/-- After `i` has left its chain, the slot borrows the key of a record that stays. -/
theorem borrow_lists (linked : Links.Linked next l) (head : c.head = l.head?) (tail : l.getLast? = some c.tail)
    (members : ∀ j, j ∈ l ↔ j ≠ i ∧ ∃ key, live j = some key ∧ key.bytes = k.bytes) :
    Lists next (update live i none) k.bytes (c.borrow live) l := by
  obtain ⟨first, here⟩ : ∃ first, l.head? = some first := by
    cases l with
    | nil => simp at tail
    | cons a l => exact ⟨a, rfl⟩
  obtain ⟨other, key, there, _⟩ := (members first).mp (mem_of_mem_head? here)
  refine ⟨linked, head, tail, fun j => (members j).trans ?_, key, ?_, ?_⟩
  · simp only [Probe.update_none_iff, and_assoc, exists_and_left]
  · simp [TableChain.borrow, head, here, update_of_ne other, there]
  · simp [TableChain.borrow, head, here, there]

def moved (live : Nat → Option (DsKey K)) (src dst : Nat) : Nat → Option (DsKey K) :=
  update (update live dst (live src)) src none

theorem moved_iff (other : src ≠ dst) (free : live dst = none) (j : Nat) (key : DsKey K) :
    moved live src dst j = some key ↔ (j ≠ src ∧ live j = some key) ∨ (j = dst ∧ live src = some key) := by
  unfold moved
  by_cases gone : j = src
  · subst gone
    simp [other]
  · rw [update_of_ne gone]
    by_cases here : j = dst
    · subst here
      simp [free]
    · simp [here, gone]

theorem move_lists {c' : TableChain} {l₁ l₂ : List Nat} (L : Lists next live k.bytes c (l₁ ++ src :: l₂))
    (there : live src = some k) (other : src ≠ dst) (free : live dst = none)
    (linked : Links.Linked next' (l₁ ++ dst :: l₂)) (head : c'.head = (l₁ ++ dst :: l₂).head?)
    (tail : c'.tail = if c.tail = src then dst else c.tail) (key : c'.key = c.key) :
    Lists next' (moved live src dst) k.bytes c' (l₁ ++ dst :: l₂) := by
  refine ⟨linked, head, ?_, fun j => ?_, ?_⟩
  · have last := L.tail
    rw [tail]
    cases l₂ with
    | nil =>
      have here : src = c.tail := by simpa using last
      simp [here]
    | cons b l₂ =>
      have later : (b :: l₂).getLast? = some c.tail := by simpa using last
      have apart : c.tail ≠ src := ((L.linked.mem_rest _).mp (by simp [mem_of_getLast? later])).1
      simpa [apart] using later
  · have rest := L.linked.mem_rest j
    have member := L.members j
    simp only [moved_iff other free]
    constructor
    · intro inside
      rcases mem_cons.mp (perm_middle.mem_iff.mp inside) with here | inside
      · exact ⟨k, .inr ⟨here, there⟩, rfl⟩
      · obtain ⟨apart, inside⟩ := rest.mp inside
        obtain ⟨key, at_j, bytes⟩ := member.mp inside
        exact ⟨key, .inl ⟨apart, at_j⟩, bytes⟩
    · rintro ⟨key, ⟨apart, at_j⟩ | ⟨rfl, _⟩, bytes⟩
      · have inside := rest.mpr ⟨apart, member.mpr ⟨key, at_j, bytes⟩⟩
        exact perm_middle.mem_iff.mpr (mem_cons_of_mem _ inside)
      · simp
  · obtain ⟨first, at_first, p⟩ := L.borrowed
    refine ⟨first, ?_, p.trans key.symm⟩
    rw [L.head] at at_first
    rw [head]
    cases l₁ with
    | nil =>
      have here : live src = some first := by simpa using at_first
      exact (moved_iff other free _ _).mpr (.inr ⟨rfl, here⟩)
    | cons a l₁ =>
      have here : live a = some first := by simpa using at_first
      have apart : a ≠ src := ((L.linked.mem_rest _).mp (by simp)).1
      exact (moved_iff other free _ _).mpr (.inl ⟨apart, here⟩)

end Lists

/-- A step that gives the key `b` a new chain number, or takes its number away, and leaves
the chains of the other keys as they are. -/
theorem Chained.step (C : Chained hash s live) {b : K} {o : Option Nat} (valid : s'.ix.Valid hash)
    (capacity : Capacity s'.chainCap) (room : s'.chain.length ≤ s'.chainCap)
    (hashed : ∀ i key, live' i = some key → key.h = hash key.bytes)
    (get : ixGet hash s'.ix = update (ixGet hash s.ix) b o)
    (own : ∀ c, o = some c → (c < s'.chain.length ∧ ∃ l, Lists s'.next live' b (s'.chainAt c) l) ∧
      ∀ k, ixGet hash s.ix k = some c → k = b)
    (gone : o = none → ∀ i key, live' i = some key → key.bytes ≠ b)
    (kept : ∀ k c, k ≠ b → ixGet hash s.ix k = some c → c < s.chain.length →
      c < s'.chain.length ∧ s'.chainAt c = s.chainAt c)
    (same : ∀ i key, key.bytes ≠ b → (live' i = some key ↔ live i = some key))
    (links : ∀ i key, live i = some key → key.bytes ≠ b → s'.next i = s.next i) : Chained hash s' live' := by
  refine ⟨valid, capacity, room, hashed, fun k c found => ?_, fun i key there => ?_, fun k k' c found found' => ?_⟩
  · rw [get] at found
    by_cases here : k = b
    · subst here
      rw [update_self] at found
      exact (own c found).1
    · rw [update_of_ne here] at found
      obtain ⟨inside, l, L⟩ := C.lists k c found
      obtain ⟨inside', chain⟩ := kept k c here found inside
      refine ⟨inside', l, ?_⟩
      rw [chain]
      exact L.frame (fun i key bytes => same i key (bytes ▸ here)) fun i key there bytes =>
        links i key there (bytes ▸ here)
  · rw [get]
    by_cases bytes : key.bytes = b
    · rw [bytes, update_self]
      cases o with
      | none => exact absurd bytes (gone rfl i key there)
      | some c => exact ⟨c, rfl⟩
    · rw [update_of_ne bytes]
      exact C.found i key ((same i key bytes).mp there)
  · rw [get] at found found'
    by_cases here : k = b <;> by_cases here' : k' = b
    · rw [here, here']
    · rw [here, update_self] at found
      rw [update_of_ne here'] at found'
      exact here.trans ((own c found).2 k' found').symm
    · rw [here', update_self] at found'
      rw [update_of_ne here] at found
      exact ((own c found').2 k found).trans here'.symm
    · rw [update_of_ne here] at found
      rw [update_of_ne here'] at found'
      exact C.apart _ _ _ found found'

theorem Chained.change (C : Chained hash s live) {c : Nat}
    (found : ixGet hash s.ix k = some c) {ch : TableChain}
    (L : Lists next' live' k ch l)
    (same : ∀ i key, key.bytes ≠ k → (live' i = some key ↔ live i = some key))
    (links : ∀ i key, live i = some key → key.bytes ≠ k → next' i = s.next i)
    (hashed : ∀ i key, live' i = some key → key.h = hash key.bytes) :
    Chained hash { s with next := next', chain := s.chain.set c ch } live' := by
  have inside := (C.lists k c found).1
  refine C.step C.valid C.capacity (by simpa using C.room) hashed (o := some c) ?_ ?_ (by simp) ?_ same links
  · rw [← found, update_eq_self]
  · rintro _ ⟨⟩
    refine ⟨⟨by simpa using inside, l, ?_⟩, fun k' found' => C.apart _ _ _ found' found⟩
    simpa [Slices.chainAt, inside] using L
  · intro k' c' other found' inside'
    have number : c ≠ c' := fun h => other (C.apart _ _ _ found' (h ▸ found))
    simpa [Slices.chainAt, number] using inside'

variable {k : DsKey K}

section

variable (C : Chained hash s live)
include C

theorem tableChainAdd_chained (hk : k.h = hash k.bytes) (new : live i = none)
    {mem : Nat → Bool}
    (added : tableChainAdd s k i mem = some s') :
    Chained hash s' (update live i (some k)) := by
  have elsewhere := @update_elsewhere K live i (some k) k.bytes (by simp [new]) (by rintro _ ⟨⟩; rfl)
  have hashes : ∀ j key, update live i (some k) j = some key → key.h = hash key.bytes := fun j key there => by
    rcases Probe.update_some_iff.mp there with ⟨_, rfl⟩ | ⟨_, old⟩
    · exact hk
    · exact C.hashed j key old
  have distinct : ∀ j key, live j = some key → j ≠ i := fun j key there here => by
    rw [here, new] at there
    contradiction
  simp only [tableChainAdd, hk] at added
  cases found : ixFind s.ix (hash k.bytes) k.bytes with
  | some pos =>
    simp only [found, some.injEq] at added
    obtain ⟨_, _, get⟩ := ixFind_some C.valid.sound found
    obtain ⟨_, l, L⟩ := C.lists _ _ get
    obtain ⟨front, cut⟩ := getLast?_eq_some_iff.mp L.tail
    have out : i ∉ l := L.not_mem fun key there => absurd rfl (distinct i key there)
    rw [← added]
    refine C.change get (l := l ++ [i]) ⟨?_, ?_, ?_, fun j => ?_, ?_⟩ elsewhere ?_ hashes
    · rw [cut] at out L ⊢
      exact L.linked.concat out
    · rw [head?_append_of_ne_nil _ (by simp [cut])]
      exact L.head
    · simp
    · rw [mem_append, L.members]
      by_cases here : j = i <;> simp [here]
    · obtain ⟨key, there, p⟩ := L.borrowed
      obtain ⟨j, first, there⟩ := bind_eq_some_iff.mp there
      refine ⟨key, bind_eq_some_iff.mpr ⟨j, first, ?_⟩, p⟩
      rw [update_of_ne (distinct j key there)]
      exact there
    · intro j key there other
      have last : (s.chainAt (s.ix.idxAt pos)).tail ∈ l := mem_of_getLast? L.tail
      have apart : j ≠ (s.chainAt (s.ix.idxAt pos)).tail := fun same => by
        obtain ⟨key', there', bytes⟩ := (L.members j).mp (same ▸ last)
        rw [there, some.injEq] at there'
        exact other (there' ▸ bytes)
      rw [update_of_ne apart, update_of_ne (distinct j key there)]
  | none =>
    simp only [found] at added
    cases reserved : dsReserve s.chainCap (s.chain.length + 1) tableChainSize (mem 0) with
    | none => simp [reserved] at added
    | some cap =>
      simp only [reserved] at added
      obtain ⟨ix, inserted, rfl⟩ := map_eq_some_iff.mp added
      obtain ⟨enough, _, capacity⟩ := dsReserve_sound C.capacity reserved
      have absent := ixFind_none.mp found
      obtain ⟨valid, _, get⟩ := ixInsert_get C.valid absent inserted
      refine C.step valid capacity (by simpa using enough) hashes get ?_ (by simp) ?_ elsewhere
        fun j key there _ => update_of_ne (distinct j key there) ..
      · rintro _ ⟨⟩
        refine ⟨⟨by simp, [i], (Links.Linked.nil _).cons (by simp), ?_, ?_, fun j => ?_, ?_⟩, fun k' got => ?_⟩
        · simp [Slices.chainAt]
        · simp [Slices.chainAt]
        · rw [mem_singleton]
          constructor
          · rintro rfl
            exact ⟨k, update_self .., rfl⟩
          · rintro ⟨key, there, bytes⟩
            by_contra other
            rw [update_of_ne other] at there
            obtain ⟨c, got⟩ := C.found j key there
            rw [bytes, absent] at got
            contradiction
        · exact ⟨k, by simp [Slices.chainAt], by simp [Slices.chainAt]⟩
        · -- The new chain's number is above every number in use.
          exact absurd (C.lists _ _ got).1 (Nat.lt_irrefl _)
      · intro k' c _ _ inside
        refine ⟨by simp; omega, ?_⟩
        simp [Slices.chainAt, getElem?_append_left inside]

theorem Chained.at (there : live i = some k) :
    ∃ pos l, ixFind s.ix k.h k.bytes = some pos ∧ ixGet hash s.ix k.bytes = some (s.ix.idxAt pos) ∧
      Lists s.next live k.bytes (s.chainAt (s.ix.idxAt pos)) l ∧ i ∈ l := by
  obtain ⟨number, get⟩ := C.found i k there
  rw [C.hashed i k there]
  cases found : ixFind s.ix (hash k.bytes) k.bytes with
  | none =>
    rw [ixFind_none.mp found] at get
    contradiction
  | some pos =>
    have same := (ixFind_some C.valid.sound found).2.2
    obtain ⟨_, l, L⟩ := C.lists _ _ same
    exact ⟨pos, l, rfl, same, L, L.of_live there rfl⟩

theorem tableChainUnlink_chained (there : live i = some k) (below : ∀ i key, live i = some key → i < n) :
    Chained hash (tableChainUnlink s live (n + 1) i) (update live i none) := by
  obtain ⟨pos, l, found, get, L, member⟩ := C.at there
  have short := L.length_le below
  have elsewhere := @update_elsewhere K live i none k.bytes (by simp [there]) (by simp)
  have hashed : ∀ j key, update live i none j = some key → key.h = hash key.bytes := fun j key at_j =>
    C.hashed j key (Probe.update_none_iff.mp at_j).2
  simp only [tableChainUnlink, there, found]
  by_cases first : (s.chainAt (s.ix.idxAt pos)).head = some i
  · rw [if_pos first]
    obtain ⟨rest, cut⟩ := L.first first
    have whole : Links.Linked s.next ([] ++ i :: rest) := cut ▸ L.linked
    have suffix : Links.Linked s.next ([i] ++ rest) := whole
    have members : ∀ j, j ∈ rest ↔ j ≠ i ∧ ∃ key, live j = some key ∧ key.bytes = k.bytes := fun j => by
        rw [← L.members, cut]
        exact whole.mem_rest j
    by_cases last : (s.chainAt (s.ix.idxAt pos)).tail = i
    · -- The only record of the key: the slot goes.
      rw [if_pos last]
      have alone : rest = [] := by
        have tail := L.tail
        rw [last, cut] at tail
        by_contra more
        rw [getLast?_cons_of_ne_nil more] at tail
        exact ((members i).mp (mem_of_getLast? tail)).1 rfl
      obtain ⟨valid, _, _, erased⟩ := ixErase_get C.valid (C.hashed i k there ▸ found)
      refine C.step valid C.capacity C.room hashed erased (by simp) (fun _ j key at_j bytes => ?_)
        (fun _ _ _ _ inside => ⟨inside, rfl⟩) elsewhere fun _ _ _ _ => rfl
      obtain ⟨gone, at_j⟩ := Probe.update_none_iff.mp at_j
      have := (members j).mpr ⟨gone, key, at_j, bytes⟩
      simp [alone] at this
    · rw [if_neg last]
      have more : rest ≠ [] := fun none => by
        have tail := L.tail
        rw [cut, none, getLast?_singleton, some.injEq] at tail
        exact last tail.symm
      refine C.change get (l := rest) ?_ elsewhere (fun _ _ _ _ => rfl) hashed
      refine borrow_lists suffix.suffix whole.next_eq ?_ members
      have tail := L.tail
      rwa [cut, getLast?_cons_of_ne_nil more] at tail
  · rw [if_neg first]
    obtain ⟨l₁, p, l₂, cut, walk⟩ := L.linked.walk_before member (L.head ▸ first) (n + 1) (by omega)
    rw [L.head, walk]
    have linked : Links.Linked s.next (l₁ ++ p :: i :: l₂) := cut ▸ L.linked
    have split : Links.Linked s.next ((l₁ ++ [p]) ++ i :: l₂) := by simpa using linked
    refine C.change get (l := l₁ ++ p :: l₂) ?_ elsewhere (fun j key at_j other => ?_) hashed
    · refine borrow_lists linked.drop ?_ ?_ fun j => ?_
      · show l.head? = _
        rw [cut]
        cases l₁ <;> rfl
      · exact linked.last_rest (cut ▸ L.tail)
      · rw [← L.members, cut]
        simpa using split.mem_rest j
    · have apart : j ≠ p := fun here => by
        obtain ⟨key', at_p, bytes⟩ := (L.members j).mp (by simp [cut, here])
        rw [at_j, some.injEq] at at_p
        exact other (at_p ▸ bytes)
      exact update_of_ne apart ..

theorem tableChainMove_chained (there : live src = some k) (free : live dst = none)
    (below : ∀ i key, live i = some key → i < n) :
    Chained hash (tableChainMove s k (n + 1) src dst) (moved live src dst) := by
  obtain ⟨pos, l, found, get, L, member⟩ := C.at there
  have short := L.length_le below
  have other : src ≠ dst := fun same => by
    rw [same, free] at there
    contradiction
  have new : dst ∉ l := L.not_mem fun key h => by rw [free] at h; contradiction
  have elsewhere : ∀ j key, key.bytes ≠ k.bytes → (moved live src dst j = some key ↔ live j = some key) :=
    fun j key apart => by
      rw [moved_iff other free, there]
      constructor
      · rintro (⟨_, h⟩ | ⟨_, h⟩)
        · exact h
        · exact absurd (some.inj h ▸ rfl) apart
      · intro h
        refine .inl ⟨fun same => ?_, h⟩
        rw [same, there] at h
        exact apart (some.inj h ▸ rfl)
  have hashed : ∀ j key, moved live src dst j = some key → key.h = hash key.bytes := fun j key h => by
    rcases (moved_iff other free _ _).mp h with ⟨_, h⟩ | ⟨_, h⟩
    · exact C.hashed _ _ h
    · exact C.hashed _ _ h
  -- Only links inside the chain and the link of the free number change.
  have apart : ∀ j key, live j = some key → key.bytes ≠ k.bytes → j ∉ l ∧ j ≠ dst := fun j key at_j differ => by
      refine ⟨L.not_mem fun key' h => ?_, fun same => ?_⟩
      · rw [at_j, some.injEq] at h
        exact h ▸ differ
      · rw [same, free] at at_j
        contradiction
  simp only [tableChainMove, found]
  by_cases first : (s.chainAt (s.ix.idxAt pos)).head = some src
  · rw [if_pos first]
    obtain ⟨rest, cut⟩ := L.first first
    rw [cut] at new L
    have split : Lists s.next live k.bytes (s.chainAt (s.ix.idxAt pos)) ([] ++ src :: rest) := L
    refine C.change get (move_lists split there other free (L.linked.replaceHead new) rfl rfl rfl)
      elsewhere (fun j key at_j differ => ?_) hashed
    exact update_of_ne (apart j key at_j differ).2 ..
  · rw [if_neg first]
    obtain ⟨l₁, p, l₂, cut, walk⟩ := (L.linked.frame new (s.next src)).walk_before member
      (L.head ▸ first) (n + 1) (by omega)
    rw [L.head, walk]
    have inside : p ∈ l := by simp [cut]
    rw [cut] at new
    have split : Lists s.next live k.bytes (s.chainAt (s.ix.idxAt pos)) ((l₁ ++ [p]) ++ src :: l₂) := by
      rw [← append_cons, ← cut]
      exact L
    have linked := (cut ▸ L.linked).replace new
    rw [append_cons] at linked
    refine C.change get (move_lists split there other free linked ?_ rfl rfl) elsewhere
      (fun j key at_j differ => ?_) hashed
    · show l.head? = _
      rw [cut]
      cases l₁ <;> rfl
    · obtain ⟨out, fresh⟩ := apart j key at_j differ
      have behind : j ≠ p := fun same => out (same ▸ inside)
      dsimp only
      rw [update_of_ne behind, update_of_ne fresh]

end

structure Slices.Fresh (s : Slices K) (n : Nat) : Prop where
  used : s.ix.used ≤ n
  chains : s.chain.length ≤ n
  unshrunk : s.ix.Unshrunk

omit [DecidableEq K] in
theorem slicesEmpty_fresh : (slicesEmpty : Slices K).Fresh 0 := ⟨Nat.le_refl _, Nat.le_refl _, ixEmpty_unshrunk⟩

theorem Slices.Fresh.add (F : s.Fresh n) (C : Chained hash s live)
    (hk : k.h = hash k.bytes) {mem : Nat → Bool}
    (added : tableChainAdd s k i mem = some s') : s'.Fresh (n + 1) := by
  have used := F.used
  have chains := F.chains
  simp only [tableChainAdd, hk] at added
  cases found : ixFind s.ix (hash k.bytes) k.bytes with
  | some pos =>
    simp only [found, some.injEq] at added
    subst added
    exact ⟨by dsimp only; omega, by simp; omega, F.unshrunk⟩
  | none =>
    simp only [found] at added
    cases reserved : dsReserve s.chainCap (s.chain.length + 1) tableChainSize (mem 0) with
    | none => simp [reserved] at added
    | some cap =>
      simp only [reserved] at added
      obtain ⟨ix, inserted, rfl⟩ := map_eq_some_iff.mp added
      obtain ⟨_, more, _⟩ := ixInsert_get C.valid (ixFind_none.mp found) inserted
      exact ⟨by dsimp only; omega, by simp; omega, F.unshrunk.insert C.valid inserted⟩

/-- As many keys as the table can have records find room in fresh slices. -/
theorem Slices.Fresh.succeeds (F : s.Fresh n) (C : Chained hash s live)
    (few : n < 375809640) (hk : k.h = hash k.bytes) (i : Nat) (mem : Nat → Bool)
    (granted : mem 0 = true ∧ mem 1 = true) : ∃ s', tableChainAdd s k i mem = some s' := by
  have used := F.used
  have chains := F.chains
  simp only [tableChainAdd, hk]
  cases found : ixFind s.ix (hash k.bytes) k.bytes with
  | some pos => exact ⟨_, rfl⟩
  | none =>
    have room : (dsReserve s.chainCap (s.chain.length + 1) tableChainSize true).isSome :=
      dsReserve_succeeds C.capacity (by omega) (by decide) (by decide)
    obtain ⟨cap, reserved⟩ := isSome_iff_exists.mp room
    obtain ⟨ix, inserted⟩ := F.unshrunk.insert_succeeds C.valid (by omega) k.bytes s.chain.length
    simp only [granted, reserved, inserted]
    exact ⟨_, rfl⟩

end DynaJS.Ds
