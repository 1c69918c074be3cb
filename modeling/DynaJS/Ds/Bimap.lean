import DynaJS.Ds.Records

/-! The bimap of `dyn-ds.c`: one record array with a forward and a reverse index. Keys
and values are byte strings there and of any one type with decidable equality here.
The `n`-th value of `mem` is the outcome of the `n`-th allocation a call makes. -/
namespace DynaJS.Ds

open List

structure BimapRec (K : Type) where
  key : K
  kh : Nat
  val : K
  vh : Nat
deriving DecidableEq

structure Bimap (K : Type) where
  recs : List (BimapRec K)
  cap : Nat
  fwd : Ix K
  rev : Ix K

def bimapRecSize : Nat := 48

def valueTaken : Int := 1

variable {K : Type} [DecidableEq K]

def bimapNew : Bimap K := ⟨[], 0, ixEmpty, ixEmpty⟩

def bimapClear (b : Bimap K) : Bimap K := { b with recs := [], fwd := ixEmpty, rev := ixEmpty }

def bimapErase (b : Bimap K) (idx : Nat) : Bimap K :=
  match b.recs[idx]? with
  | none => b
  | some r =>
    let fwd := ixDiscard b.fwd r.kh r.key
    let rev := ixDiscard b.rev r.vh r.val
    let recs := swapRemove b.recs idx
    if idx ≠ b.recs.length - 1 then
      match recs[idx]? with
      | none => { b with recs := recs, fwd := fwd, rev := rev }
      | some s =>
        { b with recs := recs, fwd := ixMove fwd s.kh s.key idx, rev := ixMove rev s.vh s.val idx }
    else { b with recs := recs, fwd := fwd, rev := rev }

/-- The block `dyn_bimap_put` has twice: record `idx` gets the value `v`. The result of
the final `ix_insert` is not looked at. -/
def bimapRevalue (b : Bimap K) (idx vh : Nat) (v : K) (ok : Bool) : Bimap K :=
  match b.recs[idx]? with
  | none => b
  | some r =>
    let rev := ixDiscard b.rev r.vh r.val
    { b with
      recs := b.recs.set idx { r with val := v, vh := vh }
      rev := (ixInsert rev vh v idx ok).getD rev }

def putBoth (b : Bimap K) (kh : Nat) (k : K) (vh : Nat) (v : K) (mem : Nat → Bool) : Int × Bimap K :=
  match ixReserve b.rev (mem 0) with
  | none => (-1, b)
  | some rev =>
    let b := { b with rev := rev }
    if ¬ mem 1 then (-1, b)
    else
      match ixFind b.rev vh v with
      | none => (0, b)
      | some vp =>
        let b := bimapErase b (b.rev.idxAt vp)
        match ixFind b.fwd kh k with
        | none => (0, b)
        | some kp => (0, bimapRevalue b (b.fwd.idxAt kp) vh v (mem 2))

def putTaken (b : Bimap K) (kh : Nat) (k : K) (vh : Nat) (v : K) (mem : Nat → Bool) : Int × Bimap K :=
  match dsReserve b.cap (b.recs.length + 1) bimapRecSize (mem 0) with
  | none => (-1, b)
  | some cap =>
    let b := { b with cap := cap }
    if ¬ (mem 1 ∧ mem 2) then (-1, b)
    else
      match ixReserve b.fwd (mem 3) with
      | none => (-1, b)
      | some fwd =>
        let b := { b with fwd := fwd }
        match ixReserve b.rev (mem 4) with
        | none => (-1, b)
        | some rev =>
          let b := { b with rev := rev }
          match ixFind b.rev vh v with
          | none => (0, b)
          | some vp =>
            let b := bimapErase b (b.rev.idxAt vp)
            (0, { b with
              recs := b.recs ++ [⟨k, kh, v, vh⟩]
              fwd := (ixInsert b.fwd kh k b.recs.length (mem 5)).getD b.fwd
              rev := (ixInsert b.rev vh v b.recs.length (mem 6)).getD b.rev })

def putValue (b : Bimap K) (idx vh : Nat) (v : K) (mem : Nat → Bool) : Int × Bimap K :=
  match ixReserve b.rev (mem 0) with
  | none => (-1, b)
  | some rev =>
    let b := { b with rev := rev }
    if ¬ mem 1 then (-1, b) else (0, bimapRevalue b idx vh v (mem 2))

def putNew (b : Bimap K) (kh : Nat) (k : K) (vh : Nat) (v : K) (mem : Nat → Bool) : Int × Bimap K :=
  match dsReserve b.cap (b.recs.length + 1) bimapRecSize (mem 0) with
  | none => (-1, b)
  | some cap =>
    let b := { b with cap := cap }
    if ¬ (mem 1 ∧ mem 2) then (-1, b)
    else
      match ixInsert b.fwd kh k b.recs.length (mem 3) with
      | none => (-1, b)
      | some fwd =>
        match ixInsert b.rev vh v b.recs.length (mem 4) with
        | none => (-1, { b with fwd := ixDiscard fwd kh k })
        | some rev => (0, { b with recs := b.recs ++ [⟨k, kh, v, vh⟩], fwd := fwd, rev := rev })

variable (hash : K → Nat)

def bimapPut (b : Bimap K) (k v : K) (force : Bool) (mem : Nat → Bool) : Int × Bimap K :=
  match ixFind b.fwd (hash k) k, ixFind b.rev (hash v) v with
  | some kp, some vp =>
    if b.fwd.idxAt kp = b.rev.idxAt vp then (0, b)
    else if ¬ force then (valueTaken, b)
    else putBoth b (hash k) k (hash v) v mem
  | none, some _ =>
    if ¬ force then (valueTaken, b) else putTaken b (hash k) k (hash v) v mem
  | some kp, none => putValue b (b.fwd.idxAt kp) (hash v) v mem
  | none, none => putNew b (hash k) k (hash v) v mem

def bimapGet (b : Bimap K) (k : K) : Option K :=
  match ixFind b.fwd (hash k) k with
  | none => none
  | some p => (b.recs[b.fwd.idxAt p]?).map BimapRec.val

def bimapKeyFor (b : Bimap K) (v : K) : Option K :=
  match ixFind b.rev (hash v) v with
  | none => none
  | some p => (b.recs[b.rev.idxAt p]?).map BimapRec.key

def bimapRemove (b : Bimap K) (k : K) : Int × Bimap K :=
  match ixFind b.fwd (hash k) k with
  | none => (0, b)
  | some p => (1, bimapErase b (b.fwd.idxAt p))

def bimapRemoveValue (b : Bimap K) (v : K) : Int × Bimap K :=
  match ixFind b.rev (hash v) v with
  | none => (0, b)
  | some p => (1, bimapErase b (b.rev.idxAt p))

structure Bimap.Valid (b : Bimap K) : Prop where
  fwd : Indexes hash b.fwd (b.recs.map BimapRec.key)
  rev : Indexes hash b.rev (b.recs.map BimapRec.val)
  hashes : ∀ r ∈ b.recs, r.kh = hash r.key ∧ r.vh = hash r.val
  capacity : Capacity b.cap
  room : b.recs.length ≤ b.cap

variable {hash}

theorem bimapNew_valid : (bimapNew : Bimap K).Valid hash :=
  ⟨indexes_empty, indexes_empty, by simp [bimapNew], .inl rfl, Nat.le_refl _⟩

variable {b : Bimap K}

theorem bimapClear_valid (v : b.Valid hash) : (bimapClear b).Valid hash :=
  ⟨indexes_empty, indexes_empty, by simp [bimapClear], v.capacity, Nat.zero_le _⟩

variable {idx : Nat} {r : BimapRec K}

theorem bimap_finds (v : b.Valid hash) (there : b.recs[idx]? = some r) :
    (∃ p, ixFind b.fwd (hash r.key) r.key = some p ∧ b.fwd.idxAt p = idx) ∧
    (∃ p, ixFind b.rev (hash r.val) r.val = some p ∧ b.rev.idxAt p = idx) := by
  have key : ixGet hash b.fwd r.key = some idx := (v.fwd.get _ _).mpr (by simp [there])
  have val : ixGet hash b.rev r.val = some idx := (v.rev.get _ _).mpr (by simp [there])
  exact ⟨Option.map_eq_some_iff.mp key, Option.map_eq_some_iff.mp val⟩

section Hashed

variable {idx : Nat} {r : BimapRec K} (hashes : ∀ r ∈ b.recs, r.kh = hash r.key ∧ r.vh = hash r.val)
  (there : b.recs[idx]? = some r)
include hashes there

theorem bimapErase_eq {last : BimapRec K} (at_end : b.recs[b.recs.length - 1]? = some last) :
    bimapErase b idx = { b with
      recs := swapRemove b.recs idx
      fwd := if idx ≠ b.recs.length - 1 then
          ixMove (ixDiscard b.fwd (hash r.key) r.key) (hash last.key) last.key idx
        else ixDiscard b.fwd (hash r.key) r.key
      rev := if idx ≠ b.recs.length - 1 then
          ixMove (ixDiscard b.rev (hash r.val) r.val) (hash last.val) last.val idx
        else ixDiscard b.rev (hash r.val) r.val } := by
  have hash_r := hashes r (mem_of_getElem? there)
  have hash_l := hashes last (mem_of_getElem? at_end)
  have inside := (List.getElem?_eq_some_iff.mp there).1
  simp only [bimapErase, there, hash_r.1, hash_r.2]
  split_ifs with hole
  · rw [swapRemove_getElem? inside, if_pos (by omega), if_pos rfl, at_end]
    simp only [hash_l.1, hash_l.2]
  · rfl

omit [DecidableEq K] in
theorem revalued (w : K) :
    (b.recs.set idx { r with val := w, vh := hash w }).map BimapRec.key = b.recs.map BimapRec.key ∧
    (b.recs.set idx { r with val := w, vh := hash w }).map BimapRec.val = (b.recs.map BimapRec.val).set idx w ∧
    ∀ s ∈ b.recs.set idx { r with val := w, vh := hash w }, s.kh = hash s.key ∧ s.vh = hash s.val := by
  refine ⟨?_, map_set, fun s hs => ?_⟩
  · rw [map_set]
    exact set_of_getElem? (by simp [there])
  · rcases mem_or_eq_of_mem_set hs with old | rfl
    · exact hashes s old
    · exact ⟨(hashes r (mem_of_getElem? there)).1, rfl⟩

end Hashed

theorem bimapErase_spec (v : b.Valid hash) (there : b.recs[idx]? = some r) :
    (bimapErase b idx).Valid hash ∧ (bimapErase b idx).recs = swapRemove b.recs idx ∧
    (bimapErase b idx).fwd.cap = b.fwd.cap ∧ (bimapErase b idx).rev.cap = b.rev.cap := by
  have inside : idx < b.recs.length := (List.getElem?_eq_some_iff.mp there).1
  obtain ⟨last, _, at_end⟩ := getLast?_of_lt inside
  obtain ⟨⟨p, found, hp⟩, ⟨q, found', hq⟩⟩ := bimap_finds v there
  have fwd := v.fwd.swapRemove found (by rw [length_map, getElem?_map, at_end]; rfl)
  have rev := v.rev.swapRemove found' (by rw [length_map, getElem?_map, at_end]; rfl)
  rw [length_map, hp, ← map_swapRemove _ inside] at fwd
  rw [length_map, hq, ← map_swapRemove _ inside] at rev
  have kept : ∀ s ∈ swapRemove b.recs idx, s ∈ b.recs := fun s hs =>
    (perm_swapRemove there).mem_iff.mpr (mem_cons_of_mem _ hs)
  have fwd_cap := (ixErase_get v.fwd.valid found).2.2.1
  have rev_cap := (ixErase_get v.rev.valid found').2.2.1
  rw [bimapErase_eq v.hashes there at_end]
  simp only [ixDiscard, found, found']
  refine ⟨⟨fwd, rev, fun s hs => v.hashes s (kept s hs), v.capacity, ?_⟩, trivial, ?_, ?_⟩
  · have := v.room
    show (swapRemove b.recs idx).length ≤ b.cap
    rw [swapRemove_length inside]
    omega
  · split_ifs
    · rw [(ixMove_get (ixErase_get v.fwd.valid found).1 last.key idx).2.2.1, fwd_cap]
    · exact fwd_cap
  · split_ifs
    · rw [(ixMove_get (ixErase_get v.rev.valid found').1 last.val idx).2.2.1, rev_cap]
    · exact rev_cap

theorem bimapErase_cap (b : Bimap K) (idx : Nat) : (bimapErase b idx).cap = b.cap := by
  unfold bimapErase
  split
  · rfl
  · dsimp only
    split_ifs
    · split <;> rfl
    · rfl

/-- A record gets a new value, given that the reverse index takes it without growing. -/
theorem bimapRevalue_spec (v : b.Valid hash) {w : K}
    (there : b.recs[idx]? = some r) (free : ixGet hash b.rev w = none) (low : b.rev.cap ≤ 2 ^ 29)
    (light : b.rev.used * 10 < b.rev.cap * 7) (ok : Bool) :
    (bimapRevalue b idx (hash w) w ok).Valid hash ∧
    (bimapRevalue b idx (hash w) w ok).recs = b.recs.set idx { r with val := w, vh := hash w } ∧
    (bimapRevalue b idx (hash w) w ok).fwd = b.fwd ∧
    (bimapRevalue b idx (hash w) w ok).rev.cap = b.rev.cap := by
  obtain ⟨_, ⟨q, found, hq⟩⟩ := bimap_finds v there
  have hash_r := v.hashes r (mem_of_getElem? there)
  obtain ⟨valid, used, cap, _⟩ := ixErase_get v.rev.valid found
  obtain ⟨ix', inserted, size⟩ := ixInsert_light (by rw [cap]; exact low) (by rw [cap]; omega) (hash w) w idx ok
  have result : bimapRevalue b idx (hash w) w ok =
      { b with recs := b.recs.set idx { r with val := w, vh := hash w }, rev := ix' } := by
    simp only [bimapRevalue, there, ixDiscard, hash_r.2, found, inserted, Option.getD_some]
  have index := v.rev.replace found free (by rw [hq]; exact inserted)
  rw [hq] at index
  obtain ⟨keys, vals, hashes⟩ := revalued v.hashes there w
  rw [result]
  refine ⟨⟨by dsimp only; rw [keys]; exact v.fwd, by dsimp only; rw [vals]; exact index, hashes,
    v.capacity, by simpa using v.room⟩, rfl, rfl, size⟩

end DynaJS.Ds
