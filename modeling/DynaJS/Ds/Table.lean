import DynaJS.Ds.Slices

/-! The table of `dyn-ds.c`: records under pairs of byte strings, found through an index
over the encoded pair, with the slices of rows and of columns built on the first query
and kept up afterwards. `hash` stands for `ix_hash`. -/
namespace DynaJS.Ds

structure TableRec (V : Type) where
  row : DsKey (List UInt8)
  col : DsKey (List UInt8)
  pair : DsKey (List UInt8)
  val : V
deriving DecidableEq

/-- `struct dyn_table`; the length of `recs` is `len`. `fresh` numbers the addresses of
the key copies. -/
structure Table (V : Type) where
  recs : List (TableRec V)
  cap : Nat
  ix : Ix (List UInt8)
  row : Slices (List UInt8)
  col : Slices (List UInt8)
  sliceCap : Nat
  sliced : Nat
  slicesValid : Bool
  fresh : Nat

def tableRecSize : Nat := 88

def tablePairInline : Nat := 192

variable {V : Type}

def tableNew : Table V := ⟨[], 0, ixEmpty, slicesEmpty, slicesEmpty, 0, 0, false, 0⟩

def TableRec.key (byColumn : Bool) (r : TableRec V) : DsKey (List UInt8) :=
  if byColumn then r.col else r.row

def Table.keyAt (t : Table V) (byColumn : Bool) (i : Nat) : Option (DsKey (List UInt8)) :=
  (t.recs[i]?).map (TableRec.key byColumn)

def Table.side (t : Table V) (byColumn : Bool) : Slices (List UInt8) :=
  if byColumn then t.col else t.row

def tableDropSlices (t : Table V) : Table V :=
  { t with row := slicesEmpty, col := slicesEmpty, sliceCap := 0, sliced := 0, slicesValid := false }

/-- `while (cap < t->len) cap *= 2` over `uint32_t` -/
def sliceCapFor (len : Nat) : Nat → Nat → Option Nat
  | 0, _ => none
  | fuel + 1, cap => if cap < len then sliceCapFor len fuel (cap * 2 % 2 ^ 32) else some cap

def sliceReserve (sliceCap len : Nat) (mem : Nat → Bool) : Option Nat :=
  if sliceCap < len then
    match sliceCapFor len 64 (if sliceCap = 0 then 16 else sliceCap) with
    | none => none
    | some cap => if mem 0 ∧ mem 1 then some cap else none
  else some sliceCap

def buildLoop (recs : List (TableRec V)) (mem : Nat → Bool) : Nat → Nat → Slices (List UInt8) × Slices (List UInt8) →
      Option (Slices (List UInt8) × Slices (List UInt8))
  | 0, _, s => some s
  | count + 1, i, (row, col) =>
    match recs[i]? with
    | none => some (row, col)
    | some r =>
      match tableChainAdd row r.row i (fun n => mem (4 * i + n)) with
      | none => none
      | some row =>
        match tableChainAdd col r.col i (fun n => mem (4 * i + 2 + n)) with
        | none => none
        | some col => buildLoop recs mem count (i + 1) (row, col)

def tableBuildSlices (t : Table V) (mem : Nat → Bool) : Int × Table V :=
  match sliceReserve t.sliceCap t.recs.length mem with
  | none => (-1, t)
  | some cap =>
    match buildLoop t.recs (fun n => mem (n + 2)) (t.recs.length - t.sliced) t.sliced (t.row, t.col) with
    | none => (-1, tableDropSlices { t with sliceCap := cap })
    | some (row, col) =>
      (0, { t with row := row, col := col, sliceCap := cap, sliced := t.recs.length, slicesValid := true })

/-- The bytes `table_pair_into` writes: the length of the row in eight bytes from the
lowest on, the row and the column. -/
def pairBytes (r c : List UInt8) : List UInt8 :=
  (List.range 8).map (fun i => UInt8.ofNat (r.length >>> (i * 8))) ++ r ++ c

def tablePairInto (inl : Bool) (r c : List UInt8) (ok : Bool) : Option (List UInt8) :=
  if (2 ^ 64 + (2 ^ 64 - 9) - c.length) % 2 ^ 64 < r.length then none
  else if inl && decide (8 + r.length + c.length ≤ tablePairInline) || ok then some (pairBytes r c)
  else none

def tablePair (r c : List UInt8) (ok : Bool) : Option (List UInt8) := tablePairInto false r c ok

variable (hash : List UInt8 → Nat)

def Table.sliceHead (t : Table V) (k : List UInt8) (byColumn : Bool) : Option Nat :=
  match ixFind (t.side byColumn).ix (hash k) k with
  | none => none
  | some pos => ((t.side byColumn).chainAt ((t.side byColumn).ix.idxAt pos)).head

def tableSliceFirst (t : Table V) (k : List UInt8) (byColumn : Bool) (mem : Nat → Bool) : Table V × Option Nat :=
  let built := if ¬ t.slicesValid ∨ t.sliced ≠ t.recs.length then tableBuildSlices t mem else (0, t)
  if built.1 < 0 then (built.2, none) else (built.2, built.2.sliceHead hash k byColumn)

def tableSliceNext (t : Table V) (byColumn : Bool) (i : Nat) : Option Nat :=
  if ¬ t.slicesValid ∨ t.recs.length ≤ i then none else (t.side byColumn).next i

/-- The loop of a caller: the record numbers from `dyn_table_slice_first` on, each next
one by `dyn_table_slice_next`; `none` when they do not end within the size of the table. -/
def tableSlice (t : Table V) (k : List UInt8) (byColumn : Bool) (mem : Nat → Bool) : Option (List Nat) :=
  let first := tableSliceFirst hash t k byColumn mem
  Links.follow (tableSliceNext first.1 byColumn) first.1.recs.length first.2

/-- `dyn_table_put`: the return code, the table and the value of `*old`, which only a
return code of 1 writes. -/
def tablePut (t : Table V) (r c : List UInt8) (v : V) (mem : Nat → Bool) : Int × Table V × Option V :=
  match tablePair r c (mem 0) with
  | none => (-1, t, none)
  | some pk =>
    match ixFind t.ix (hash pk) pk with
    | some pos =>
      let idx := t.ix.idxAt pos
      (1, { t with recs := t.recs.modify idx fun x => { x with val := v } }, (t.recs[idx]?).map TableRec.val)
    | none =>
      match dsReserve t.cap (t.recs.length + 1) tableRecSize (mem 1) with
      | none => (-1, t, none)
      | some cap =>
        let t := { t with cap := cap }
        if ¬ mem 2 ∨ ¬ mem 3 then (-1, t, none)
        else
          match ixInsert t.ix (hash pk) pk t.recs.length (mem 4) with
          | none => (-1, t, none)
          | some ix =>
            let x : TableRec V := ⟨⟨r, hash r, t.fresh⟩, ⟨c, hash c, t.fresh + 1⟩, ⟨pk, hash pk, t.fresh + 2⟩, v⟩
            let t := { t with recs := t.recs ++ [x], ix := ix, fresh := t.fresh + 3 }
            if t.slicesValid then
              let built := tableBuildSlices t fun n => mem (n + 5)
              (0, if built.1 < 0 then tableDropSlices built.2 else built.2, none)
            else (0, t, none)

def tableGet (t : Table V) (r c : List UInt8) (ok : Bool) : Option V :=
  match tablePairInto true r c ok with
  | none => none
  | some pk =>
    match ixFind t.ix (hash pk) pk with
    | none => none
    | some pos => (t.recs[t.ix.idxAt pos]?).map TableRec.val

def tableErase (t : Table V) (pos idx : Nat) : Table V :=
  let n := t.recs.length
  let unlink := fun (s : Slices (List UInt8)) byColumn =>
    if t.slicesValid then tableChainUnlink s (t.keyAt byColumn) (n + 1) idx else s
  let recs := swapRemove t.recs idx
  let t := { t with
    ix := ixErase t.ix pos
    row := unlink t.row false
    col := unlink t.col true
    recs := recs }
  let t := if idx ≠ n - 1 then
      match recs[idx]? with
      | none => t
      | some x =>
        let t := { t with ix := ixMove t.ix x.pair.h x.pair.bytes idx }
        if t.slicesValid then
          { t with
            row := tableChainMove t.row x.row (n + 1) (n - 1) idx
            col := tableChainMove t.col x.col (n + 1) (n - 1) idx }
        else t
    else t
  if t.slicesValid then { t with sliced := recs.length } else t

def tableRemove (t : Table V) (r c : List UInt8) (ok : Bool) : Int × Table V × Option V :=
  match tablePairInto true r c ok with
  | none => (0, t, none)
  | some pk =>
    match ixFind t.ix (hash pk) pk with
    | none => (0, t, none)
    | some pos =>
      let idx := t.ix.idxAt pos
      (1, tableErase t pos idx, (t.recs[idx]?).map TableRec.val)

end DynaJS.Ds
