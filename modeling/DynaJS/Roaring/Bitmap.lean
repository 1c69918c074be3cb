import DynaJS.Roaring.Container

/-! The roaring bitmap of `dyna-structures-db.inc.c`: a list of containers ordered by
key, with its single-value, range and set operations. Values are below 2^32. -/
namespace DynaJS.Roaring

open DynaJS.BitSet

structure Rb where
  c : List Ct
  cap : Nat

/-- The outcome of every allocation of an operation, by the key at hand and the
place in the code. -/
abbrev Heap := Nat → Memory

variable (r : Rb)

def Rb.keys : List Nat := r.c.map Ct.key

def rbFind (key : Nat) : Bool × Nat :=
  let lo := Search.lowerBound (fun m => ¬ r.keys.getD m 0 < key) 0 r.keys.length
  (lo < r.keys.length ∧ r.keys.getD lo 0 = key, lo)

/-- The doubling loop of `rb_reserve`. There are at most 65536 keys, so the
capacity stays far below 2^32. -/
def doubleCap (need : Nat) : Nat → Nat → Nat
  | 0, ncap => ncap
  | fuel + 1, ncap => if ncap < need then doubleCap need fuel (ncap * 2) else ncap

def rbReserve (need : Nat) (mem : Memory) : Option Rb :=
  if need ≤ r.cap then some r
  else if mem .reserve then
    some { r with cap := doubleCap need need (if r.cap = 0 then 4 else r.cap * 2) }
  else none

def insertAt (pos key : Nat) (mem : Memory) : Option Rb := (rbReserve r (r.c.length + 1) mem).map fun r =>
    { r with c := r.c.take pos ++ ⟨key, .none, 0, 0⟩ :: r.c.drop pos }

variable (pos : Nat)

def removeAt : Rb := { r with c := r.c.eraseIdx pos }

def setAt (c : Ct) : Rb := { r with c := r.c.set pos c }

/-- The container at a position; type 0 past the end, which no caller reaches. -/
def Rb.at : Ct := r.c.getD pos ⟨0, .none, 0, 0⟩

def addArray (c : Ct) (a : List Nat) (lo : Nat) (mem : Memory) : Int × Rb :=
  let found := if c.card ≠ 0 ∧ a.getD (c.card - 1) 0 < lo then (false, c.card) else arrHas a lo
  let grown := a.take found.2 ++ lo :: a.drop found.2
  if found.1 then (0, r)
  else if c.card = arrMax then
    if mem .words then
      (1, setAt r pos { c with body := .bmp (setBit (arrToWords a) lo), card := c.card + 1 })
    else (-1, r)
  else if c.card = c.cap then
    if mem .grow then
      let ncap := if arrMax < c.cap * 2 then arrMax else c.cap * 2
      (1, setAt r pos { c with body := .arr grown, card := c.card + 1, cap := ncap })
    else (-1, r)
  else (1, setAt r pos { c with body := .arr grown, card := c.card + 1 })

def rbAdd (x : Nat) (heap : Heap) : Int × Rb :=
  let hi := x / chunkSize
  let lo := x % chunkSize
  let find := rbFind r hi
  let pos := find.2
  if ¬ find.1 then
    match insertAt r pos hi (heap hi) with
    | none => (-1, r)
    | some r =>
      if heap hi .array then (1, setAt r pos ⟨hi, .arr [lo], 1, 4⟩) else (-1, removeAt r pos)
  else
    let c := r.at pos
    match c.body with
    | .full => (0, r)
    | .bmp w =>
      if bit w lo then (0, r)
      else if c.card + 1 = chunkSize then (1, setAt r pos { c with body := .full, card := c.card + 1 })
      else (1, setAt r pos { c with body := .bmp (setBit w lo), card := c.card + 1 })
    | .arr a => addArray r pos c a lo (heap hi)
    | .none => (0, r)

def removeBit (c : Ct) (w : Words) (lo : Nat) (mem : Memory) : Int × Rb :=
  if ¬ bit w lo then (0, setAt r pos { c with body := .bmp w })
  else
    let w := clearBit w lo
    let card := c.card - 1
    if card ≤ arrMax then
      match adoptWords { c with card := card } w card mem with
      | none => (-1, removeAt r pos)
      | some t => (1, setAt r pos t)
    else (1, setAt r pos { c with body := .bmp w, card := card })

def rbRemove (x : Nat) (heap : Heap) : Int × Rb :=
  let hi := x / chunkSize
  let lo := x % chunkSize
  let find := rbFind r hi
  let pos := find.2
  if ¬ find.1 then (0, r)
  else
    let c := r.at pos
    match c.body with
    | .arr a =>
      let found := arrHas a lo
      if ¬ found.1 then (0, r)
      else if c.card - 1 = 0 then (1, removeAt r pos)
      else (1, setAt r pos { c with body := .arr (a.eraseIdx found.2), card := c.card - 1 })
    | .full => if heap hi .words then removeBit r pos c rbOnes lo (heap hi) else (-1, r)
    | .bmp w => removeBit r pos c w lo (heap hi)
    | .none => (0, r)

def rbHas (x : Nat) : Bool :=
  let find := rbFind r (x / chunkSize)
  find.1 && ctHas (r.at find.2) (x % chunkSize)

def fillLoop (add : Bool) (b : Nat) : Nat → Nat → Words → Words
  | 0, _, w => w
  | fuel + 1, i, w =>
    if i ≤ b then
      if i % 64 = 0 ∧ i + 63 ≤ b then
        fillLoop add b fuel (i + 64) (update w (i / 64) (if add then BitVec.allOnes 64 else 0))
      else fillLoop add b fuel (i + 1) (if add then setBit w i else clearBit w i)
    else w

/-- One round of the loop of `rb_range`: the values from `a` to `b` of chunk `k`.
The flag is false when the round returns -1. -/
def rangeChunk (k a b : Nat) (add : Bool) (mem : Memory) : Bool × Rb :=
  let find := rbFind r k
  let pos := find.2
  if a = 0 ∧ b = chunkSize - 1 then
    if ¬ add then (true, if find.1 then removeAt r pos else r)
    else if find.1 then (true, setAt r pos { r.at pos with body := .full, card := chunkSize })
    else
      match insertAt r pos k mem with
      | none => (false, r)
      | some r => (true, setAt r pos { r.at pos with body := .full, card := chunkSize })
  else if ¬ find.1 ∧ ¬ add then (true, r)
  else if mem .words = false then (false, r)
  else
    let old := if find.1 then wordsOf (r.at pos).body else fun _ => 0
    let w := fillLoop add b (b + 1) a old
    match (if find.1 then some r else insertAt r pos k mem) with
    | none => (false, r)
    | some r =>
      match adoptWords { r.at pos with body := .none, card := 0 } w (popcnt w) mem with
      | none => (false, removeAt r pos)
      | some t => (true, if t.card = 0 then removeAt r pos else setAt r pos t)

def chunkLow (lo k : Nat) : Nat := if k = lo / chunkSize then lo % chunkSize else 0

def chunkHigh (hi k : Nat) : Nat :=
  if k = (hi - 1) / chunkSize then (hi - 1) % chunkSize else chunkSize - 1

def rangeLoop (lo hi : Nat) (add : Bool) (heap : Heap) : List Nat → Rb → Int × Rb
  | [], r => (0, r)
  | k :: rest, r =>
    match rangeChunk r k (chunkLow lo k) (chunkHigh hi k) add (heap k) with
    | (false, r) => (-1, r)
    | (true, r) => rangeLoop lo hi add heap rest r

def chunks (lo hi : Nat) : List Nat := List.range' (lo / chunkSize) ((hi - 1) / chunkSize + 1 - lo / chunkSize)

def rbRange (lo hi : Nat) (add : Bool) (heap : Heap) : Int × Rb :=
  if hi ≤ lo then (0, r) else rangeLoop lo hi add heap (chunks lo hi) r

def rbCard : Nat := (r.c.map Ct.card).sum

def moved (c : Ct) : Ct := { c with body := .none }

def push (nr : Rb) (out : Ct) (mem : Memory) : Option Rb :=
  (rbReserve nr (nr.c.length + 1) mem).map fun nr => { nr with c := nr.c ++ [out] }

def place (nr : Rb) (made : Option (Nat × Ct)) (mem : Memory) : Option Rb :=
  match made with
  | none => none
  | some (card, out) => if card = 0 then some nr else push nr out mem

/-- The loop of `rb_op`. `done` holds the containers of `a` it has passed, as it
left them; an allocation that fails ends with these and the rest of `a`. -/
def opLoop (op : RbOp) (heap : Heap) (done : List Ct) : List Ct → List Ct → Rb → List Ct ⊕ Rb
  | [], [], nr => .inr nr
  | a :: as, [], nr =>
    if op = .and then .inr nr
    else
      match push nr a (heap a.key) with
      | none => .inl (done ++ a :: as)
      | some nr => opLoop op heap (done ++ [moved a]) as [] nr
  | [], b :: bs, nr =>
    if op = .and ∨ op = .andnot then .inr nr
    else
      match place nr (ctOpOne b false op (heap b.key)) (heap b.key) with
      | none => .inl done
      | some nr => opLoop op heap done [] bs nr
  | a :: as, b :: bs, nr =>
    if a.key < b.key then
      if op = .and then opLoop op heap (done ++ [a]) as (b :: bs) nr
      else
        match push nr a (heap a.key) with
        | none => .inl (done ++ a :: as)
        | some nr => opLoop op heap (done ++ [moved a]) as (b :: bs) nr
    else if b.key < a.key then
      if op = .and ∨ op = .andnot then opLoop op heap done (a :: as) bs nr
      else
        match place nr (ctOpOne b false op (heap b.key)) (heap b.key) with
        | none => .inl (done ++ a :: as)
        | some nr => opLoop op heap done (a :: as) bs nr
    else
      match place nr (ctOpBoth a b op (heap a.key)) (heap a.key) with
      | none => .inl (done ++ a :: as)
      | some nr => opLoop op heap (done ++ [a]) as bs nr
termination_by as bs => as.length + bs.length

def rbOp (a b : Rb) (op : RbOp) (heap : Heap) : Int × Rb :=
  match opLoop op heap [] a.c b.c ⟨[], 0⟩ with
  | .inl c => (-1, { a with c := c })
  | .inr nr => (0, nr)

def rbOpSelf (a : Rb) (op : RbOp) : Int × Rb :=
  if op = .xor ∨ op = .andnot then (0, ⟨[], 0⟩) else (0, a)

def opCardLoop (op : RbOp) : List Ct → List Ct → Nat
  | [], [] => 0
  | a :: as, [] => ctOpCardOne a true op + opCardLoop op as []
  | [], b :: bs => ctOpCardOne b false op + opCardLoop op [] bs
  | a :: as, b :: bs =>
    if a.key = b.key then ctOpCardBoth a b op + opCardLoop op as bs
    else if a.key < b.key then ctOpCardOne a true op + opCardLoop op as (b :: bs)
    else ctOpCardOne b false op + opCardLoop op (a :: as) bs
termination_by as bs => as.length + bs.length

def rbOpCard (a b : Rb) (op : RbOp) : Nat := opCardLoop op a.c b.c

def rbClone (src : Rb) (heap : Heap) : Option Rb :=
  match rbReserve ⟨[], 0⟩ src.c.length (heap chunkSize) with
  | none => none
  | some dst => (src.c.mapM fun c => ctCopy c (heap c.key)).map fun c => { dst with c := c }

end DynaJS.Roaring
