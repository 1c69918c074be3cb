import DynaJS.Lib.Chain

/-! `dyn_btree` of `dyn-ds.c`: a B+tree whose leaves are linked both ways. Nodes
split on the way up and are never merged, so a leaf may be empty. -/
namespace DynaJS.Ds

open Function (update)
open DynaJS.Chain (walk)

def btreeOrder : Nat := 32

def btreeMaxChain : Nat := 16

def btreeMid : Nat := btreeOrder / 2

/-- A tree and its nodes in memory, one map for each field of `btree_node`. A leaf
has its keys and values in `cells`; `n` is the length of the list in use. Addresses
from `used` on are free. `count` is a `uint32_t`. -/
structure Btree (K V : Type) where
  parent : Nat → Option Nat
  leaf : Nat → Bool
  cells : Nat → List (K × V)
  keys : Nat → List K
  kids : Nat → List Nat
  next : Nat → Option Nat
  prev : Nat → Option Nat
  used : Nat
  root : Nat
  count : Nat

variable {K V : Type}

variable (t : Btree K V)

def Btree.keyArray (nd : Nat) : List K :=
  if t.leaf nd then (t.cells nd).map Prod.fst else t.keys nd

def Btree.n (nd : Nat) : Nat := (t.keyArray nd).length

def btreeNew : Btree K V where
  parent _ := none
  leaf _ := true
  cells _ := []
  keys _ := []
  kids _ := []
  next _ := none
  prev _ := none
  used := 1
  root := 0
  count := 0

def btreeSize : Nat := t.count

section Search

variable [LinearOrder K]

def btreeLower : List K → K → Nat
  | [], _ => 0
  | x :: xs, k => if x < k then btreeLower xs k + 1 else 0

def findLeafLoop (t : Btree K V) (k : K) : Nat → Nat → Nat
  | 0, nd => nd
  | fuel + 1, nd =>
    if t.leaf nd then nd
    else
      let i := btreeLower (t.keys nd) k
      let i := if (t.keys nd)[i]? = some k then i + 1 else i
      findLeafLoop t k fuel ((t.kids nd).getD i 0)

def btreeFindLeaf (k : K) : Nat := findLeafLoop t k t.used t.root

def cellAt (nd : Nat) (k : K) : Option (K × V) :=
  (t.cells nd)[btreeLower (t.keyArray nd) k]?.filter fun c => c.1 = k

def btreeGet (k : K) : Option V := (cellAt t (btreeFindLeaf t k) k).map Prod.snd

end Search

section Split

def btreeInsInternal (nd pos : Nat) (key : K) (kid : Nat) : Btree K V := { t with
    keys := update t.keys nd ((t.keys nd).take pos ++ key :: (t.keys nd).drop pos)
    kids := update t.kids nd ((t.kids nd).take (pos + 1) ++ kid :: (t.kids nd).drop (pos + 1))
    parent := update t.parent kid (some nd) }

/-- The loop of `btree_split` that takes the new nodes: their number, and the node it
stops at. Node `nn` of the call is had when `ok nn`; the fuel is what is left of
`btreeMaxChain`. -/
def preLoop (t : Btree K V) (ok : Nat → Bool) : Nat → Nat → Nat → Option (Nat × Nat)
  | 0, _, _ => none
  | fuel + 1, p, nn =>
    if ok nn then
      match t.parent p with
      | none => some (nn + 1, p)
      | some q => if t.n q ≠ btreeOrder - 1 then some (nn + 1, q) else preLoop t ok fuel q (nn + 1)
    else none

def splitLeaf [Inhabited K] (nd right : Nat) : Btree K V × K :=
  let moved := (t.cells nd).drop btreeMid
  let prev := match t.next nd with
    | none => t.prev
    | some x => update t.prev x (some right)
  ({ t with
      leaf := update t.leaf right true
      cells := update (update t.cells right moved) nd ((t.cells nd).take btreeMid)
      prev := update prev right (some nd)
      next := update (update t.next right (t.next nd)) nd (some right) },
    (moved.map Prod.fst).headD default)

def splitInner [Inhabited K] (nd right : Nat) : Btree K V × K :=
  let moved := (t.kids nd).drop (btreeMid + 1)
  ({ t with
      leaf := update t.leaf right false
      keys := update (update t.keys right ((t.keys nd).drop (btreeMid + 1))) nd ((t.keys nd).take btreeMid)
      kids := update (update t.kids right moved) nd ((t.kids nd).take (btreeMid + 1))
      parent := fun a => if a ∈ moved then some right else t.parent a },
    (t.keys nd).getD btreeMid default)

def splitRoot (root nd right : Nat) (up : K) : Btree K V := { t with
    leaf := update t.leaf root false
    keys := update t.keys root [up]
    kids := update t.kids root [nd, right]
    parent := update (update (update t.parent root none) nd (some root)) right (some root)
    root := root }

variable [LinearOrder K] [Inhabited K]

def splitLoop (newRoot : Nat) : List Nat → Nat → Btree K V → Btree K V
  | [], _, t => t
  | right :: pre, nd, t =>
    if t.n nd = btreeOrder then
      let half := if t.leaf nd then splitLeaf t nd right else splitInner t nd right
      match half.1.parent nd with
      | none => splitRoot half.1 newRoot nd right half.2
      | some par =>
        splitLoop newRoot pre par (btreeInsInternal half.1 par (btreeLower (half.1.keys par) half.2) half.2 right)
    else t

def btreeSplit (nd : Nat) (ok : Nat → Bool) : Option (Btree K V) :=
  if t.n nd ≠ btreeOrder then some t
  else
    match preLoop t ok btreeMaxChain nd 0 with
    | none => none
    | some (nn, p) =>
      if (t.parent p).isNone ∧ ¬ ok nn then none
      else some (splitLoop (t.used + nn) (List.range' t.used nn) nd { t with used := t.used + nn + 1 })

def btreeSet (k : K) (v : V) (ok : Nat → Bool) : Int × Option V × Btree K V :=
  let nd := btreeFindLeaf t k
  let i := btreeLower (t.keyArray nd) k
  match cellAt t nd k with
  | some (x, old) => (0, some old, { t with cells := update t.cells nd ((t.cells nd).set i (x, v)) })
  | none =>
    let t := { t with
      cells := update t.cells nd ((t.cells nd).take i ++ (k, v) :: (t.cells nd).drop i)
      count := (t.count + 1) % 2 ^ 32 }
    match btreeSplit t nd ok with
    | none =>
      (-1, none, { t with
        cells := update t.cells nd ((t.cells nd).eraseIdx i)
        count := (t.count + (2 ^ 32 - 1)) % 2 ^ 32 })
    | some t => (0, none, t)

def btreeDel (k : K) : Option V × Btree K V :=
  let nd := btreeFindLeaf t k
  let i := btreeLower (t.keyArray nd) k
  match cellAt t nd k with
  | none => (none, t)
  | some (_, v) =>
    (some v, { t with
      cells := update t.cells nd ((t.cells nd).eraseIdx i)
      count := (t.count + (2 ^ 32 - 1)) % 2 ^ 32 })

end Split

section Iterators

structure BtreeIter where
  leaf : Option Nat
  i : Nat

def leftmostLoop (t : Btree K V) : Nat → Nat → Nat
  | 0, nd => nd
  | fuel + 1, nd => if t.leaf nd then nd else leftmostLoop t fuel ((t.kids nd).getD 0 0)

variable (t : Btree K V)

def btreeLeftmost : Nat := leftmostLoop t t.used t.root

def rightmostLoop (t : Btree K V) : Nat → Nat → Nat
  | 0, nd => nd
  | fuel + 1, nd => if t.leaf nd then nd else rightmostLoop t fuel ((t.kids nd).getD (t.n nd) 0)

def skipEmpty (nd : Option Nat) : Option Nat := walk t.next (fun a => t.n a ≠ 0) (t.used + 1) nd

def btreeIterBegin : BtreeIter := ⟨skipEmpty t (some (btreeLeftmost t)), 0⟩

def seekLoop (t : Btree K V) : Nat → Option Nat → Nat → BtreeIter
  | 0, _, i => ⟨none, i⟩
  | _ + 1, none, i => ⟨none, i⟩
  | fuel + 1, some nd, i =>
    if t.n nd ≤ i then seekLoop t fuel (skipEmpty t (t.next nd)) 0 else ⟨some nd, i⟩

def btreeIterGet (it : BtreeIter) : Option (K × V) := it.leaf.bind fun nd => (t.cells nd)[it.i]?

def nextLoop (t : Btree K V) : Nat → Option Nat → Nat → BtreeIter
  | 0, _, i => ⟨none, i⟩
  | _ + 1, none, i => ⟨none, i⟩
  | fuel + 1, some nd, i => if t.n nd ≤ i then nextLoop t fuel (t.next nd) 0 else ⟨some nd, i⟩

def btreeIterNext (it : BtreeIter) : BtreeIter :=
  match it.leaf with
  | none => it
  | some nd => nextLoop t (t.used + 1) (some nd) (it.i + 1)

def btreeIterRead (t : Btree K V) : Nat → BtreeIter → List (K × V)
  | 0, _ => []
  | fuel + 1, it =>
    match btreeIterGet t it with
    | none => []
    | some c => c :: btreeIterRead t fuel (btreeIterNext t it)

def btreeFirst : Option K := (btreeIterGet t (btreeIterBegin t)).map Prod.fst

def btreeLast : Option K :=
  (walk t.prev (fun a => t.n a ≠ 0) (t.used + 1) (some (rightmostLoop t t.used t.root))).bind
    fun nd => (t.keyArray nd)[t.n nd - 1]?

def writeKeys (out : Nat → Option K) (n : Nat) (l : List K) : Nat → Option K :=
  fun j => if n ≤ j ∧ j < n + l.length then l[j - n]? else out j

def keysLoop (t : Btree K V) : Nat → Option Nat → Nat → (Nat → Option K) → Nat × (Nat → Option K)
  | 0, _, n, out => (n, out)
  | _ + 1, none, n, out => (n, out)
  | fuel + 1, some nd, n, out =>
    if t.n nd ≠ 0 then
      keysLoop t fuel (t.next nd) ((n + t.n nd) % 2 ^ 32) (writeKeys out n (t.keyArray nd))
    else keysLoop t fuel (t.next nd) n out

def btreeGetKeys : Nat × (Nat → Option K) := keysLoop t (t.used + 1) (some (btreeLeftmost t)) 0 fun _ => none

variable [LinearOrder K]

def btreeIterSeek (k : K) : BtreeIter :=
  let nd := btreeFindLeaf t k
  seekLoop t (t.used + 1) (some nd) (btreeLower (t.keyArray nd) k)

def btreeCeil (k : K) : Option K := (btreeIterGet t (btreeIterSeek t k)).map Prod.fst

def floorLoop (t : Btree K V) : Nat → Option Nat → Nat → BtreeIter
  | 0, _, i => ⟨none, i⟩
  | _ + 1, none, i => ⟨none, i⟩
  | fuel + 1, some nd, i =>
    if i = 0 then floorLoop t fuel (t.prev nd) (((t.prev nd).map t.n).getD 0) else ⟨some nd, i⟩

def btreeFloor (k : K) : Option K :=
  let nd := btreeFindLeaf t k
  let i := btreeLower (t.keyArray nd) k
  if (t.keyArray nd)[i]? = some k then some k
  else
    let it := floorLoop t (t.used + 1) (some nd) i
    it.leaf.bind fun nd => if it.i = 0 then none else (t.keyArray nd)[it.i - 1]?

end Iterators

end DynaJS.Ds
