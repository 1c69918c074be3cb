import DynaJS.Ds.Reserve

/-! The min-max heap of `dyn-ds.c`. Priorities are the doubles other than NaN: a
total preorder, in which the two zeros are equal without being the same value. -/
namespace DynaJS.Ds

structure MmNode (P V : Type) where
  pri : P
  val : V

structure Mmheap (P V : Type) where
  v : Nat → MmNode P V
  len : Nat
  cap : Nat

def mmnodeSize : Nat := 24

variable {P V : Type} [Preorder P] [DecidableLT P] [DecidableLE P]

/-- `mm_is_min_level`: the level is the position of the top bit of `i + 1`. -/
def mmIsMinLevel (i : Nat) : Bool := Nat.log2 (i + 1) % 2 = 0

variable (h : Mmheap P V)

def mmSwap (i j : Nat) : Mmheap P V :=
  { h with v := fun k => if k = i then h.v j else if k = j then h.v i else h.v k }

variable (wantMax : Bool)

/-- The comparison every loop makes: strictly greater on the way to the maximum,
strictly less on the way to the minimum. -/
def better (a b : P) : Bool := if wantMax then b < a else a < b

def mmBubbleUpDir : Nat → Mmheap P V → Nat → Bool → Mmheap P V
  | 0, h, _, _ => h
  | fuel + 1, h, i, wantMax =>
    if 3 ≤ i then
      let g := (i - 3) / 4
      if better wantMax (h.v i).pri (h.v g).pri then
        mmBubbleUpDir fuel (mmSwap h i g) g wantMax
      else h
    else h

def mmBubbleUp (i : Nat) : Mmheap P V :=
  if i = 0 then h
  else
    let p := (i - 1) / 2
    if mmIsMinLevel i then
      if (h.v p).pri < (h.v i).pri then mmBubbleUpDir i (mmSwap h i p) p true
      else mmBubbleUpDir i h i false
    else
      if (h.v i).pri < (h.v p).pri then mmBubbleUpDir i (mmSwap h i p) p false
      else mmBubbleUpDir i h i true

def bestGrandchild (best : Nat × Bool) (g : Nat) : Nat × Bool :=
  if g < h.len ∧ better wantMax (h.v g).pri (h.v best.1).pri then (g, true) else best

def bestOr (best : Option (Nat × Bool)) (c : Nat) : Nat × Bool :=
  match best with
  | none => (c, false)
  | some b => if better wantMax (h.v c).pri (h.v b.1).pri then (c, false) else b

def bestChild (best : Option (Nat × Bool)) (c : Nat) : Option (Nat × Bool) :=
  if c < h.len then
    let best := bestOr h wantMax best c
    some (bestGrandchild h wantMax (bestGrandchild h wantMax best (2 * c + 1)) (2 * c + 2))
  else best

def mmBestDescendant (i : Nat) (wantMax : Bool) : Option (Nat × Bool) :=
  bestChild h wantMax (bestChild h wantMax none (2 * i + 1)) (2 * i + 2)

def mmTrickleDownDir : Nat → Mmheap P V → Nat → Bool → Mmheap P V
  | 0, h, _, _ => h
  | fuel + 1, h, i, wantMax =>
    match mmBestDescendant h i wantMax with
    | none => h
    | some (m, isGc) =>
      if ¬ isGc then
        if better wantMax (h.v m).pri (h.v i).pri then mmSwap h m i else h
      else if ¬ better wantMax (h.v m).pri (h.v i).pri then h
      else
        let h := mmSwap h m i
        let p := (m - 1) / 2
        let h := if better wantMax (h.v p).pri (h.v m).pri then mmSwap h m p else h
        mmTrickleDownDir fuel h m wantMax

def mmTrickleDown (i : Nat) : Mmheap P V := mmTrickleDownDir h.len h i !(mmIsMinLevel i)

def mmheapNew (memory : Nat → MmNode P V) : Mmheap P V := ⟨memory, 0, 0⟩

def mmheapPush (pri : P) (val : V) (ok : Bool) : Int × Mmheap P V :=
  match dsReserve h.cap (h.len + 1) mmnodeSize ok with
  | none => (-1, h)
  | some cap =>
    (0, mmBubbleUp ⟨fun k => if k = h.len then ⟨pri, val⟩ else h.v k, h.len + 1, cap⟩ h.len)

def mmMaxIndex : Nat :=
  if h.len ≤ 1 then 0
  else if h.len = 2 then 1
  else if (h.v 2).pri ≤ (h.v 1).pri then 1 else 2

def mmPopAt (i : Nat) : Option (MmNode P V × Mmheap P V) :=
  if h.len = 0 then none
  else
    let top := h.v i
    let h := { h with len := h.len - 1 }
    if i ≠ h.len then
      some (top, mmTrickleDown { h with v := fun k => if k = i then h.v h.len else h.v k } i)
    else some (top, h)

def mmheapPopMin : Option (MmNode P V × Mmheap P V) := mmPopAt h 0

def mmheapPopMax : Option (MmNode P V × Mmheap P V) := mmPopAt h (mmMaxIndex h)

def mmheapPeekMin : Option (MmNode P V) := if h.len = 0 then none else some (h.v 0)

def mmheapPeekMax : Option (MmNode P V) :=
  if h.len = 0 then none else some (h.v (mmMaxIndex h))

def Mmheap.nodes : Multiset (MmNode P V) := (Multiset.range h.len).map h.v

end DynaJS.Ds
