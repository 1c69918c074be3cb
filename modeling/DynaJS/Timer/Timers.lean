import DynaJS.Lib.Heap
import DynaJS.Lib.Links

/-! The timers of `dyn-timer.c`: a binary heap of nodes by deadline and sequence number,
and a table of slots through which an id leads to its node. `C` stands for a callback
with its argument. -/
namespace DynaJS.Timer

structure TNode (C : Type) where
  deadline : Nat
  seq : Nat
  cb : C
  id : Nat
deriving DecidableEq

/-- `tslot_t`; `NO_POS` is `none`. -/
structure TSlot where
  pos : Option Nat
  gen : Nat
  nextFree : Option Nat
deriving DecidableEq

structure Timers (C : Type) where
  h : Nat → TNode C
  n : Nat
  cap : Nat
  slots : Nat → TSlot
  nslots : Nat
  slotCap : Nat
  freeHead : Option Nat
  seq : Nat

def idMake (idx gen : Nat) : Nat := gen <<< 32 ||| (idx + 1)

@[irreducible]
def idIndex (id : Nat) : Nat := (id % 2 ^ 32 + 2 ^ 32 - 1) % 2 ^ 32

def idGen (id : Nat) : Nat := id >>> 32 % 2 ^ 32

def timerMaxSlots : Nat := 2 ^ 20 - 1

def timerNone : Nat := 0

variable {C : Type}

/-- `dyn_timers_new`; the arrays are not allocated yet. -/
def timersNew (heap : Nat → TNode C) (slots : Nat → TSlot) : Timers C := ⟨heap, 0, 0, slots, 0, 0, none, 0⟩

def nodeLess (a b : TNode C) : Bool :=
  if a.deadline ≠ b.deadline then a.deadline < b.deadline else a.seq < b.seq

variable (t : Timers C)

def place (i : Nat) (v : TNode C) : Timers C := { t with
    h := Function.update t.h i v
    slots := Function.update t.slots (idIndex v.id) { t.slots (idIndex v.id) with pos := some i } }

def siftUpLoop (v : TNode C) : Nat → Nat → Timers C → Timers C
  | 0, i, t => place t i v
  | fuel + 1, i, t =>
    if 0 < i then
      let p := (i - 1) / 2
      if ¬ nodeLess v (t.h p) then place t i v
      else siftUpLoop v fuel p (place t i (t.h p))
    else place t i v

def siftUp (i : Nat) : Timers C := siftUpLoop (t.h i) i i t

def smaller (v : TNode C) (i : Nat) : Nat :=
  let l := 2 * i + 1
  let r := l + 1
  let m := if l < t.n ∧ nodeLess (t.h l) v then l else i
  if r < t.n ∧ nodeLess (t.h r) (if m = i then v else t.h l) then r else m

def siftDownLoop (v : TNode C) : Nat → Nat → Timers C → Timers C
  | 0, i, t => place t i v
  | fuel + 1, i, t =>
    let m := smaller t v i
    if m = i then place t i v else siftDownLoop v fuel m (place t i (t.h m))

def siftDown (i : Nat) : Timers C := siftDownLoop (t.h i) t.n i t

def growHeap (ok : Bool) : Option (Timers C) :=
  if ok then some { t with cap := if t.cap = 0 then 16 else t.cap * 2 } else none

def slotAlloc (ok : Bool) : Option (Nat × Timers C) :=
  match t.freeHead with
  | some idx => some (idx, { t with freeHead := (t.slots idx).nextFree })
  | none =>
    if timerMaxSlots ≤ t.nslots then none
    else if t.nslots = t.slotCap then
      if ok then
        let nc := if t.slotCap = 0 then 16 else t.slotCap * 2 % 2 ^ 32
        some (t.nslots, { t with
          slots := fun k => if t.slotCap ≤ k ∧ k < nc then ⟨some 0, 0, some 0⟩ else t.slots k
          slotCap := nc
          nslots := t.nslots + 1 })
      else none
    else some (t.nslots, { t with nslots := t.nslots + 1 })

def slotRelease (idx : Nat) : Timers C := { t with
    slots := Function.update t.slots idx ⟨none, ((t.slots idx).gen + 1) % 2 ^ 32, t.freeHead⟩
    freeHead := some idx }

def deadlineAt (now delay : Nat) : Nat :=
  if (now + delay) % 2 ^ 64 < now then 2 ^ 64 - 1 else (now + delay) % 2 ^ 64

/-- `dyn_timer_add`. The flags are the outcomes of the two `realloc` calls, should they be
made. -/
def timerAdd (now delay : Nat) (cb : Option C) (ok ok' : Bool) : Nat × Timers C :=
  match cb with
  | none => (timerNone, t)
  | some cb =>
    match if t.n = t.cap then growHeap t ok else some t with
    | none => (timerNone, t)
    | some t =>
      match slotAlloc t ok' with
      | none => (timerNone, t)
      | some (idx, t) =>
        let v : TNode C := ⟨deadlineAt now delay, t.seq, cb, idMake idx (t.slots idx).gen⟩
        let t := { t with seq := (t.seq + 1) % 2 ^ 64, n := t.n + 1 }
        (v.id, siftUp (place t (t.n - 1) v) (t.n - 1))

def heapRemoveAt (i : Nat) : Timers C :=
  let t := slotRelease t (idIndex (t.h i).id)
  let t := { t with n := t.n - 1 }
  if i = t.n then t
  else
    let t := siftDown (place t i (t.h t.n)) i
    if (t.slots (idIndex (t.h i).id)).pos = some i then siftUp t i else t

def timerCancel (id : Nat) : Int × Timers C :=
  if id = timerNone then (0, t)
  else
    let idx := idIndex id
    if t.nslots ≤ idx then (0, t)
    else
      match (t.slots idx).pos with
      | none => (0, t)
      | some pos => if (t.slots idx).gen ≠ idGen id then (0, t) else (1, heapRemoveAt t pos)

/-! Histories. A callback makes calls of its own, and the ids in them are whatever the
program has; so a run is given with the calls each of its callbacks makes. -/

inductive TimerCall (C : Type) where
  | add (now delay : Nat) (cb : Option C) (ok ok' : Bool)
  | cancel (id : Nat)

inductive TimerEvent (C : Type) where
  | added (x : TNode C)
  | popped (x : TNode C)
  | cancelled (x : TNode C)
deriving DecidableEq

structure History (C : Type) where
  timers : Timers C
  log : List (TimerEvent C)

def TimerCall.exec (s : History C) : TimerCall C → History C
  | .add now delay cb ok ok' =>
    let r := timerAdd s.timers now delay cb ok ok'
    match cb with
    | none => ⟨r.2, s.log⟩
    | some cb =>
      ⟨r.2, if r.1 = timerNone then s.log else s.log ++ [.added ⟨deadlineAt now delay, s.timers.seq, cb, r.1⟩]⟩
  | .cancel id =>
    let r := timerCancel s.timers id
    ⟨r.2, match (s.timers.slots (idIndex id)).pos with
      | none => s.log
      | some pos => if r.1 = 1 then s.log ++ [.cancelled (s.timers.h pos)] else s.log⟩

def History.pop (s : History C) : History C := ⟨heapRemoveAt s.timers 0, s.log ++ [.popped (s.timers.h 0)]⟩

/-- The loop of `dyn_timer_run`: whether it came to its end, the nodes it popped and the
history. The callback of the `k`-th popped node makes the `k`-th list of calls; where the
script ends early the loop is still running. -/
def runLoop (now : Nat) : List (List (TimerCall C)) → History C → Bool × List (TNode C) × History C
  | script, s =>
    if 0 < s.timers.n ∧ (s.timers.h 0).deadline ≤ now then
      match script with
      | [] => (false, [], s)
      | calls :: script =>
        let r := runLoop now script (calls.foldl TimerCall.exec s.pop)
        (r.1, s.timers.h 0 :: r.2.1, r.2.2)
    else (true, [], s)

inductive TimerOp (C : Type) where
  | call (c : TimerCall C)
  | run (now : Nat) (script : List (List (TimerCall C)))

def TimerOp.exec (s : History C) : TimerOp C → History C
  | .call c => c.exec s
  | .run now script => (runLoop now script s).2.2

def timersRun (heap : Nat → TNode C) (slots : Nat → TSlot) (ops : List (TimerOp C)) : History C :=
  ops.foldl TimerOp.exec ⟨timersNew heap slots, []⟩

end DynaJS.Timer
