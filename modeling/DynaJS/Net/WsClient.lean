import Mathlib.Tactic

/-! The WebSocket client: frames taken out of a buffer that grows with every block received, and
on which cuts of a stream into blocks the client depends. -/
namespace DynaJS.Net

open List Option

def maxReq : Nat := 1024 * 1024

def maxFragments : Nat := 4096

def ctlBudget : Int := 64

def outboundMax : Nat := 4 * 2 ^ 20

/-- What the client hands to the `message` handler, and the frames that it sends. -/
inductive WsEvent where
  | message (binary : Bool) (payload : List UInt8)
  | frame (opcode : Nat) (payload : List UInt8)
  deriving DecidableEq, Repr

/-- `dyn_wsc_t` but for its input; `report` is the code and the reason that the `close` handler gets. -/
structure Wsc where
  fragOp : Nat
  frag : List UInt8
  fragFrames : Nat
  budget : Int
  closeSent : Bool
  out : List WsEvent
  closed : Bool
  report : Option (Nat × String)
  deriving DecidableEq, Repr

def wscOpen : Wsc := ⟨0, [], 0, ctlBudget, false, [], false, none⟩

/-- What a handler may do with the client. -/
inductive WsCall where
  | send (binary : Bool) (data : List UInt8)
  | dispose

/-- The rest of the program: `simd.validate_utf8`, the bytes of `dyn_aio_queued`, whether the mask and the memory
for a frame can be had, and the calls of the `message` handler after these events. -/
structure WsEnv where
  valid : List UInt8 → Bool
  queued : List WsEvent → Nat
  entropy : List WsEvent → Bool
  memory : Wsc → Bool
  calls : List WsEvent → List WsCall

def wscClose (w : Wsc) (code : Nat) (reason : String) : Wsc :=
  if w.closed then w else { w with closed := true, report := some (code, reason) }

structure WsHead where
  fin : Bool
  opcode : Nat
  masked : Bool
  plen : Nat
  size : Nat

def bigEndian (l : List UInt8) : Nat := l.foldl (fun n b => n * 256 + b.toNat) 0

def wsHead : List UInt8 → Option WsHead
  | b :: c :: l =>
    let n := c.toNat % 128
    let ext := if n = 126 then 2 else if n = 127 then 8 else 0
    if l.length < ext then none
    else some ⟨128 ≤ b.toNat, b.toNat % 16, 128 ≤ c.toNat, if ext = 0 then n else bigEndian (l.take ext), 2 + ext⟩
  | _ => none

section Client

variable (env : WsEnv)

/-- `dyn_wsc_send_frame`; without a mask the client closes and tells nobody. -/
def wscSendFrame (w : Wsc) (opcode : Nat) (data : List UInt8) : Wsc :=
  if w.closed then w
  else if outboundMax < env.queued w.out + data.length + 16 then wscClose w 1008 "output backpressure"
  else if ¬env.entropy w.out then { w with closed := true }
  else if ¬env.memory w then wscClose w 1011 "out of memory while sending"
  else { w with out := w.out ++ [.frame opcode data] }

def wscCall (w : Wsc) : WsCall → Wsc
  | .send binary data => wscSendFrame env w (if binary then 2 else 1) data
  | .dispose =>
    if w.closed then w
    else wscClose (if w.closeSent then w else wscSendFrame env { w with closeSent := true } 8 []) 1000 ""

def wscDispatchMsg (w : Wsc) (opcode : Nat) (payload : List UInt8) : Wsc :=
  if opcode ≠ 2 ∧ ¬env.valid payload then wscClose w 1007 "invalid UTF-8 in text message"
  else
    let w := { w with out := w.out ++ [.message (opcode = 2) payload] }
    (env.calls w.out).foldl (wscCall env) w

def wscData (w : Wsc) (h : WsHead) (payload : List UInt8) : Wsc :=
  if h.opcode = 0 ∧ w.fragOp = 0 ∨ h.opcode ≠ 0 ∧ w.fragOp ≠ 0 then wscClose w 1002 "protocol error"
  else if h.opcode ≠ 0 ∧ h.fin then wscDispatchMsg env { w with budget := ctlBudget } h.opcode payload
  else
    let w := if h.opcode ≠ 0 then { w with fragOp := h.opcode, fragFrames := 0 } else w
    let w := { w with fragFrames := w.fragFrames + 1 }
    if maxFragments < w.fragFrames ∨ maxReq < w.frag.length + h.plen ∨ ¬env.memory w then wscClose w 1009 "too big"
    else
      let w := { w with frag := w.frag ++ payload }
      if h.fin then
        { wscDispatchMsg env { w with budget := ctlBudget } w.fragOp w.frag with
          frag := [], fragOp := 0, fragFrames := 0 }
      else w

def wscFrame (w : Wsc) (h : WsHead) (payload : List UInt8) : Wsc :=
  if h.opcode = 8 then
    let code := if 2 ≤ h.plen then bigEndian (payload.take 2) else 1000
    wscClose (if w.closeSent then w else wscSendFrame env { w with closeSent := true } 8 payload) code ""
  else if h.opcode = 9 then
    if w.budget - 1 < 0 then wscClose { w with budget := w.budget - 1 } 1002 "control flood"
    else wscSendFrame env { w with budget := w.budget - 1 } 10 payload
  else if h.opcode ≤ 2 then wscData env w h payload
  else w

/-- One round of the loop of `dyn_wsc_process` on the client and its input; `none` where it returns without
doing anything. What is left in the input of a closed client is not looked at again. -/
def wscStep (s : Wsc × List UInt8) : Option (Wsc × List UInt8) :=
  if s.1.closed then none
  else
    match wsHead s.2 with
    | none => none
    | some h =>
      if h.masked ∨ 8 ≤ h.opcode ∧ (125 < h.plen ∨ ¬h.fin) then some (wscClose s.1 1002 "protocol error", s.2)
      else if maxReq < h.plen then some (wscClose s.1 1009 "too big", s.2)
      else if s.2.length < h.size + h.plen then none
      else some (wscFrame env s.1 h ((s.2.drop h.size).take h.plen), s.2.drop (h.size + h.plen))

def wscLeft (s : Wsc × List UInt8) : Nat := s.2.length + if s.1.closed then 0 else 1

end Client

theorem wsHead_size {l : List UInt8} {h : WsHead} (head : wsHead l = some h) : 2 ≤ h.size ∧ h.size ≤ l.length := by
  unfold wsHead at head
  split at head
  · dsimp only at head
    split_ifs at head <;> cases some.inj head <;> simp <;> omega
  · contradiction

theorem wsHead_append {l : List UInt8} {h : WsHead} (head : wsHead l = some h) (more : List UInt8) :
    wsHead (l ++ more) = some h := by
  unfold wsHead at head
  split at head
  · rename_i b c l
    dsimp only at head
    rw [cons_append, cons_append, wsHead]
    generalize (if c.toNat % 128 = 126 then 2 else if c.toNat % 128 = 127 then 8 else 0) = ext at head ⊢
    by_cases short : l.length < ext
    · rw [if_pos short] at head
      contradiction
    · rw [if_neg short] at head
      rw [if_neg (by rw [length_append]; omega), take_append_of_le_length (by omega)]
      exact head
  · contradiction

section Client

variable {env : WsEnv} {s t : Wsc × List UInt8}

section

variable (goes : wscStep env s = some t)
include goes

theorem wscStep_open : s.1.closed = false := by
  by_contra shut
  rw [wscStep, if_pos (by simpa using shut)] at goes
  contradiction

theorem wscStep_less : t.2.length ≤ s.2.length ∧ wscLeft t < wscLeft s := by
  have opened := wscStep_open goes
  simp only [wscStep, opened] at goes
  cases head : wsHead s.2 with
  | none => simp [head] at goes
  | some h =>
    have size := wsHead_size head
    simp only [head] at goes
    rw [if_neg (by simp)] at goes
    split_ifs at goes <;> cases some.inj goes <;> simp [wscLeft, wscClose, opened]
    split <;> omega

/-- A round does not depend on what follows in the input. -/
theorem wscStep_append (more : List UInt8) : wscStep env (s.1, s.2 ++ more) = some (t.1, t.2 ++ more) := by
  have opened := wscStep_open goes
  simp only [wscStep, opened] at goes ⊢
  cases head : wsHead s.2 with
  | none => simp [head] at goes
  | some h =>
    simp only [head, wsHead_append head] at goes ⊢
    rw [if_neg (by simp)] at goes ⊢
    by_cases bad : h.masked ∨ 8 ≤ h.opcode ∧ (125 < h.plen ∨ ¬h.fin)
    · rw [if_pos bad] at goes ⊢
      cases some.inj goes
      rfl
    rw [if_neg bad] at goes ⊢
    by_cases large : maxReq < h.plen
    · rw [if_pos large] at goes ⊢
      cases some.inj goes
      rfl
    rw [if_neg large] at goes ⊢
    split_ifs at goes with short
    cases some.inj goes
    rw [if_neg (by rw [length_append]; omega), drop_append_of_le_length (by omega),
      take_append_of_le_length (by rw [length_drop]; omega), drop_append_of_le_length (by omega)]

end

variable (env)

def wscProcess (s : Wsc × List UInt8) : Wsc × List UInt8 :=
  match _ : wscStep env s with
  | none => s
  | some t => wscProcess t
termination_by wscLeft s
decreasing_by exact (wscStep_less ‹_›).2

/-- `dyn_wsc_on_recv` of a block, with the outcome of the append. -/
def wscOnRecv (s : Wsc × List UInt8) (block : List UInt8 × Bool) : Wsc × List UInt8 :=
  if ¬block.2 ∨ maxReq < (s.2 ++ block.1).length then (wscClose s.1 1009 "too big", s.2 ++ block.1)
  else wscProcess env (s.1, s.2 ++ block.1)

def wscFeed (s : Wsc × List UInt8) (blocks : List (List UInt8 × Bool)) : Wsc × List UInt8 :=
  blocks.foldl (wscOnRecv env) s

/-- What a server and a program see of a stream received in blocks: the messages and the frames sent, and how it
ended. -/
def wscSeen (blocks : List (List UInt8 × Bool)) : List WsEvent × Bool × Option (Nat × String) :=
  let w := (wscFeed env (wscOpen, []) blocks).1
  (w.out, w.closed, w.report)

def stream (blocks : List (List UInt8 × Bool)) : List UInt8 := blocks.flatMap Prod.fst

/-- Every block that comes while the client is open finds room in the buffer. -/
def Roomy (s : Wsc × List UInt8) : List (List UInt8 × Bool) → Prop
  | [] => True
  | block :: blocks => (s.1.closed = false → block.2 = true ∧ s.2.length + block.1.length ≤ maxReq) ∧
      Roomy (wscOnRecv env s block) blocks

variable {env}

theorem wscProcess_stuck (s : Wsc × List UInt8) : wscStep env (wscProcess env s) = none := by
  fun_induction wscProcess env s with
  | case1 s stuck => exact stuck
  | case2 s t goes ih => exact ih

theorem wscProcess_short (s : Wsc × List UInt8) : (wscProcess env s).2.length ≤ s.2.length := by
  fun_induction wscProcess env s with
  | case1 s stuck => exact le_rfl
  | case2 s t goes ih => exact ih.trans (wscStep_less goes).1

theorem wscProcess_next (goes : wscStep env s = some t) : wscProcess env s = wscProcess env t := by
  rw [wscProcess]
  split <;> simp_all

theorem wscProcess_rest (stuck : wscStep env s = none) : wscProcess env s = s := by
  rw [wscProcess]
  split <;> simp_all

/-- Processing what is there first makes no difference. -/
theorem wscProcess_append (s : Wsc × List UInt8) (more : List UInt8) :
    wscProcess env ((wscProcess env s).1, (wscProcess env s).2 ++ more) = wscProcess env (s.1, s.2 ++ more) := by
  fun_induction wscProcess env s with
  | case1 s stuck => rfl
  | case2 s t goes ih => rw [ih, wscProcess_next (wscStep_append goes more)]

theorem wscOnRecv_closed (shut : s.1.closed = true) (block : List UInt8 × Bool) :
    wscOnRecv env s block = (s.1, s.2 ++ block.1) := by
  unfold wscOnRecv
  split_ifs
  · rw [wscClose, if_pos shut]
  · exact wscProcess_rest (if_pos shut)

theorem wscOnRecv_fits {block : List UInt8 × Bool}
    (fits : s.1.closed = false → block.2 = true ∧ s.2.length + block.1.length ≤ maxReq) :
    wscOnRecv env s block = wscProcess env (s.1, s.2 ++ block.1) := by
  cases shut : s.1.closed with
  | true =>
    exact (wscOnRecv_closed shut block).trans (wscProcess_rest (s := (s.1, s.2 ++ block.1)) (if_pos shut)).symm
  | false =>
    obtain ⟨had, small⟩ := fits shut
    rw [wscOnRecv, if_neg]
    rw [length_append]
    simp only [had, not_true_eq_false, false_or]
    omega

/-- With room for every block it is as if the whole stream had come at once. -/
theorem wscFeed_roomy (stuck : wscStep env s = none) (blocks : List (List UInt8 × Bool)) (roomy : Roomy env s blocks) :
    wscFeed env s blocks = wscProcess env (s.1, s.2 ++ stream blocks) := by
  induction blocks generalizing s with
  | nil =>
    rw [stream, flatMap_nil, append_nil]
    exact (wscProcess_rest stuck).symm
  | cons block blocks ih =>
    obtain ⟨fits, roomy⟩ := roomy
    rw [wscFeed, foldl_cons, ← wscFeed]
    rw [wscOnRecv_fits fits] at roomy ⊢
    rw [ih (wscProcess_stuck _) roomy, wscProcess_append, append_assoc]
    rfl

theorem roomy_small {blocks : List (List UInt8 × Bool)} (had : ∀ block ∈ blocks, block.2 = true)
    (small : s.2.length + (stream blocks).length ≤ maxReq) : Roomy env s blocks := by
  induction blocks generalizing s with
  | nil => trivial
  | cons block blocks ih =>
    obtain ⟨first, had⟩ := forall_mem_cons.mp had
    rw [stream, flatMap_cons, length_append, ← stream] at small
    have fits : s.1.closed = false → block.2 = true ∧ s.2.length + block.1.length ≤ maxReq :=
      fun _ => ⟨first, by omega⟩
    refine ⟨fits, ih had ?_⟩
    have kept := @wscProcess_short env (s.1, s.2 ++ block.1)
    rw [length_append] at kept
    rw [wscOnRecv_fits fits]
    omega

theorem wscFeed_closed (shut : s.1.closed = true) (blocks : List (List UInt8 × Bool)) :
    (wscFeed env s blocks).1 = s.1 := by
  induction blocks generalizing s with
  | nil => rfl
  | cons block blocks ih =>
    rw [wscFeed, foldl_cons, wscOnRecv_closed shut]
    exact ih shut

theorem wscFeed_append (s : Wsc × List UInt8) (blocks more : List (List UInt8 × Bool)) :
    wscFeed env s (blocks ++ more) = wscFeed env (wscFeed env s blocks) more := foldl_append

theorem wscFeed_full (opened : s.1.closed = false) {block : List UInt8 × Bool}
    (full : ¬(block.2 = true ∧ s.2.length + block.1.length ≤ maxReq)) (blocks : List (List UInt8 × Bool)) :
    (wscFeed env s (block :: blocks)).1 = { s.1 with closed := true, report := some (1009, "too big") } := by
  have large : ¬block.2 ∨ maxReq < (s.2 ++ block.1).length := by
    rw [length_append]
    by_cases had : block.2 = true
    · exact .inr (not_le.mp fun small => full ⟨had, small⟩)
    · exact .inl had
  rw [wscFeed, foldl_cons, wscOnRecv, if_pos large, ← wscFeed, wscFeed_closed (by simp [wscClose, opened]), wscClose,
    if_neg (by simp [opened])]

/-- The first block without room, if there is one. -/
theorem roomy_or_full (s : Wsc × List UInt8) (blocks : List (List UInt8 × Bool)) : Roomy env s blocks ∨
    ∃ before block after, blocks = before ++ block :: after ∧ Roomy env s before ∧
      (wscFeed env s before).1.closed = false ∧
      ¬(block.2 = true ∧ (wscFeed env s before).2.length + block.1.length ≤ maxReq) := by
  induction blocks generalizing s with
  | nil => exact .inl trivial
  | cons block blocks ih =>
    by_cases fits : s.1.closed = false → block.2 = true ∧ s.2.length + block.1.length ≤ maxReq
    · refine (ih (wscOnRecv env s block)).imp (fun roomy => ⟨fits, roomy⟩) ?_
      rintro ⟨before, next, after, rfl, roomy, opened, full⟩
      exact ⟨block :: before, next, after, rfl, ⟨fits, roomy⟩, opened, full⟩
    · obtain ⟨opened, full⟩ := Classical.not_imp.mp fits
      exact .inr ⟨[], block, blocks, rfl, trivial, opened, full⟩

variable (env)

end Client

/-- A program that only listens, on a connection that takes every frame. -/
def listening : WsEnv := ⟨fun _ => true, fun _ => 0, fun _ => true, fun _ => true, fun _ => []⟩

def bytewise (l : List UInt8) : List (List UInt8 × Bool) := l.map fun b => ([b], true)

/-- The head of a frame of `maxReq` bytes, binary. -/
def largeHead : List UInt8 := [0x82, 127, 0, 0, 0, 0, 0, 0x0F, 0xFF, 0xF6]

theorem stream_bytewise (l : List UInt8) : stream (bytewise l) = l := by
  rw [stream, bytewise, flatMap_map]
  exact flatMap_singleton' l

theorem wsc_large {body : List UInt8} (size : body.length = maxReq - 11) :
    wscSeen listening (bytewise (largeHead ++ body) ++ bytewise [0, 0x81, 0]) =
      ([.message true (body ++ [0]), .message false []], false, none) ∧
    wscSeen listening (bytewise (largeHead ++ body) ++ [([0, 0x81], true), ([0], true)]) =
      ([], true, some (1009, "too big")) := by
  have short : wscStep listening (wscOpen, largeHead ++ body) = none := by
    simp [wscStep, wsHead, largeHead, bigEndian, wscOpen, size, maxReq]
  have held : wscFeed listening (wscOpen, []) (bytewise (largeHead ++ body)) = (wscOpen, largeHead ++ body) := by
    rw [wscFeed_roomy rfl _ (roomy_small (by simp [bytewise]) (by simp [stream_bytewise, largeHead, size, maxReq])),
      stream_bytewise]
    exact wscProcess_rest short
  have whole : wscStep listening (wscOpen, largeHead ++ body ++ [0]) =
      some ({ wscOpen with out := [.message true (body ++ [0])] }, []) := by
    simp [wscStep, wsHead, largeHead, bigEndian, wscOpen, size, maxReq, wscFrame, wscData, wscDispatchMsg, listening]
  have taken : wscOnRecv listening (wscOpen, largeHead ++ body) ([0], true) =
      ({ wscOpen with out := [.message true (body ++ [0])] }, []) := by
    rw [wscOnRecv_fits fun _ => ⟨rfl, by simp [largeHead, size, maxReq]⟩, wscProcess_next whole]
    exact wscProcess_rest rfl
  constructor
  · rw [wscSeen, wscFeed_append, held, bytewise, map_cons, wscFeed, foldl_cons, taken, ← wscFeed, ← bytewise,
      wscFeed_roomy rfl _ (roomy_small (by simp [bytewise]) (by simp [stream_bytewise, maxReq])), stream_bytewise,
      wscProcess_next rfl, wscProcess_rest rfl]
    rfl
  · rw [wscSeen, wscFeed_append, held, wscFeed_full rfl (by simp [largeHead, size, maxReq])]
    rfl

end DynaJS.Net
