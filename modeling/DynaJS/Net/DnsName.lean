import Mathlib.Data.List.TakeWhile
import DynaJS.Lib.Loop

/-! The names of DNS messages: `dyn_dns_name_decode` and `dyn_dns_name_encode`. -/
namespace DynaJS.Net

open List UInt8

/-- The errors of both functions, and a read outside the message. -/
inductive DnsError where
  | short | loop | name | format | outside
deriving DecidableEq

/-- A message as it is received: `AIO_DEFAULT_BUFSZ` is the size of the buffer for datagrams, and the length of a
message over TCP has 16 bits. -/
structure Message where
  len : Nat
  byte : Nat → UInt8
  small : len ≤ 65536

structure NameState where
  pos : Nat
  limit : Nat
  ret : Int32
  out : List UInt8

def keepRet (ret : Int32) (past : Nat) : Int32 := if ret < 0 then Int32.ofNat past else ret

def addLabel (out l : List UInt8) : List UInt8 := (if out.length ≠ 0 then out ++ [46] else out) ++ l

variable (m : Message)

def Message.read (i n : Nat) : Option (List UInt8) :=
  if i + n ≤ m.len then some ((List.range n).map fun k => m.byte (i + k)) else none

def nameStep (outcap : Nat) (s : NameState) : NameState ⊕ Except DnsError (Int32 × List UInt8) :=
  if m.len ≤ s.pos then .inr (.error .short)
  else
    match m.read s.pos 1 with
    | some [c] =>
      if c &&& 0xC0 = 0xC0 then
        if m.len ≤ s.pos + 1 then .inr (.error .short)
        else
          match m.read (s.pos + 1) 1 with
          | some [d] =>
            let target := (c &&& 0x3F).toNat <<< 8 ||| d.toNat
            if s.limit ≤ target ∨ target < 12 then .inr (.error .loop)
            else .inl { s with ret := keepRet s.ret (s.pos + 2), limit := target, pos := target }
          | _ => .inr (.error .outside)
      else if c &&& 0xC0 ≠ 0 then .inr (.error .format)
      else if c = 0 then .inr (.ok (keepRet s.ret (s.pos + 1), s.out))
      else if 63 < c.toNat then .inr (.error .name)
      else if m.len < s.pos + 1 + c.toNat then .inr (.error .short)
      else if 255 < s.out.length + c.toNat + 1 then .inr (.error .name)
      else if outcap < s.out.length + c.toNat + 2 then .inr (.error .name)
      else
        match m.read (s.pos + 1) c.toNat with
        | some l => .inl { s with out := addLabel s.out l, pos := s.pos + 1 + c.toNat }
        | none => .inr (.error .outside)
    | _ => .inr (.error .outside)

/-- `dyn_dns_name_decode` into a buffer of `outcap` bytes. -/
def nameDecode (off outcap : Nat) : Option (Except DnsError (Int32 × List UInt8)) :=
  if outcap = 0 then some (.error .format)
  else Loop.run (nameStep m outcap) ((off + 1) * (m.len + 1)) ⟨off, off, -1, []⟩

def encodeLabels (outcap : Nat) : Nat → List UInt8 → List UInt8 → Except DnsError (List UInt8)
  | fuel + 1, c :: name, out =>
    let l := (c :: name).takeWhile (· != 46)
    if l.length = 0 then .error .format
    else if 63 < l.length then .error .name
    else if outcap < out.length + 1 + l.length + 1 then .error .short
    else if 255 < out.length + 1 + l.length + 1 then .error .name
    else encodeLabels outcap fuel ((c :: name).drop (l.length + 1)) (out ++ ofNat l.length :: l)
  | _, _, out => if outcap < out.length + 1 then .error .short else .ok (out ++ [0])

/-- `dyn_dns_name_encode` of a C string, which ends at its first NUL. -/
def nameEncode (text : List UInt8) (outcap : Nat) : Except DnsError (List UInt8) :=
  let name := text.takeWhile (· != 0)
  encodeLabels outcap name.length name []

/-! ### What a name in a message means -/

def Message.Label (p : Nat) (l : List UInt8) : Prop :=
  (m.byte p).toNat = l.length ∧ 0 < l.length ∧ l.length ≤ 63 ∧ m.read (p + 1) l.length = some l

def Message.Pointer (p t : Nat) : Prop :=
  p + 1 < m.len ∧ 192 ≤ (m.byte p).toNat ∧ t = (m.byte p &&& 0x3F).toNat <<< 8 ||| (m.byte (p + 1)).toNat

/-- The encoding at `p` goes through the labels `ls` and ends before `e`. -/
inductive Encoded : Nat → List (List UInt8) → Nat → Prop
  | root {p : Nat} : p < m.len → m.byte p = 0 → Encoded p [] (p + 1)
  | label {p e : Nat} {l : List UInt8} {ls : List (List UInt8)} :
    m.Label p l → Encoded (p + 1 + l.length) ls e → Encoded p (l :: ls) e
  | pointer {p t e : Nat} {ls : List (List UInt8)} : m.Pointer p t → Encoded t ls e → Encoded p ls (p + 2)

def dotted : List (List UInt8) → List UInt8
  | [] => []
  | l :: ls => l ++ ls.flatMap (46 :: ·)

def wire (ls : List (List UInt8)) : List UInt8 := ls.flatMap (fun l => ofNat l.length :: l) ++ [0]

variable {m} {p e outcap off : Nat} {l : List UInt8} {ls : List (List UInt8)}

theorem Message.Label.range (here : m.Label p l) : 0 < (m.byte p).toNat ∧ (m.byte p).toNat ≤ 63 := by
  obtain ⟨size, some, short, -⟩ := here
  omega

theorem Message.Label.inside (here : m.Label p l) : p + 1 + l.length ≤ m.len := by
  have read := here.2.2.2
  rw [Message.read] at read
  split at read
  · assumption
  · contradiction

theorem Encoded.labels (path : Encoded m p ls e) : ∀ l ∈ ls, 0 < l.length ∧ l.length ≤ 63 := by
  induction path with
  | root => exact forall_mem_nil _
  | label here _ ih => exact forall_mem_cons.mpr ⟨⟨here.2.1, here.2.2.1⟩, ih⟩
  | pointer _ _ ih => exact ih

theorem Encoded.unique {e' : Nat} {ls' : List (List UInt8)} (one : Encoded m p ls e) (two : Encoded m p ls' e') :
    ls = ls' ∧ e = e' := by
  induction one generalizing ls' e' with
  | root inside zero =>
    cases two with
    | root => exact ⟨rfl, rfl⟩
    | label there => exact absurd there.range (by simp [zero])
    | pointer there => exact absurd there.2.1 (by simp [zero])
  | label here _ ih =>
    cases two with
    | root _ zero => exact absurd here.range (by simp [zero])
    | label there rest =>
      obtain ⟨size, -, -, read⟩ := here
      obtain ⟨size', -, -, read'⟩ := there
      rw [← size] at read
      rw [← size', read] at read'
      cases Option.some.inj read'
      obtain ⟨rfl, rfl⟩ := ih rest
      exact ⟨rfl, rfl⟩
    | pointer there => exact absurd (there.2.1.trans here.range.2) (by decide)
  | pointer here _ ih =>
    cases two with
    | root _ zero => exact absurd here.2.1 (by simp [zero])
    | label there => exact absurd (here.2.1.trans there.range.2) (by decide)
    | pointer there rest =>
      cases here.2.2.trans there.2.2.symm
      exact ⟨(ih rest).1, rfl⟩

/-! ### Decoding -/

theorem label_mask : ∀ n < 256, (ofNat n &&& 0xC0 = 0xC0 ↔ 192 ≤ n) ∧ (ofNat n &&& 0xC0 = 0 ↔ n ≤ 63) := by
  decide +kernel

variable {s : NameState}

/-- What one round can do. -/
inductive Round (m : Message) (s : NameState) : NameState ⊕ Except DnsError (Int32 × List UInt8) → Prop
  | refused {e : DnsError} : e ≠ .outside → Round m s (.inr (.error e))
  | root : s.pos < m.len → m.byte s.pos = 0 → Round m s (.inr (.ok (keepRet s.ret (s.pos + 1), s.out)))
  | label {l : List UInt8} : m.Label s.pos l →
    Round m s (.inl { s with out := addLabel s.out l, pos := s.pos + 1 + l.length })
  | pointer {t : Nat} : m.Pointer s.pos t → t < s.limit →
    Round m s (.inl { s with ret := keepRet s.ret (s.pos + 2), limit := t, pos := t })

theorem nameStep_round (m : Message) (outcap : Nat) (s : NameState) : Round m s (nameStep m outcap s) := by
  have mask := label_mask _ (m.byte s.pos).toNat_lt
  rw [UInt8.ofNat_toNat] at mask
  have one {i : Nat} (inside : i < m.len) : m.read i 1 = some [m.byte i] := if_pos inside
  unfold nameStep
  by_cases inside : m.len ≤ s.pos
  · rw [if_pos inside]
    exact .refused (by decide)
  rw [if_neg inside, one (by omega)]
  dsimp only
  split
  · rename_i pointer
    split
    · exact .refused (by decide)
    rw [one (by omega)]
    dsimp only
    split
    · exact .refused (by decide)
    · exact .pointer ⟨by omega, mask.1.mp pointer, rfl⟩ (by omega)
  split
  · exact .refused (by decide)
  split
  · exact .root (by omega) (by assumption)
  rename_i some
  split
  · exact .refused (by decide)
  split
  · exact .refused (by decide)
  split
  · exact .refused (by decide)
  split
  · exact .refused (by decide)
  have read : m.read (s.pos + 1) (m.byte s.pos).toNat = _ := if_pos (by omega)
  have size : ((List.range (m.byte s.pos).toNat).map fun k => m.byte (s.pos + 1 + k)).length =
    (m.byte s.pos).toNat := by
    rw [length_map, length_range]
  have positive : (m.byte s.pos).toNat ≠ 0 := fun zero => some (UInt8.toNat_inj.mp zero)
  have here : m.Label s.pos ((List.range (m.byte s.pos).toNat).map fun k => m.byte (s.pos + 1 + k)) :=
    ⟨size.symm, by omega, by omega, by rwa [size]⟩
  have next := Round.label here
  rw [size] at next
  rw [read]
  exact next

/-- What is answered from a state on: the text goes on with the labels, and the offset is the one found before
or the end of what is encoded. -/
structure Answers (m : Message) (s : NameState) (r : Int32) (t : List UInt8) (ls : List (List UInt8)) (e : Nat) :
    Prop where
  path : Encoded m s.pos ls e
  text : t = ls.foldl addLabel s.out
  inside : s.pos < e ∧ e ≤ m.len
  found : ¬ s.ret < 0 → r = s.ret
  fresh : s.ret < 0 → r.toInt = e

theorem nameDecode_spec (m : Message) (off outcap : Nat) :
    ∃ result, nameDecode m off outcap = some result ∧ result ≠ .error .outside ∧
      ∀ r t, result = .ok (r, t) → ∃ ls e, Answers m ⟨off, off, -1, []⟩ r t ls e := by
  unfold nameDecode
  split
  · exact ⟨_, rfl, by simp, by simp⟩
  refine Loop.run_rule (nameStep m outcap) (fun _ => True)
    (fun s result => result ≠ .error .outside ∧ ∀ r t, result = .ok (r, t) → ∃ ls e, Answers m s r t ls e)
    (fun s => s.limit * (m.len + 1) + (m.len - s.pos)) (fun s next _ goes => ⟨trivial, ?_⟩)
    (fun s result _ leaves => ?_) trivial _ ?_
  · have round := nameStep_round m outcap s
    rw [goes] at round
    cases round with
    | label here =>
      have inside := here.inside
      refine ⟨by dsimp only; omega, fun result post => ⟨post.1, fun r t done => ?_⟩⟩
      obtain ⟨ls, e, rest⟩ := post.2 r t done
      have after := rest.inside
      dsimp only at after
      exact ⟨_, e, .label here rest.path, rest.text, by omega, rest.found, rest.fresh⟩
    | pointer here less =>
      have fewer := Nat.mul_le_mul_right (m.len + 1) less
      rw [Nat.succ_mul] at fewer
      refine ⟨by dsimp only; omega, fun result post => ⟨post.1, fun r t done => ?_⟩⟩
      obtain ⟨ls, e, rest⟩ := post.2 r t done
      have inside := here.1
      have few := m.small
      have kept := rest.found
      dsimp only [keepRet] at kept
      refine ⟨ls, _, .pointer here rest.path, rest.text, by omega, fun old => ?_, fun new => ?_⟩
      · rw [if_neg old] at kept
        exact kept old
      · have value := Int32.toInt_ofNat_of_lt (n := s.pos + 2) (by omega)
        have positive : ¬ Int32.ofNat (s.pos + 2) < 0 := by
          rw [Int32.lt_iff_toInt_lt, value]
          exact Int.not_lt.mpr (Int.natCast_nonneg _)
        rw [if_pos new] at kept
        rw [kept positive, value]
  · have round := nameStep_round m outcap s
    rw [leaves] at round
    cases round with
    | refused known => exact ⟨fun same => known (Except.error.inj same), by simp⟩
    | root inside zero =>
      refine ⟨by simp, fun r t done => ?_⟩
      obtain ⟨rfl, rfl⟩ := Prod.mk.inj (Except.ok.inj done)
      refine ⟨[], _, .root inside zero, rfl, by omega, fun old => if_neg old, fun new => ?_⟩
      have few := m.small
      rw [keepRet, if_pos new, Int32.toInt_ofNat_of_lt (by omega)]
  · dsimp only
    rw [Nat.succ_mul]
    omega

theorem foldl_addLabel {l : List UInt8} (some : 0 < l.length) (ls : List (List UInt8)) :
    ls.foldl addLabel l = l ++ ls.flatMap (46 :: ·) := by
  induction ls generalizing l with
  | nil => simp
  | cons k ls ih =>
    have next : addLabel l k = l ++ 46 :: k := by simp [addLabel, length_pos_iff.mp some]
    rw [foldl_cons, next, ih (by simp)]
    simp

theorem Answers.dotted {r : Int32} {t : List UInt8} (whole : Answers m ⟨off, off, -1, []⟩ r t ls e) :
    t = dotted ls := by
  rw [whole.text]
  cases ls with
  | nil => rfl
  | cons l ls => exact foldl_addLabel (whole.path.labels l (mem_cons_self ..)).1 ls

/-- Decoding ends without a read outside the message, and answers with the offset just past the name. -/
theorem name_decode_ends (m : Message) (off outcap : Nat) :
    ∃ result, nameDecode m off outcap = some result ∧ result ≠ .error .outside ∧ ∀ r t, result = .ok (r, t) →
      ∃ ls e, Encoded m off ls e ∧ r.toInt = e ∧ off < e ∧ e ≤ m.len := by
  obtain ⟨result, ran, inside, ends⟩ := nameDecode_spec m off outcap
  refine ⟨result, ran, inside, fun r t done => ?_⟩
  obtain ⟨ls, e, whole⟩ := ends r t done
  exact ⟨ls, e, whole.path, whole.fresh (by decide : (-1 : Int32) < 0), whole.inside⟩

/-! ### Encoding what was decoded -/

theorem wire_cons (l : List UInt8) (ls : List (List UInt8)) : wire (l :: ls) = ofNat l.length :: (l ++ wire ls) := by
  simp [wire]

theorem wire_injective {ls' : List (List UInt8)} (labels : ∀ l ∈ ls, 0 < l.length ∧ l.length ≤ 63)
    (labels' : ∀ l ∈ ls', 0 < l.length ∧ l.length ≤ 63) (same : wire ls = wire ls') : ls = ls' := by
  have size {l : List UInt8} (bounds : 0 < l.length ∧ l.length ≤ 63) : (ofNat l.length).toNat = l.length :=
    toNat_ofNat_of_lt (by change _ < 256; omega)
  have some {l : List UInt8} (bounds : 0 < l.length ∧ l.length ≤ 63) : ofNat l.length ≠ 0 := by
    intro zero
    have none := size bounds
    rw [zero] at none
    exact bounds.1.ne none
  induction ls generalizing ls' with
  | nil =>
    cases ls' with
    | nil => rfl
    | cons l ls' =>
      exact absurd (cons.inj same).1.symm (some (labels' l (mem_cons_self ..)))
  | cons l ls ih =>
    have bounds := labels l (mem_cons_self ..)
    rw [wire_cons] at same
    cases ls' with
    | nil => exact absurd (cons.inj same).1 (some bounds)
    | cons l' ls' =>
      rw [wire_cons, cons.injEq] at same
      have length : l.length = l'.length := by rw [← size bounds, same.1, size (labels' l' (mem_cons_self ..))]
      obtain ⟨rfl, rest⟩ := append_inj same.2 length
      rw [ih (fun l member => labels l (mem_cons_of_mem _ member))
        (fun l member => labels' l (mem_cons_of_mem _ member)) rest]

theorem encodeLabels_labels {fuel : Nat} {name out r : List UInt8} (ran : encodeLabels outcap fuel name out = .ok r)
    (few : out.length < 255) : r.length ≤ 255 ∧
      ∃ ls, r = out ++ wire ls ∧ ∀ l ∈ ls, (0 < l.length ∧ l.length ≤ 63) ∧ 46 ∉ l ∧ l ⊆ name := by
  fun_induction encodeLabels outcap fuel name out with
  | case1 | case2 | case3 | case4 | case6 => contradiction
  | case5 fuel out c name l some short _ fits ih =>
    obtain ⟨bound, ls, whole, each⟩ := ih ran (by simp only [length_append, length_cons]; omega)
    refine ⟨bound, l :: ls, ?_, forall_mem_cons.mpr ⟨⟨⟨by omega, by omega⟩, fun dot => ?_, ?_⟩, fun k member => ?_⟩⟩
    · rw [whole, wire_cons, append_assoc, cons_append]
    · simpa using mem_takeWhile_imp dot
    · exact (takeWhile_sublist _).subset
    · obtain ⟨bounds, clean, inside⟩ := each k member
      exact ⟨bounds, clean, Subset.trans inside (drop_subset _ _)⟩
  | case7 =>
    cases ran
    exact ⟨by simpa using few, [], rfl, forall_mem_nil _⟩

theorem encodeLabels_dotted (labels : ∀ l ∈ ls, 0 < l.length ∧ l.length ≤ 63) (clean : ∀ l ∈ ls, 46 ∉ l)
    (roomy : 255 ≤ outcap) {fuel : Nat} (enough : (dotted ls).length ≤ fuel) {out : List UInt8}
    (fits : out.length + (wire ls).length ≤ 255) : encodeLabels outcap fuel (dotted ls) out = .ok (out ++ wire ls) := by
  induction ls generalizing fuel out with
  | nil =>
    have short : out.length + 1 ≤ 255 := fits
    rw [dotted, encodeLabels.eq_def]
    simp only
    exact if_neg (by omega)
  | cons l ls ih =>
    obtain ⟨⟨some, short⟩, labels⟩ := forall_mem_cons.mp labels
    obtain ⟨plain, clean⟩ := forall_mem_cons.mp clean
    have cut : (dotted (l :: ls)).takeWhile (· != 46) = l := by
      rw [dotted, takeWhile_append_of_pos fun c member => by simpa using ne_of_mem_of_not_mem member plain]
      cases ls <;> simp
    have rest : (dotted (l :: ls)).drop (l.length + 1) = dotted ls := by
      cases ls <;> simp [dotted, drop_append]
    have size := congrArg length rest
    have next : (wire ls).length = (ls.flatMap fun l => ofNat l.length :: l).length + 1 := by simp [wire]
    obtain ⟨c, name, shape⟩ := exists_cons_of_ne_nil
      (ne_nil_of_length_pos (by simp [dotted]; omega : 0 < (dotted (l :: ls)).length))
    rw [wire_cons, length_cons, length_append] at fits
    rw [length_drop] at size
    cases fuel with
    | zero => simp [shape] at enough
    | succ fuel =>
      rw [shape, encodeLabels, ← shape, cut, if_neg (by omega), if_neg (by omega), if_neg (by omega), if_neg (by omega),
        rest, ih labels clean (by omega) (by simp only [length_append, length_cons]; omega), wire_cons, append_assoc,
        cons_append]

/-- Labels whose text is the name again, of a name that is not too long to be sent. -/
def Clean (ls : List (List UInt8)) : Prop := (∀ l ∈ ls, 0 ∉ l ∧ 46 ∉ l) ∧ (wire ls).length ≤ 255

theorem nameEncode_dotted (labels : ∀ l ∈ ls, 0 < l.length ∧ l.length ≤ 63) (roomy : 255 ≤ outcap) :
    nameEncode (dotted ls) outcap = .ok (wire ls) ↔ Clean ls := by
  constructor
  · intro ran
    obtain ⟨short, ls', same, each⟩ := encodeLabels_labels ran (by decide)
    cases wire_injective labels (fun l member => (each l member).1) same
    refine ⟨fun l member => ⟨fun zero => ?_, (each l member).2.1⟩, short⟩
    simpa using mem_takeWhile_imp ((each l member).2.2 zero)
  · rintro ⟨clean, short⟩
    have kept : (dotted ls).takeWhile (· != 0) = dotted ls := by
      refine takeWhile_eq_self_iff.mpr fun c member => ?_
      rw [bne_iff_ne]
      rintro rfl
      cases ls with
      | nil => contradiction
      | cons l ls =>
        obtain first | later := mem_append.mp member
        · exact (clean l (mem_cons_self ..)).1 first
        · obtain ⟨k, there, inside⟩ := mem_flatMap.mp later
          exact (clean k (mem_cons_of_mem _ there)).1 ((mem_cons.mp inside).resolve_left (by decide))
    rw [nameEncode, kept]
    exact encodeLabels_dotted labels (fun l member => (clean l member).2) roomy le_rfl (by simpa using short)

theorem nameDecode_dotted {r : Int32} {t : List UInt8} (ran : nameDecode m off outcap = some (.ok (r, t)))
    (path : Encoded m off ls e) : t = dotted ls := by
  obtain ⟨result, done, -, ends⟩ := nameDecode_spec m off outcap
  obtain ⟨ls', e', whole⟩ := ends r t (Option.some.inj (done.symm.trans ran))
  rw [(path.unique whole.path).1]
  exact whole.dotted

/-- Two decoded names are encoded to their labels again, and have one text as C strings only if they are one
name, exactly if no label of them holds a dot or a NUL and neither is longer than the encoder allows. -/
theorem dns_text_encodes_iff {m' : Message} {off' outcap' e' : Nat} {r r' : Int32} {t t' : List UInt8}
    {ls' : List (List UInt8)} (ran : nameDecode m off outcap = some (.ok (r, t)))
    (ran' : nameDecode m' off' outcap' = some (.ok (r', t'))) (path : Encoded m off ls e)
    (path' : Encoded m' off' ls' e') {cap : Nat} (roomy : 255 ≤ cap) :
    (nameEncode t cap = .ok (wire ls) ∧ nameEncode t' cap = .ok (wire ls') ∧
      (t.takeWhile (· != 0) = t'.takeWhile (· != 0) → ls = ls')) ↔ Clean ls ∧ Clean ls' := by
  rw [nameDecode_dotted ran path, nameDecode_dotted ran' path', ← nameEncode_dotted path.labels roomy,
    ← nameEncode_dotted path'.labels roomy]
  refine and_congr_right fun one => and_iff_left_of_imp fun two same => ?_
  rw [nameEncode, ← same, ← nameEncode, one] at two
  exact wire_injective path.labels path'.labels (Except.ok.inj two)

def messageOf (bytes : List UInt8) (small : bytes.length ≤ 65536) : Message :=
  ⟨bytes.length, fun i => bytes.getD i 0, small⟩

/-- The name "a.b" behind a header, and "c.b" after it, whose last label is a pointer into the first. -/
theorem dns_text_encodes_shared : nameEncode [97, 46, 98] 255 = .ok [1, 97, 1, 98, 0] ∧
    nameEncode [99, 46, 98] 255 = .ok [1, 99, 1, 98, 0] := by
  let m := messageOf (replicate 12 0 ++ [1, 97, 1, 98, 0, 1, 99, 0xC0, 14]) (by decide)
  have ran : nameDecode m 12 256 = some (.ok (17, [97, 46, 98])) := by decide +kernel
  have ran' : nameDecode m 17 256 = some (.ok (21, [99, 46, 98])) := by decide +kernel
  have last : Encoded m 14 [[98]] 17 :=
    .label ⟨by decide, by decide, by decide, by decide⟩ (.root (by decide) (by decide))
  have path : Encoded m 12 [[97], [98]] 17 := .label ⟨by decide, by decide, by decide, by decide⟩ last
  have path' : Encoded m 17 [[99], [98]] 21 :=
    .label ⟨by decide, by decide, by decide, by decide⟩ (.pointer ⟨by decide, by decide, by decide⟩ last)
  have both := (dns_text_encodes_iff ran ran' path path' le_rfl).mpr ⟨⟨by decide, by decide⟩, by decide, by decide⟩
  exact ⟨both.1, both.2.1⟩

/-- The label "a.b" and the labels "a" and "b" have one text, which is encoded as the two. -/
theorem dotted_label_split :
    nameDecode (messageOf [3, 97, 46, 98, 0] (by decide)) 0 256 = some (.ok (5, [97, 46, 98])) ∧
    nameDecode (messageOf [1, 97, 1, 98, 0] (by decide)) 0 256 = some (.ok (5, [97, 46, 98])) ∧
    nameEncode [97, 46, 98] 255 = .ok [1, 97, 1, 98, 0] := by
  decide +kernel

end DynaJS.Net
