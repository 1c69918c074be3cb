import DynaJS.Lib.Loop

/-! The Snappy codec of `dyn-snappy.c`: the element reader of the decompressor and
the compressor with its hash table of recent windows. -/
namespace DynaJS.Codec

open UInt8

inductive Element where
  | literal (bytes : List UInt8)
  | copy (off len : Nat)
  deriving DecidableEq, Repr

/-- `sn_varint` from its round `k`, with the bits read so far; the shifted groups
never overlap, so they add. -/
def snVarint (k v : Nat) : List UInt8 → Option (Nat × List UInt8)
  | [] => none
  | b :: rest =>
    if 5 ≤ k then none
    else if k = 4 ∧ 0x0F < b.toNat then none
    else
      let v := v + b.toNat % 128 * 2 ^ (7 * k)
      if b.toNat < 128 then some (v, rest) else snVarint (k + 1) v rest

def littleEndian (bytes : List UInt8) : Nat := bytes.foldr (fun b v => b.toNat + 256 * v) 0

def literalOf (n : Nat) (rest : List UInt8) : Option (Element × List UInt8) :=
  if rest.length < n then none else some (.literal (rest.take n), rest.drop n)

/-- One element as the loop of `dyn_snappy_decompress` reads it. -/
def snElement : List UInt8 → Option (Element × List UInt8)
  | [] => none
  | b :: rest =>
    let tag := b.toNat
    match tag % 4 with
    | 0 =>
      if 60 ≤ tag / 4 then
        let nb := tag / 4 - 59
        if rest.length < nb then none
        else literalOf (littleEndian (rest.take nb) + 1) (rest.drop nb)
      else literalOf (tag / 4 + 1) rest
    | 1 =>
      match rest with
      | [] => none
      | lo :: rest => some (.copy (tag / 32 * 256 + lo.toNat) (4 + tag / 4 % 8), rest)
    | 2 =>
      if rest.length < 2 then none
      else some (.copy (littleEndian (rest.take 2)) (tag / 4 + 1), rest.drop 2)
    | _ =>
      if rest.length < 4 then none
      else some (.copy (littleEndian (rest.take 4)) (tag / 4 + 1), rest.drop 4)

def snElements : Nat → List UInt8 → Option (List Element)
  | _, [] => some []
  | 0, _ :: _ => none
  | fuel + 1, src =>
    match snElement src with
    | none => none
    | some (e, rest) => (snElements fuel rest).map (e :: ·)

variable (src : List UInt8)

def snStream : Option (Nat × List Element) :=
  match snVarint 0 0 src with
  | none => none
  | some (declared, rest) => (snElements rest.length rest).map (declared, ·)

/-- The byte-wise copy from `off` back, which may read what it has written. -/
def copyBack (off : Nat) : Nat → List UInt8 → List UInt8
  | 0, o => o
  | n + 1, o => copyBack off n (o ++ [o.getD (o.length - off) 0])

variable (cap : Nat)

/-- The effect of an element on the output; `sn_grow` refuses to pass `cap`. -/
def snApply (o : List UInt8) : Element → Option (List UInt8)
  | .literal bytes => if cap - o.length < bytes.length then none else some (o ++ bytes)
  | .copy off len =>
    if off = 0 ∨ o.length < off then none
    else if cap - o.length < len then none
    else some (copyBack off len o)

/-- `dyn_snappy_decompress` with every allocation granted; all its errors are -1. -/
def snappyDecompress : Option (List UInt8) :=
  match snStream src with
  | none => none
  | some (declared, elements) =>
    if cap < declared then none
    else
      match elements.foldlM (snApply cap) [] with
      | none => none
      | some o => if o.length = declared then some o else none

def window (src : List UInt8) (i : Nat) : List UInt8 := (src.drop i).take 4

def snHash (i : Nat) : Nat := littleEndian (window src i) * 0x1e35a7bd % 2 ^ 32 / 2 ^ 16

def snWriteVarint : Nat → Nat → List UInt8
  | 0, _ => []
  | fuel + 1, v =>
    if 0x80 ≤ v then ofNat (v % 128 + 128) :: snWriteVarint fuel (v / 128)
    else [ofNat v]

def lengthBytes (x : Nat) : Nat → Nat → Nat
  | 0, nb => nb
  | fuel + 1, nb => if x / 2 ^ (8 * nb) ≠ 0 then lengthBytes x fuel (nb + 1) else nb

def littleEndianOf : Nat → Nat → List UInt8
  | 0, _ => []
  | nb + 1, x => ofNat (x % 256) :: littleEndianOf nb (x / 256)

def litHeader (litn : Nat) : List UInt8 :=
  if litn ≤ 60 then [ofNat ((litn - 1) * 4)]
  else
    let nb := lengthBytes (litn - 1) 4 1
    ofNat ((59 + nb) * 4) :: littleEndianOf nb (litn - 1)

def snFlushLit (out : List UInt8) (cap : Nat) (lit : List UInt8) : Option (List UInt8) :=
  if cap < out.length + (litHeader lit.length).length + lit.length then none
  else some (out ++ litHeader lit.length ++ lit)

structure Comp where
  i : Nat
  out : List UInt8
  lit : List UInt8
  tab : Nat → Nat

/-- The test on the table entry `cand`, which is one past the position it names. -/
def isMatch (i cand : Nat) : Bool := cand ≠ 0 ∧ cand ≤ i ∧ i - cand ≤ 65534 ∧ window src i = window src (cand - 1)

def matchLen (src : List UInt8) (i off : Nat) : Nat → Nat → Nat
  | 0, mlen => mlen
  | fuel + 1, mlen =>
    if i + mlen < src.length ∧ src.getD (i + mlen) 0 = src.getD (i + mlen - off) 0 then
      matchLen src i off fuel (mlen + 1)
    else mlen

def emitCopies (cap off : Nat) : Nat → Nat → Nat → List UInt8 → Option (Nat × List UInt8)
  | 0, _, i, out => some (i, out)
  | fuel + 1, mlen, i, out =>
    if mlen = 0 then some (i, out)
    else
      let n := min mlen 64
      if cap < out.length + 3 then none
      else emitCopies cap off fuel (mlen - n) (i + n)
        (out ++ [ofNat ((n - 1) * 4 + 2), ofNat (off % 256), ofNat (off / 256 % 256)])

variable (st : Comp)

def refresh : Comp :=
  if st.i + 4 ≤ src.length then
    { st with tab := fun h => if h = snHash src st.i then (st.i + 1) % 2 ^ 32 else st.tab h }
  else st

def candidate : Nat :=
  if st.i + 4 ≤ src.length then st.tab (snHash src st.i) else 0

def flushPending : Option (List UInt8) :=
  if st.lit = [] then some st.out else snFlushLit st.out cap st.lit

def litSize : Nat := 256

def compStep : Comp ⊕ Option (List UInt8) :=
  if st.i < src.length then
    let cand := candidate src st
    if isMatch src st.i cand then
      let off := (st.i - cand + 1) % 2 ^ 32
      let mlen := matchLen src st.i off src.length 4
      match flushPending cap st with
      | none => .inr none
      | some out =>
        match emitCopies cap off mlen mlen st.i out with
        | none => .inr none
        | some (i, out) => .inl (refresh src ⟨i, out, [], st.tab⟩)
    else
      let lit := st.lit ++ [src.getD st.i 0]
      if lit.length = litSize then
        match snFlushLit st.out cap lit with
        | none => .inr none
        | some out => .inl (refresh src ⟨st.i + 1, out, [], st.tab⟩)
      else .inl (refresh src ⟨st.i + 1, st.out, lit, st.tab⟩)
  else .inr (flushPending cap st)

def compCap (len : Nat) : Nat := len + len / 50 + 16

def snappyCompress (okOut okTab : Bool) : Option (List UInt8) :=
  if okOut ∧ okTab then
    (Loop.run (compStep src (compCap src.length)) (src.length + 1)
      ⟨0, snWriteVarint 5 (src.length % 2 ^ 32), [], fun _ => 0⟩).join
  else none

end DynaJS.Codec
