import DynaJS.Vser.Round

/-! Whole values: what the encoder accepts is decoded to an equal value exactly if every string,
key, byte array and object is within the limit that only the decoder puts on it. -/
namespace DynaJS.Vser

open Engine List Nat Except

/-- Induction over a value through its items and the values of its properties. -/
@[elab_as_elim]
theorem JsValue.induct {motive : JsValue → Prop} (undefined : motive .undefined) (null : motive .null)
    (bool : ∀ b, motive (.bool b)) (number : ∀ d, motive (.number d)) (string : ∀ s, motive (.string s))
    (bytes : ∀ b, motive (.bytes b)) (array : ∀ l, (∀ v ∈ l, motive v) → motive (.array l))
    (object : ∀ props, (∀ p ∈ props, motive p.2) → motive (.object props)) (other : motive .other) (v : JsValue) :
    motive v :=
  @JsValue.rec motive (fun l => ∀ v ∈ l, motive v) (fun props => ∀ p ∈ props, motive p.2) (fun p => motive p.2)
    undefined null bool number string bytes array object other
    (forall_mem_nil _)
    (fun _ _ first rest => forall_mem_cons.mpr ⟨first, rest⟩)
    (forall_mem_nil _)
    (fun _ _ first rest => forall_mem_cons.mpr ⟨first, rest⟩) (fun _ _ second => second) v

mutual

def All (p : JsValue → Prop) : JsValue → Prop
  | .array l => p (.array l) ∧ AllItems p l
  | .object props => p (.object props) ∧ AllProps p props
  | .undefined => p .undefined
  | .null => p .null
  | .bool b => p (.bool b)
  | .number d => p (.number d)
  | .string s => p (.string s)
  | .bytes b => p (.bytes b)
  | .other => p .other

def AllItems (p : JsValue → Prop) : List JsValue → Prop
  | [] => True
  | v :: l => All p v ∧ AllItems p l

def AllProps (p : JsValue → Prop) : List (JsString × JsValue) → Prop
  | [] => True
  | (_, v) :: props => All p v ∧ AllProps p props

end

theorem all_array (p : JsValue → Prop) (l : List JsValue) : All p (.array l) ↔ p (.array l) ∧ ∀ v ∈ l, All p v := by
  refine and_congr Iff.rfl ?_
  induction l with
  | nil => simp [AllItems]
  | cons v l ih => rw [AllItems, ih, forall_mem_cons]

theorem all_object (p : JsValue → Prop) (props : List (JsString × JsValue)) :
    All p (.object props) ↔ p (.object props) ∧ ∀ q ∈ props, All p q.2 := by
  refine and_congr Iff.rfl ?_
  induction props with
  | nil => simp [AllProps]
  | cons q props ih =>
    rw [AllProps, ih, forall_mem_cons]

/-- Structural equality; the order of properties does not matter. -/
inductive Same : JsValue → JsValue → Prop
  | undefined : Same .undefined .undefined
  | null : Same .null .null
  | bool (b : Bool) : Same (.bool b) (.bool b)
  | number (d : Double) : Same (.number d) (.number d)
  | string {s t : JsString} (units : s.units = t.units) : Same (.string s) (.string t)
  | bytes (b : List UInt8) : Same (.bytes b) (.bytes b)
  | array {l m : List JsValue} (items : List.Forall₂ Same l m) : Same (.array l) (.array m)
  | object {props qs : List (JsString × JsValue)} (ps : List (JsString × JsValue)) (perm : ps.Perm props)
      (keys : ps.map (·.1.units) = qs.map (·.1.units)) (vals : List.Forall₂ Same (ps.map Prod.snd) (qs.map Prod.snd)) :
      Same (.object props) (.object qs)

/-- What the engine holds: the lengths of strings and buffers, and keys that differ. -/
def Held : JsValue → Prop
  | .string s => s.units.length ≤ jsStringLenMax
  | .bytes b => b.length ≤ int32Max
  | .object props =>
    props.length < 2 ^ 32 ∧ (props.map (·.1.units)).Nodup ∧ ∀ p ∈ props, p.1.units.length ≤ jsStringLenMax
  | _ => True

/-- What the format has a code for: MessagePack writes undefined as nil. -/
def Expressible (fmt : Format) (v : JsValue) : Prop := fmt = .cbor ∨ v ≠ .undefined

def Small : JsValue → Prop
  | .string s => (utf8Units s.units).length ≤ vsMaxItems
  | .bytes b => b.length ≤ vsMaxItems
  | .object props => props.length ≤ vsMaxItems ∧ ∀ p ∈ props, (utf8Units p.1.units).length ≤ vsMaxItems
  | _ => True

section Lengths

theorem vencLen_pos (fmt : Format) (kind : LenKind) (n : Nat) : 0 < (vencLen fmt kind n).length := by
  cases fmt with
  | cbor =>
    dsimp only [vencLen, cborHead]
    split_ifs <;> exact succ_pos _
  | msgpack => cases kind <;> dsimp only [vencLen] <;> split_ifs <;> exact succ_pos _

theorem vencLen_append_pos (fmt : Format) (kind : LenKind) (n : Nat) (b : List UInt8) :
    0 < (vencLen fmt kind n ++ b).length := by
  rw [length_append]
  exact Nat.add_pos_left (vencLen_pos fmt kind n) _

theorem vencInt_pos (fmt : Format) (v : Int) : 0 < (vencInt fmt v).length := by
  cases fmt with
  | cbor =>
    dsimp only [vencInt, cborHead]
    split_ifs <;> exact succ_pos _
  | msgpack =>
    dsimp only [vencInt]
    split_ifs <;> exact succ_pos _

theorem vencNumber_pos (fmt : Format) (top : Int) (d : Double) : 0 < (vencNumber fmt top d).length := by
  unfold vencNumber
  cases d.intValue with
  | none => exact succ_pos _
  | some v =>
    dsimp only
    split_ifs
    · exact vencInt_pos fmt top
    · exact succ_pos _
    · exact vencInt_pos fmt v
    · exact succ_pos _
    · exact succ_pos _

theorem unicodeToUtf8_length {c : Nat} (plane : c < 0x10000) : (unicodeToUtf8 c).length ≤ 3 := by
  rw [unicodeToUtf8]
  split_ifs <;> simp

theorem utf8Units_length_le (u : List UInt16) : (utf8Units u).length ≤ 3 * u.length := by
  have four : ∀ c, c ≤ 0x10FFFF → (unicodeToUtf8 c).length ≤ 4 := by
    intro c high
    rw [unicodeToUtf8]
    split_ifs <;> first | omega | simp
  fun_induction utf8Units u with
  | case1 => exact zero_le _
  | case2 c => exact unicodeToUtf8_length c.toNat_lt
  | case3 c c1 l pair ih =>
    rw [Bool.and_eq_true] at pair
    have pairs := four _ (fromSurrogate_bounds pair.1 pair.2).2
    rw [length_append, length_cons, length_cons]
    omega
  | case4 c c1 l other ih =>
    have single := unicodeToUtf8_length c.toNat_lt
    rw [length_append, length_cons]
    omega

theorem utf8Latin1_length (u : List UInt16) : (utf8Latin1 u).length = u.length + countHigh u := by
  induction u with
  | nil => rfl
  | cons c u ih =>
    have count : countHigh (c :: u) = countHigh u + if 0x80 ≤ c.toNat then 1 else 0 := by
      simp [countHigh, countP_cons]
    rw [utf8Latin1, flatMap_cons, length_append, ← utf8Latin1, length_cons, count]
    by_cases ascii : c.toNat < 0x80
    · rw [if_pos ascii, if_neg (by omega), length_singleton]
      omega
    · rw [if_neg ascii, if_pos (by omega), length_cons, length_singleton]
      omega

theorem toCStringLen_length {s : JsString} {bytes : List UInt8} (short : s.units.length ≤ jsStringLenMax)
    (lent : toCStringLen s = .ok bytes) : bytes.length ≤ jsStringLenMax := by
  rw [toCStringLen] at lent
  cases wide : s.wide with
  | true =>
    rw [wide, if_pos rfl] at lent
    split at lent
    case isTrue => contradiction
    case isFalse fits =>
      have bound := utf8Units_length_le s.units
      rw [← ok.inj lent]
      omega
  | false =>
    rw [wide, if_neg Bool.false_ne_true] at lent
    split at lent
    case isTrue =>
      rw [← ok.inj lent, length_map]
      exact short
    case isFalse =>
      split at lent
      case isTrue => contradiction
      case isFalse fits =>
        rw [← ok.inj lent, utf8Latin1_length]
        omega

end Lengths

section Decides

/-- What a reader does: under `p` it reads something `good` up to `rest`, and otherwise it throws. -/
def Decides {α : Type} (x : Except Thrown (α × List UInt8)) (p : Prop) (rest : List UInt8) (good : α → Prop) : Prop :=
  (p → ∃ w, x = .ok (w, rest) ∧ good w) ∧ (¬p → ∃ e, x = .error e)

variable {α β : Type} {x : Except Thrown (α × List UInt8)} {p q : Prop} {mid rest : List UInt8} {good : α → Prop}
  {f : α × List UInt8 → Except Thrown (β × List UInt8)} {fine : β → Prop}

theorem Decides.bind (first : Decides x p mid good) (next : ∀ w, good w → Decides (f (w, mid)) q rest fine) :
    Decides (x >>= f) (p ∧ q) rest fine := by
  by_cases here : p
  · obtain ⟨w, read, is⟩ := first.1 here
    rw [read, and_iff_right here]
    exact next w is
  · obtain ⟨e, fails⟩ := first.2 here
    rw [fails]
    exact ⟨fun both => absurd both.1 here, fun _ => ⟨e, rfl⟩⟩

theorem Decides.last (first : Decides x p mid good) (ends : ∀ w, good w → ∃ u, f (w, mid) = .ok (u, rest) ∧ fine u) :
    Decides (x >>= f) p rest fine := by
  have both : Decides (x >>= f) (p ∧ True) rest fine :=
    first.bind fun w is => ⟨fun _ => ends w is, fun impossible => absurd trivial impossible⟩
  rwa [and_true] at both

theorem vdecTake_decides (n : Nat) (b rest : List UInt8) :
    Decides (vdecTake n b.length (b ++ rest)) (b.length ≤ vsMaxItems) rest (· = b) := by
  have within : b.length ≤ (b ++ rest).length := by
    rw [length_append]
    omega
  rw [vdecTake, vdecBounded]
  constructor
  · intro small
    rw [if_neg (by rw [Nat.div_one]; omega)]
    rw [if_neg (by omega), take_left, drop_left]
    exact ⟨b, rfl, rfl⟩
  · intro large
    rw [if_pos (.inl (Nat.lt_of_not_le large))]
    exact ⟨_, rfl⟩

end Decides

section Reads

variable (valueToAtom : JsValue → Except Thrown JsString) (fmt : Format) (n : Nat)

/-- The reader of a value, on its bytes and whatever follows: the value if it is within the
limits, a throw otherwise. -/
def Reads (value : Reader) (v : JsValue) (out : List UInt8) : Prop :=
  ∀ rest, (All Small v → ∃ w, value (out ++ rest) = .ok (w, rest) ∧ Same v w) ∧
    (¬ All Small v → ∃ e, value (out ++ rest) = .error e)

variable {out : List UInt8} {value : Reader}

theorem reads_leaf {v : JsValue} (small : All Small v) (same : Same v v)
    (reads : ∀ rest, value (out ++ rest) = .ok (v, rest)) : Reads value v out :=
  fun rest => ⟨fun _ => ⟨v, reads rest, same⟩, fun large => absurd small large⟩

variable (left : Nat)

theorem reads_string {s : JsString} {bytes : List UInt8} (short : s.units.length ≤ jsStringLenMax)
    (lent : toCStringLen s = .ok bytes) :
    Reads (vdecValue valueToAtom fmt n (left + 1)) (.string s) (vencLen fmt .str bytes.length ++ bytes) := by
  have bound := toCStringLen_length short lent
  have fits : bytes.length < 2 ^ 32 := lt_of_le_of_lt bound (by decide)
  have same := newStringLen_toCStringLen lent
  intro rest
  rw [append_assoc, vdecValue_len valueToAtom fmt n left .str fits, All, Small, ← toCStringLen_ok lent]
  exact (vdecTake_decides n bytes rest).last fun w is => ⟨_, rfl, .string (by rw [is, same])⟩

theorem reads_bytes {b : List UInt8} (short : b.length ≤ int32Max) :
    Reads (vdecValue valueToAtom fmt n (left + 1)) (.bytes b) (vencLen fmt .bin b.length ++ b) := by
  have fits : b.length < 2 ^ 32 := lt_of_le_of_lt short (by decide)
  intro rest
  rw [append_assoc, vdecValue_len valueToAtom fmt n left .bin fits, All, Small]
  exact (vdecTake_decides n b rest).last fun w is => ⟨_, rfl, by rw [is]; exact .bytes b⟩

variable {sorted : Bool} {top : Int} {depth : Nat} {body : List UInt8}

/-- The items one after the other: all of them, or a throw at the first that is too large. -/
theorem vdecItems_reads {l : List JsValue}
    (each : ∀ v ∈ l, ∀ out, vencValue fmt sorted top depth v = .ok out → 0 < out.length ∧ Reads value v out)
    (written : vencArray fmt sorted top depth l = .ok body) :
    l.length ≤ body.length ∧ ∀ rest,
      Decides (vdecItems value l.length (body ++ rest)) (∀ v ∈ l, All Small v) rest (List.Forall₂ Same l) := by
  induction l generalizing body with
  | nil =>
    rw [vencArray] at written
    rw [← ok.inj written]
    exact ⟨le_rfl, fun rest => ⟨fun _ => ⟨[], rfl, .nil⟩, fun large => absurd (by simp) large⟩⟩
  | cons v l ih =>
    rw [vencArray] at written
    obtain ⟨one, first, written⟩ := bind_ok written
    obtain ⟨tail, second, written⟩ := bind_ok written
    have shape : one ++ tail = body := ok.inj written
    obtain ⟨positive, reads⟩ := each v mem_cons_self one first
    obtain ⟨long, items⟩ := ih (fun w member => each w (mem_cons_of_mem _ member)) second
    rw [← shape]
    refine ⟨by rw [length_append, length_cons]; omega, fun rest => ?_⟩
    rw [append_assoc, forall_mem_cons, length_cons, vdecItems]
    exact Decides.bind (reads (tail ++ rest)) fun w same =>
      (items rest).last fun ws sames => ⟨w :: ws, rfl, .cons same sames⟩

theorem reads_array {l : List JsValue} (each : ∀ v ∈ l, ∀ out, vencValue fmt sorted top depth v = .ok out →
      0 < out.length ∧ Reads (vdecValue valueToAtom fmt n left) v out)
    (few : l.length ≤ vsMaxItems) (written : vencArray fmt sorted top depth l = .ok body) :
    Reads (vdecValue valueToAtom fmt n (left + 1)) (.array l) (vencLen fmt .array l.length ++ body) := by
  have fits : l.length < 2 ^ 32 := lt_of_le_of_lt few (by decide)
  obtain ⟨long, items⟩ := vdecItems_reads fmt each written
  intro rest
  rw [append_assoc, vdecValue_len valueToAtom fmt n left .array fits]
  change Decides (vdecArray (vdecValue valueToAtom fmt n left) l.length (body ++ rest)) _ _ _
  rw [all_array, and_iff_right (show Small (.array l) from trivial), vdecArray, vdecBounded,
    if_neg (by rw [Nat.div_one, length_append]; omega)]
  change Decides (vdecItems (vdecValue valueToAtom fmt n left) l.length (body ++ rest) >>= _) _ _ _
  exact (items rest).last fun ws same => ⟨_, rfl, .array same⟩

def Coded (sorted : Bool) (top : Int) (depth : Nat) : List (JsString × JsValue) → List UInt8 → Prop
  | [], out => out = []
  | (k, v) :: ps, out => ∃ ks body rest, toCStringLen k = .ok ks ∧ vencValue fmt sorted top depth v = .ok body ∧
      Coded sorted top depth ps rest ∧ out = vencLen fmt .str ks.length ++ ks ++ body ++ rest

variable {props : List (JsString × JsValue)}

theorem vencPlain_coded (written : vencPlain fmt (vencProps fmt sorted top depth props) = .ok body) :
    Coded fmt sorted top depth props body := by
  induction props generalizing body with
  | nil => exact (ok.inj written).symm
  | cons p props ih =>
    obtain ⟨ks, key, written⟩ := bind_ok written
    obtain ⟨one, val, written⟩ := bind_ok written
    obtain ⟨rest, tail, written⟩ := bind_ok written
    exact ⟨ks, one, rest, key, val, ih tail, (ok.inj written).symm⟩

theorem vencKeyed_coded {ps : List (JsString × JsValue)}
    (keys : ∀ p ∈ ps, toCStringLen p.1 = .ok (utf8Units p.1.units))
    (written : vencKeyed fmt (ps.map fun p => (utf8Units p.1.units, vencValue fmt sorted top depth p.2)) = .ok body) :
    Coded fmt sorted top depth ps body := by
  induction ps generalizing body with
  | nil => exact (ok.inj written).symm
  | cons p ps ih =>
    obtain ⟨k, v⟩ := p
    obtain ⟨one, val, written⟩ := bind_ok written
    obtain ⟨rest, tail, written⟩ := bind_ok written
    exact ⟨_, one, rest, keys (k, v) mem_cons_self, val,
      ih (fun q member => keys q (mem_cons_of_mem _ member)) tail, (ok.inj written).symm⟩

theorem mapM_keys {α : Type} {entries : List (JsString × α)} {keyed : List (List UInt8 × α)}
    (all : (entries.mapM fun p => (toCStringLen p.1).map fun ks => (ks, p.2)) = .ok keyed) :
    keyed = entries.map (fun p => (utf8Units p.1.units, p.2)) ∧
      ∀ p ∈ entries, toCStringLen p.1 = .ok (utf8Units p.1.units) := by
  induction entries generalizing keyed with
  | nil => exact ⟨(ok.inj all).symm, by simp⟩
  | cons p entries ih =>
    rw [mapM_cons] at all
    obtain ⟨pair, first, all⟩ := bind_ok all
    obtain ⟨rest, tail, all⟩ := bind_ok all
    obtain ⟨ks, key, made⟩ := bind_ok first
    obtain ⟨same, keys⟩ := ih tail
    obtain rfl := toCStringLen_ok key
    rw [← ok.inj all, ← ok.inj made, same, map_cons]
    exact ⟨rfl, forall_mem_cons.mpr ⟨key, keys⟩⟩

theorem vencProps_eq (sorted : Bool) (top : Int) (depth : Nat) (props : List (JsString × JsValue)) :
    vencProps fmt sorted top depth props = props.map fun p => (p.1, vencValue fmt sorted top depth p.2) := by
  induction props with
  | nil => rfl
  | cons p props ih =>
    rw [vencProps, ih, map_cons]

theorem vencObject_coded (written : vencObject fmt sorted (vencProps fmt sorted top depth props) = .ok out) :
    ∃ ps body, ps.Perm props ∧ Coded fmt sorted top depth ps body ∧ out = vencLen fmt .map props.length ++ body := by
  have count : (vencProps fmt sorted top depth props).length = props.length := by
    rw [vencProps_eq, length_map]
  rw [vencObject, count] at written
  split_ifs at written with order
  · obtain ⟨keyed, all, written⟩ := bind_ok written
    obtain ⟨same, keys⟩ := mapM_keys all
    rw [vencProps_eq] at same keys
    rw [map_map] at same
    have keys' : ∀ p ∈ props, toCStringLen p.1 = .ok (utf8Units p.1.units) := fun p member =>
      keys _ (mem_map_of_mem member)
    let code := fun p : JsString × JsValue => (utf8Units p.1.units, vencValue fmt sorted top depth p.2)
    have sorts := map_insertionSort (Order.Preimage code VencKeyLe) VencKeyLe code props fun _ _ _ _ => Iff.rfl
    obtain ⟨text, body, written⟩ := bind_ok written
    have perm := perm_insertionSort (Order.Preimage code VencKeyLe) props
    refine ⟨_, text, perm, ?_, (ok.inj written).symm⟩
    refine vencKeyed_coded fmt (fun p member => keys' p (perm.mem_iff.mp member)) ?_
    rw [sorts, ← body, same]
    rfl
  · obtain ⟨text, body, written⟩ := bind_ok written
    exact ⟨props, text, .refl _, vencPlain_coded fmt body, (ok.inj written).symm⟩

theorem vdecKey_decides (value : Reader) {k : JsString} {ks : List UInt8} (key : toCStringLen k = .ok ks)
    (short : k.units.length ≤ jsStringLenMax) (rest : List UInt8) :
    Decides (vdecKey valueToAtom fmt n value (vencLen fmt .str ks.length ++ ks ++ rest)) (ks.length ≤ vsMaxItems) rest
      (· = newStringLen ks) := by
  have fits : ks.length < 2 ^ 32 := lt_of_le_of_lt (toCStringLen_length short key) (by decide)
  rw [vdecKey, append_assoc, vdecKeyLen_len fmt n fits]
  exact (vdecTake_decides n ks rest).last fun w is => ⟨_, rfl, by rw [is]⟩

theorem defineProperty_new {key : JsString} (fresh : key.units ∉ props.map (·.1.units))
    (v : JsValue) : defineProperty props key v = props ++ [(key, v)] := by
  rw [defineProperty, if_neg]
  rw [any_eq_true]
  rintro ⟨p, member, same⟩
  refine fresh (mem_map.mpr ⟨p, member, ?_⟩)
  simpa using same

def SmallProp (p : JsString × JsValue) : Prop := (utf8Units p.1.units).length ≤ vsMaxItems ∧ All Small p.2

theorem vdecEntries_reads {ps : List (JsString × JsValue)}
    (each : ∀ p ∈ ps, ∀ out, vencValue fmt sorted top depth p.2 = .ok out → 0 < out.length ∧ Reads value p.2 out)
    (short : ∀ p ∈ ps, p.1.units.length ≤ jsStringLenMax)
    (coded : Coded fmt sorted top depth ps body) :
    2 * ps.length ≤ body.length ∧ ∀ (acc : List (JsString × JsValue)) rest,
      (acc.map (·.1.units) ++ ps.map (·.1.units)).Nodup →
      Decides (vdecEntries valueToAtom fmt n value ps.length acc (body ++ rest)) (∀ p ∈ ps, SmallProp p) rest fun all =>
        ∃ qs, all = acc ++ qs ∧ ps.map (·.1.units) = qs.map (·.1.units) ∧
          List.Forall₂ Same (ps.map Prod.snd) (qs.map Prod.snd) := by
  induction ps generalizing body with
  | nil =>
    rw [show body = [] from coded]
    refine ⟨le_rfl, fun acc rest _ => ⟨fun _ => ⟨acc, rfl, [], ?_, rfl, .nil⟩, fun large => absurd (by simp) large⟩⟩
    rw [append_nil]
  | cons p ps ih =>
    obtain ⟨k, v⟩ := p
    obtain ⟨ks, one, tail, key, val, more, shape⟩ := coded
    obtain ⟨positive, reads⟩ := each (k, v) mem_cons_self one val
    obtain ⟨long, entries⟩ := ih (fun q member => each q (mem_cons_of_mem _ member))
      (fun q member => short q (mem_cons_of_mem _ member)) more
    have head := vencLen_pos fmt .str ks.length
    have name := newStringLen_toCStringLen key
    refine ⟨?_, fun acc rest differ => ?_⟩
    · rw [shape, length_append, length_append, length_append, length_cons]
      omega
    have whole : body ++ rest = vencLen fmt .str ks.length ++ ks ++ (one ++ (tail ++ rest)) := by
      rw [shape, append_assoc, append_assoc]
    have fresh : (newStringLen ks).units ∉ acc.map (·.1.units) := by
      rw [name]
      intro member
      exact (nodup_append.mp differ).2.2 _ member _ mem_cons_self rfl
    rw [whole, forall_mem_cons, SmallProp, ← toCStringLen_ok key, and_assoc]
    refine (vdecKey_decides valueToAtom fmt n value key (short (k, v) mem_cons_self) _).bind ?_
    rintro _ rfl
    refine Decides.bind (reads (tail ++ rest)) fun w same => ?_
    dsimp only
    rw [defineProperty_new fresh]
    have further : ((acc ++ [(newStringLen ks, w)]).map (·.1.units) ++ ps.map (·.1.units)).Nodup := by
      rw [map_append, map_singleton, name, append_assoc]
      exact differ
    obtain ⟨good, bad⟩ := entries _ rest further
    refine ⟨fun small => ?_, bad⟩
    obtain ⟨_, read, qs, rfl, keys, vals⟩ := good small
    refine ⟨_, read, (newStringLen ks, w) :: qs, by simp, ?_, .cons same vals⟩
    rw [map_cons, map_cons, keys, name]

theorem reads_object (held : Held (.object props))
    (each : ∀ p ∈ props, ∀ out, vencValue fmt sorted top depth p.2 = .ok out →
      0 < out.length ∧ Reads (vdecValue valueToAtom fmt n left) p.2 out)
    (written : vencObject fmt sorted (vencProps fmt sorted top depth props) = .ok out) :
    Reads (vdecValue valueToAtom fmt n (left + 1)) (.object props) out := by
  obtain ⟨ps, body, perm, coded, rfl⟩ := vencObject_coded fmt written
  obtain ⟨count, differ, short⟩ := held
  have size := perm.length_eq
  obtain ⟨long, entries⟩ := vdecEntries_reads valueToAtom fmt n (fun p member => each p (perm.mem_iff.mp member))
    (fun p member => short p (perm.mem_iff.mp member)) coded
  have nodup : (([] : List (JsString × JsValue)).map (·.1.units) ++ ps.map (·.1.units)).Nodup := by
    exact (perm.map _).nodup_iff.mpr differ
  intro rest
  have read := entries [] rest nodup
  rw [size] at read long
  have split : All Small (.object props) ↔ props.length ≤ vsMaxItems ∧ ∀ p ∈ ps, SmallProp p := by
    rw [all_object, Small, and_assoc]
    refine and_congr_right fun _ => ?_
    constructor
    · rintro ⟨keys, vals⟩ p member
      exact ⟨keys p (perm.mem_iff.mp member), vals p (perm.mem_iff.mp member)⟩
    · intro all
      exact ⟨fun p member => (all p (perm.mem_iff.mpr member)).1, fun p member => (all p (perm.mem_iff.mpr member)).2⟩
  rw [append_assoc, vdecValue_len valueToAtom fmt n left .map count, split]
  change Decides (vdecMap valueToAtom fmt n (vdecValue valueToAtom fmt n left) props.length (body ++ rest)) _ _ _
  rw [vdecMap, vdecBounded]
  by_cases few : props.length ≤ vsMaxItems
  · have room : props.length ≤ (body ++ rest).length / 2 := by
      rw [length_append]
      omega
    rw [if_neg (by omega), and_iff_right few]
    refine read.last ?_
    rintro _ ⟨qs, rfl, keys, vals⟩
    exact ⟨_, rfl, .object ps perm keys vals⟩
  · rw [if_pos (.inl (by omega))]
    exact ⟨fun both => absurd both.1 few, fun _ => ⟨_, rfl⟩⟩

theorem vencValue_level {v : JsValue} {depth left : Nat}
    (level : depth + left = vsMaxDepth) (written : vencValue fmt sorted top depth v = .ok out) :
    ∃ down, left = down + 1 ∧ ¬ vsMaxDepth ≤ depth := by
  unfold vencValue at written
  by_cases deep : vsMaxDepth ≤ depth
  · rw [if_pos deep] at written
    contradiction
  · exact ⟨left - 1, by omega, deep⟩

/-- What the encoder writes for a value is read back as that value, or refused if something in
it is over a limit of the decoder. -/
theorem vencValue_reads (int64 : -2 ^ 63 ≤ top ∧ top < 2 ^ 63) (v : JsValue)
    (held : All Held v) (expressible : All (Expressible fmt) v) (depth left : Nat)
    (level : depth + left = vsMaxDepth) (written : vencValue fmt sorted top depth v = .ok out) :
    0 < out.length ∧ Reads (vdecValue valueToAtom fmt n left) v out := by
  induction v using JsValue.induct generalizing depth left out
  all_goals
    obtain ⟨down, rfl, deep⟩ := vencValue_level fmt level written
    unfold vencValue at written
    rw [if_neg deep] at written
  case undefined =>
    have cbor : fmt = .cbor := expressible.resolve_right fun differ => differ rfl
    subst cbor
    rw [← ok.inj written]
    exact ⟨one_pos, reads_leaf trivial .undefined fun rest => rfl⟩
  case null =>
    rw [← ok.inj written]
    exact ⟨one_pos, reads_leaf trivial .null fun rest => by cases fmt <;> rfl⟩
  case bool b =>
    rw [← ok.inj written]
    exact ⟨one_pos, reads_leaf trivial (.bool b) fun rest => by cases fmt <;> cases b <;> rfl⟩
  case number d =>
    rw [← ok.inj written]
    exact ⟨vencNumber_pos fmt top d,
      reads_leaf trivial (.number d) fun rest => vdecValue_number valueToAtom fmt n down int64 d rest⟩
  case string s =>
    obtain ⟨bytes, lent, written⟩ := bind_ok written
    rw [← ok.inj written]
    exact ⟨vencLen_append_pos .., reads_string valueToAtom fmt n down held lent⟩
  case bytes b =>
    rw [← ok.inj written]
    exact ⟨vencLen_append_pos .., reads_bytes valueToAtom fmt n down held⟩
  case array l ih =>
    rw [all_array] at held expressible
    dsimp only at written
    split_ifs at written with many
    obtain ⟨body, items, written⟩ := bind_ok written
    rw [← ok.inj written]
    refine ⟨vencLen_append_pos .., reads_array valueToAtom fmt n down (fun v member out one => ?_) (by omega) items⟩
    exact ih v member (held.2 v member) (expressible.2 v member) (depth + 1) down (by omega) one
  case object props ih =>
    rw [all_object] at held expressible
    obtain ⟨ps, body, -, -, shape⟩ := vencObject_coded fmt written
    refine ⟨by rw [shape]; exact vencLen_append_pos ..,
      reads_object valueToAtom fmt n down held.1 (fun p member out one => ?_) written⟩
    exact ih p member (held.2 p member) (expressible.2 p member) (depth + 1) down (by omega) one
  case other => contradiction

/-- No encoding goes on from the end of another, so values written one after the other are told apart. -/
theorem wire_prefix_free {v w : JsValue} {out' : List UInt8} (int64 : -2 ^ 63 ≤ top ∧ top < 2 ^ 63)
    (held : All Held v ∧ All Held w) (expressible : All (Expressible fmt) v ∧ All (Expressible fmt) w)
    (small : All Small v)
    (one : vencValue fmt sorted top 0 v = .ok out) (two : vencValue fmt sorted top 0 w = .ok out')
    (goes : out <+: out') :
    out = out' ∧ ∃ x, Same v x ∧ Same w x := by
  obtain ⟨rest, rfl⟩ := goes
  let readsOf := @vencValue_reads (fun _ => .error .outOfMemory) fmt 0
  obtain ⟨x, read, same⟩ := ((readsOf int64 v held.1 expressible.1 0 vsMaxDepth rfl one).2 rest).1 small
  have whole := (readsOf int64 w held.2 expressible.2 0 vsMaxDepth rfl two).2 []
  rw [append_nil, read] at whole
  by_cases fits : All Small w
  · obtain ⟨y, again, same'⟩ := whole.1 fits
    cases again
    exact ⟨(append_nil out).symm, x, same, same'⟩
  · obtain ⟨e, fails⟩ := whole.2 fits
    contradiction

/-- An object and the same with its keys in the other order, written with sorted keys. -/
theorem wire_prefix_free_sorted :
    let a : JsString := ⟨[97], false, narrow_of_all rfl⟩
    let b : JsString := ⟨[98], false, narrow_of_all rfl⟩
    ∃ x, Same (.object [(a, .null), (b, .null)]) x ∧ Same (.object [(b, .null), (a, .null)]) x :=
  (wire_prefix_free .cbor (by decide : _ ∧ (0 : Int) < 2 ^ 63) (by simp [All, AllProps, Held, jsStringLenMax])
    (by simp [All, AllProps, Expressible]) (by simp [All, AllProps, Small, vsMaxItems, utf8Units, unicodeToUtf8])
    (show vencValue .cbor true 0 0 _ = .ok [0xA2, 0x61, 0x61, 0xF6, 0x61, 0x62, 0xF6] from rfl) rfl (prefix_refl _)).2

end Reads

/-- The decoder of a format gives back what its encoder, sorting keys or not, accepted, exactly
if no string, key or byte array has more than `VS_MAX_ITEMS` bytes and no object more than
`VS_MAX_ITEMS` properties. -/
theorem wire_round_trip_iff (valueToAtom : JsValue → Except Thrown JsString) (fmt : Format) (sorted : Bool) (top : Int)
    (int64 : -2 ^ 63 ≤ top ∧ top < 2 ^ 63) (v : JsValue) (held : All Held v) (expressible : All (Expressible fmt) v)
    (out : List UInt8) (encoded : vsEncode fmt sorted top v = .ok out) :
    (∃ w, vsDecode valueToAtom fmt out = .ok w ∧ Same v w) ↔ All Small v := by
  have written : vencValue fmt sorted top 0 v = .ok out := by
    rw [vsEncode] at encoded
    obtain ⟨bytes, made, encoded⟩ := bind_ok encoded
    split at encoded
    · contradiction
    · rw [made]
      exact encoded
  obtain ⟨-, reads⟩ := vencValue_reads valueToAtom fmt out.length int64 v held expressible 0 vsMaxDepth
    (by decide) written
  obtain ⟨good, bad⟩ := reads []
  rw [append_nil] at good bad
  rw [vsDecode]
  constructor
  · rintro ⟨w, decoded, -⟩
    by_contra large
    obtain ⟨e, fails⟩ := bad large
    rw [fails] at decoded
    contradiction
  · intro small
    obtain ⟨w, read, same⟩ := good small
    rw [read]
    exact ⟨w, rfl, same⟩

/-- `[null, "a"]` in CBOR. -/
theorem wire_round_trip_pair : (∃ w, vsDecode (fun _ => .error .outOfMemory) .cbor [0x82, 0xF6, 0x61, 0x61] = .ok w ∧
      Same (.array [.null, .string ⟨[97], false, narrow_of_all rfl⟩]) w) ↔
    All Small (.array [.null, .string ⟨[97], false, narrow_of_all rfl⟩]) :=
  wire_round_trip_iff (fun _ => .error .outOfMemory) .cbor true 0 (by decide)
    (.array [.null, .string ⟨[97], false, narrow_of_all rfl⟩])
    (by simp [All, AllItems, Held, jsStringLenMax]) (by simp [All, AllItems, Expressible]) [0x82, 0xF6, 0x61, 0x61] rfl

theorem vsEncode_long {b : List UInt8} (large : vsMaxItems < b.length) (short : b.length + 5 ≤ int32Max) :
    vsEncode .cbor false 0 (.bytes b) = .ok (vencLen .cbor .bin b.length ++ b) ∧
      ∃ e, vsDecode (fun _ => .error .outOfMemory) .cbor (vencLen .cbor .bin b.length ++ b) = .error e := by
  have wide : vsMaxItems = 67108864 ∧ int32Max = 2147483647 := ⟨rfl, rfl⟩
  have header : (vencLen .cbor .bin b.length).length = 5 := by
    rw [vencLen, cborHead, if_neg (by omega), if_neg (by omega), if_neg (by omega), if_pos (by omega), length_cons,
      vbBe_length]
  constructor
  · change (if int32Max < (vencLen .cbor .bin b.length ++ b).length then _ else _) = _
    rw [if_neg (by rw [length_append]; omega)]
    rfl
  · have held : b.length ≤ int32Max := by omega
    obtain ⟨e, fails⟩ := (reads_bytes (fun _ => .error .outOfMemory) .cbor (vencLen .cbor .bin b.length ++ b).length 255
      held []).2 (by rw [All, Small]; omega)
    rw [append_nil] at fails
    rw [vsDecode, show vsMaxDepth = 255 + 1 by rfl, fails]
    exact ⟨e, rfl⟩

/-- `VS_MAX_ITEMS + 1` zero bytes are encoded, and the encoding is refused. -/
theorem long_bytes_refused : ∃ out, vsEncode .cbor false 0 (.bytes (List.replicate (2 ^ 26 + 1) 0)) = .ok out ∧
      ∃ e, vsDecode (fun _ => .error .outOfMemory) .cbor out = .error e :=
  ⟨_, vsEncode_long (by rw [length_replicate]; decide) (by rw [length_replicate]; decide)⟩

end DynaJS.Vser
