import DynaJS.Resp.Scan

/-! The RESP reader of `dyn-resp.c`, and its agreement with the scanner: whatever
the scanner accepts the reader walks to the same end. -/
namespace DynaJS.Resp

/-- The number parser `js_atod` with the length it took, the test `v != v`, the
special values, and whether an allocation of a given size succeeds. -/
structure DoubleLib (D : Type) where
  atod : List UInt8 → D × Nat
  isNan : D → Bool
  inf : D
  negInf : D
  nan : D
  malloc : Nat → Bool

/-- `dyn_resp_item_t`; `str` is the slice `(offset, slen)`, `none` for `NULL`, and
`dval` is `none` for the 0.0 the item starts with. -/
structure Item (D : Type) where
  type : RespType
  str : Option (Nat × Nat)
  ival : Int
  dval : Option D
  count : Int
  isnull : Bool

def stackbufSize : Nat := 64

variable {D : Type}

variable (lib : DoubleLib D)

def parseDouble (p : List UInt8) : Except RespError D :=
  if p.length = 0 then .error .eSyntax
  else if stackbufSize < p.length + 1 ∧ ¬ lib.malloc (p.length + 1) then .error .eSyntax
  else
    let r := lib.atod p
    if r.2 ≠ p.length ∨ lib.isNan r.1 then .error .eSyntax else .ok r.1

def doubleValue (text : List UInt8) : Except RespError D :=
  if text = [105, 110, 102] then .ok lib.inf
  else if text = [45, 105, 110, 102] then .ok lib.negInf
  else if text = [110, 97, 110] then .ok lib.nan
  else if text.length = 0 then .error .eSyntax
  else parseDouble lib text

def respNext (b : Buffer) (p : Nat) : Except RespError (Item D) × Nat :=
  if b.length ≤ p then (.error .incomplete, p)
  else
    match respLine b (p + 1) with
    | .error rc => (.error rc, p)
    | .ok e =>
      match respType (byte b p) with
      | none => (.error .eType, e + 2)
      | some t =>
        let it : Item D := ⟨t, some (p + 1, e - (p + 1)), 0, none, 0, false⟩
        let null : Item D := { it with str := none, isnull := true }
        match t.kind with
        | .line =>
          match t with
          | .null => (.ok null, e + 2)
          | .bool =>
            (.ok { it with ival := if e - (p + 1) = 1 ∧ byte b (p + 1) = 116 then 1 else 0 }, e + 2)
          | .int =>
            match respInt b (p + 1) e with
            | .error rc => (.error rc, e + 2)
            | .ok v => (.ok { it with ival := v }, e + 2)
          | .double =>
            match doubleValue lib ((b.drop (p + 1)).take (e - (p + 1))) with
            | .error rc => (.error rc, e + 2)
            | .ok v => (.ok { it with dval := some v }, e + 2)
          | _ => (.ok it, e + 2)
        | .blob =>
          match respInt b (p + 1) e with
          | .error rc => (.error rc, e + 2)
          | .ok n =>
            if n < 0 then (.ok null, e + 2)
            else if b.length < e + 2 + n.toNat + 2 then (.error .incomplete, e + 2)
            else (.ok { it with str := some (e + 2, n.toNat) }, e + 2 + n.toNat + 2)
        | .aggregate =>
          match respInt b (p + 1) e with
          | .error rc => (.error rc, e + 2)
          | .ok n =>
            if n < 0 then (.ok null, e + 2)
            else (.ok { it with str := none, count := n }, e + 2)

def children (it : Item D) : Nat :=
  if it.isnull then 0
  else
    match it.type with
    | .array | .set | .push => it.count.toNat
    | .map => 2 * it.count.toNat
    | .attr => 2 * it.count.toNat + 1
    | _ => 0

/-- A recursive descent over `k` values from `pos`: where it stops, or the
position and the code of the item it fails on. -/
def walk (lib : DoubleLib D) (b : Buffer) : Nat → Nat → Nat → Option (Except (Nat × RespError) Nat)
  | _, 0, pos => some (.ok pos)
  | 0, _ + 1, _ => none
  | fuel + 1, k + 1, pos =>
    match respNext lib b pos with
    | (.error rc, _) => some (.error (pos, rc))
    | (.ok it, next) =>
      match walk lib b fuel (children it) next with
      | some (.ok after) => walk lib b fuel k after
      | failed => failed

def walkMessage (b : Buffer) : Option (Except (Nat × RespError) Nat) :=
  walk lib b (b.length + 1) 1 0

theorem doubleValue_error {lib : DoubleLib D} {text : List UInt8} {rc : RespError}
    (failed : doubleValue lib text = .error rc) : rc = .eSyntax := by
  unfold doubleValue parseDouble at failed
  simp only at failed
  split_ifs at failed <;> exact (Except.error.inj failed).symm

theorem children_elements {it : Item D} (here : it.isnull = false) (group : it.type.kind = .aggregate)
    (count : 0 ≤ it.count) :
    (children it : Int) = if it.type = .attr then elements it.type it.count + 1 else elements it.type it.count := by
  unfold children elements
  cases type : it.type <;> simp_all [RespType.kind] <;> omega

/-- On a header the scanner accepted, the reader ends at the same position with
the same children to come, or fails on a double. -/
theorem respNext_agrees {b : Buffer} {p maxbulk : Nat} {h : Header} (read : respOne b p maxbulk = .ok h) :
    (∃ it, respNext lib b p = (.ok it, h.pos) ∧ (children it : Int) = pending h ∧ 0 ≤ h.nelem) ∨
    (∃ next, respNext lib b p = (.error .eSyntax, next) ∧ byte b p = 44) := by
  obtain ⟨inside, t, e, typed, line, _, kinds⟩ := respOne_cases read
  unfold respNext
  simp only [if_neg (by omega : ¬ b.length ≤ p), line, typed]
  rcases kinds with ⟨group, int, rfl⟩ | ⟨group, n, number, blob⟩ | ⟨group, n, number, aggregate⟩
  · have plain : t.kind = .line → ∀ it : Item D, it.type = t →
        children it = pending ⟨t, 0, e + 2⟩ ∧ (0 : Int) ≤ 0 := fun _ it same => by
      cases t <;> simp_all [RespType.kind, children, pending]
    simp only [group]
    split
    · exact .inl ⟨_, rfl, plain group _ rfl⟩
    · exact .inl ⟨_, rfl, plain group _ rfl⟩
    · obtain ⟨v, number⟩ := int rfl
      simp only [number]
      exact .inl ⟨_, rfl, plain group _ rfl⟩
    · cases value : doubleValue lib ((b.drop (p + 1)).take (e - (p + 1))) with
      | error rc =>
        cases doubleValue_error value
        exact .inr ⟨_, rfl, (respType_byte typed).symm⟩
      | ok v => exact .inl ⟨_, rfl, plain group _ rfl⟩
    · exact .inl ⟨_, rfl, plain group _ rfl⟩
  · have flat : ∀ it : Item D, it.type = t → (children it : Int) = 0 := fun it same => by
      cases t <;> simp_all [RespType.kind, children]
    have still : ∀ pos, pending ⟨t, 0, pos⟩ = 0 := fun pos => by
      cases t <;> simp_all [RespType.kind, pending]
    simp only [group, number]
    rcases blob with ⟨neg, rfl⟩ | ⟨nonneg, fits, rfl⟩
    · rw [if_pos neg]
      exact .inl ⟨_, rfl, by rw [still]; exact flat _ rfl, le_refl _⟩
    · rw [if_neg (by omega), if_neg (by omega)]
      exact .inl ⟨_, rfl, by rw [still]; exact flat _ rfl, le_refl _⟩
  · simp only [group, number]
    rcases aggregate with ⟨neg, rfl, rfl⟩ | ⟨nonneg, rfl⟩
    · rw [if_pos neg]
      exact .inl ⟨_, rfl, by simp [children, pending], le_refl _⟩
    · rw [if_neg (by omega)]
      refine .inl ⟨_, rfl, children_elements rfl group nonneg, ?_⟩
      simp only [elements]
      split_ifs <;> omega

def walkStack (lib : DoubleLib D) (b : Buffer) (fuel : Nat) : List Int → Nat → Option (Except (Nat × RespError) Nat)
  | [], pos => some (.ok pos)
  | w :: rest, pos =>
    match walk lib b fuel w.toNat pos with
    | some (.ok after) => walkStack lib b fuel rest after
    | failed => failed

section Walk

variable {lib : DoubleLib D} {b : Buffer} {r : Except (Nat × RespError) Nat}

theorem walk_more {fuel more k pos : Nat} (done : walk lib b fuel k pos = some r) (enough : fuel ≤ more) :
    walk lib b more k pos = some r := by
  induction fuel generalizing more k pos r with
  | zero =>
    cases k with
    | zero => cases more <;> exact done
    | succ k => simp [walk] at done
  | succ fuel ih =>
    cases k with
    | zero => cases more <;> exact done
    | succ k =>
      obtain ⟨more, rfl⟩ : ∃ m, more = m + 1 := ⟨more - 1, by omega⟩
      simp only [walk] at done ⊢
      cases next : respNext lib b pos with
      | mk item after =>
        cases item with
        | error rc => simpa only [next] using done
        | ok it =>
          simp only [next] at done ⊢
          cases inner : walk lib b fuel (children it) after with
          | none => simp [inner] at done
          | some r₁ =>
            rw [ih inner (by omega)]
            cases r₁ with
            | error bad => simpa only [inner] using done
            | ok mid =>
              simp only [inner] at done ⊢
              exact ih done (by omega)

theorem walkStack_more {fuel more : Nat} {want : List Int} {pos : Nat} (done : walkStack lib b fuel want pos = some r)
    (enough : fuel ≤ more) : walkStack lib b more want pos = some r := by
  induction want generalizing pos with
  | nil => exact done
  | cons w rest ih =>
    simp only [walkStack] at done ⊢
    cases top : walk lib b fuel w.toNat pos with
    | none => simp [top] at done
    | some r₁ =>
      rw [walk_more top enough]
      cases r₁ with
      | error bad => simpa only [top] using done
      | ok mid =>
        simp only [top] at done ⊢
        exact ih done

theorem walk_zero (fuel pos : Nat) : walk lib b fuel 0 pos = some (.ok pos) := by
  cases fuel <;> rfl

theorem walkStack_popDone (fuel : Nat) (want : List Int) (pos : Nat) :
    walkStack lib b fuel want pos = walkStack lib b fuel (popDone want) pos := by
  induction want with
  | nil => rfl
  | cons w rest ih =>
    by_cases done : w = 0
    · subst done
      simp only [walkStack, Int.toNat_zero, walk_zero, popDone, List.dropWhile_cons, decide_true, if_true]
      exact ih
    · simp [popDone, done]

def Reaches (b : Buffer) (c : Nat) (r : Option (Except (Nat × RespError) Nat)) : Prop :=
  r = some (.ok c) ∨ ∃ p, r = some (.error (p, .eSyntax)) ∧ byte b p = RespType.double.byte

theorem reaches_some {c : Nat} {r : Option (Except (Nat × RespError) Nat)} (reaches : Reaches b c r) :
    ∃ out, r = some out := by
  rcases reaches with rfl | ⟨p, rfl, _⟩
  · exact ⟨_, rfl⟩
  · exact ⟨_, rfl⟩

theorem walkStack_value {fuel pos next c : Nat} {it : Item D} {w : Int} {rest : List Int}
    (positive : 0 < w) (item : respNext lib b pos = (.ok it, next))
    (reaches : Reaches b c (walkStack lib b fuel ((children it : Int) :: (w - 1) :: rest) next)) :
    Reaches b c (walkStack lib b (fuel + 1) (w :: rest) pos) := by
  obtain ⟨k, rfl⟩ : ∃ k : Nat, w = k + 1 := ⟨(w - 1).toNat, by omega⟩
  simp only [walkStack, Int.toNat_natCast_add_one, walk, item] at reaches ⊢
  rw [show ((k : Int) + 1 - 1).toNat = k by omega, Int.toNat_natCast] at reaches
  cases inner : walk lib b fuel (children it) next with
  | none => simp [inner, Reaches] at reaches
  | some r₁ =>
    cases r₁ with
    | error bad => simpa only [inner] using reaches
    | ok mid =>
      simp only [inner] at reaches ⊢
      cases outer : walk lib b fuel k mid with
      | none => simp [outer, Reaches] at reaches
      | some r₂ =>
        cases r₂ with
        | error bad => simpa only [outer] using reaches
        | ok after =>
          simp only [outer] at reaches ⊢
          obtain ⟨out, done⟩ := reaches_some reaches
          rw [walkStack_more done (Nat.le_succ fuel), ← done]
          exact reaches

theorem walkStack_reaches {maxbulk c : Nat} (rounds : Nat) (st last : Scan)
    (scanned : Loop.run (scanStep b maxbulk) rounds st = some (⟨none, c⟩, last))
    (counts : ∀ w ∈ st.want, 0 ≤ w) (fuel : Nat) (enough : b.length - st.pos < fuel) :
    Reaches b c (walkStack lib b fuel st.want st.pos) := by
  induction rounds generalizing st fuel with
  | zero => simp [Loop.run] at scanned
  | succ rounds ih =>
    rw [walkStack_popDone]
    have left : ∀ w ∈ popDone st.want, 0 ≤ w := fun w member =>
      counts w ((List.dropWhile_sublist _).mem member)
    simp only [Loop.run, scanStep] at scanned
    cases popped : popDone st.want with
    | nil =>
      simp only [popped] at scanned
      cases Option.some.inj scanned
      exact .inl rfl
    | cons w rest =>
      rw [popped] at left
      have positive : 0 < w := by
        have := left w List.mem_cons_self
        have := popDone_head popped
        omega
      cases read : respOne b st.pos maxbulk with
      | error rc =>
        simp only [popped, read] at scanned
        cases Option.some.inj scanned
      | ok h =>
        have bounds := respOne_bounds read
        have least : minValueLen = 3 := rfl
        obtain ⟨fuel, rfl⟩ : ∃ f, fuel = f + 1 := ⟨fuel - 1, by omega⟩
        simp only [popped, read] at scanned
        have below : ∀ v ∈ (w - 1) :: rest, 0 ≤ v := fun v member => by
          rcases List.mem_cons.mp member with rfl | member
          · omega
          · exact left v (List.mem_cons_of_mem _ member)
        rcases respNext_agrees lib read with ⟨it, item, count, _⟩ | ⟨next, item, double⟩
        · apply walkStack_value positive item
          rw [count]
          split_ifs at scanned with more deep
          · cases Option.some.inj scanned
          · refine ih ⟨pending h :: (w - 1) :: rest, h.pos⟩ scanned (fun v member => ?_) fuel (by simp only; omega)
            rcases List.mem_cons.mp member with rfl | member
            · omega
            · exact below v member
          · have none : pending h = 0 := by omega
            rw [none]
            simp only [walkStack, Int.toNat_zero, walk_zero]
            exact ih ⟨(w - 1) :: rest, h.pos⟩ scanned below fuel (by simp only; omega)
        · obtain ⟨k, rfl⟩ : ∃ k : Nat, w = k + 1 := ⟨(w - 1).toNat, by omega⟩
          simp only [walkStack, Int.toNat_natCast_add_one, walk, item]
          exact .inr ⟨_, rfl, double⟩

end Walk

/-- On every buffer the scanner accepts with `c` bytes consumed, the reader's walk
ends at `c` unless it meets a double it cannot read. -/
theorem reader_follows_scanner (b : Buffer) (maxbulk c : Nat) (accepted : respScan b maxbulk = some ⟨none, c⟩) :
    walkMessage lib b = some (.ok c) ∨
      ∃ p, walkMessage lib b = some (.error (p, .eSyntax)) ∧ byte b p = RespType.double.byte := by
  unfold respScan at accepted
  obtain ⟨⟨o, last⟩, scanned, same⟩ := Option.map_eq_some_iff.mp accepted
  simp only at same
  subst same
  have reaches : Reaches b _ (walkStack lib b _ _ _) :=
    walkStack_reaches _ scanInit last scanned (by decide) (b.length + 1) (by simp only [scanInit]; omega)
  unfold walkMessage
  simp only [scanInit, walkStack] at reaches
  have one : (1 : Int).toNat = 1 := rfl
  rw [one] at reaches
  cases only : walk lib b (b.length + 1) 1 0 with
  | none => simp [only, Reaches] at reaches
  | some r =>
    cases r with
    | error bad =>
      simp only [only] at reaches
      exact reaches
    | ok after =>
      simp only [only] at reaches
      exact reaches

/-- The attributed map `|1\r\n+k\r\n_\r\n%1\r\n:1\r\n#t\r\n` with a number parser that
takes everything. -/
theorem reader_follows_scanner_map :
    let lib : DoubleLib Int := ⟨fun p => (0, p.length), fun _ => false, 0, 0, 0, fun _ => true⟩
    let b : Buffer := [124, 49, 13, 10, 43, 107, 13, 10, 95, 13, 10, 37, 49, 13, 10, 58, 49, 13, 10, 35, 116, 13, 10]
    respScan b 0 = some ⟨none, 23⟩ ∧ (walkMessage lib b = some (.ok 23) ∨
      ∃ p, walkMessage lib b = some (.error (p, .eSyntax)) ∧ byte b p = RespType.double.byte) :=
  ⟨by decide, reader_follows_scanner _ _ 0 23 (by decide)⟩

end DynaJS.Resp
