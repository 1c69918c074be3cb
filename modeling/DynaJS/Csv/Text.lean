import DynaJS.Csv.Scan

/-! `csv.stringify` and `csv.parse` of `dyna-csv.c`: the options, the writer over C strings,
and the sink that turns fields into rows. -/
namespace DynaJS.Csv

open Engine

/-- The part of the options that both functions read. An option that is undefined or null
is `none`; anything else is converted to a string. -/
structure DelimOpts where
  delimiter : Option JsString
  quote : Option JsString

def cString (bytes : List UInt8) : List UInt8 := bytes.takeWhile (· != 0)

def optsOneChar (pfx key : String) (s : List UInt8) (reserved : UInt8) (role : String) : Except Thrown UInt8 :=
  match s with
  | [c] =>
    if c = reserved then
      .error (.typeError (pfx ++ ": '" ++ key ++ "' must not be the " ++ role ++ " character '" ++
        String.singleton (Char.ofNat reserved.toNat) ++ "'"))
    else if c = lf ∨ c = cr then .error (.typeError (pfx ++ ": '" ++ key ++ "' must not be CR or LF"))
    else .ok c
  | _ => .error (.typeError (pfx ++ ": '" ++ key ++ "' must be exactly one ASCII character"))

def optChar (pfx key : String) (opt : Option JsString) (default reserved : UInt8) (role : String) :
    Except Thrown UInt8 :=
  match opt with
  | none => .ok default
  | some s => do
    let bytes ← toCStringLen s
    optsOneChar pfx key (cString bytes) reserved role

def comma : UInt8 := 44

def dquote : UInt8 := 34

def optsDelimQuote (pfx : String) (opts : DelimOpts) : Except Thrown (UInt8 × UInt8) := do
  let delim ← optChar pfx "delimiter" opts.delimiter comma dquote "quote"
  let quote ← optChar pfx "quote" opts.quote dquote comma "delimiter"
  if delim = quote then throw (.typeError (pfx ++ ": 'delimiter' and 'quote' must differ"))
  return (delim, quote)

section Write

variable (delim quote : UInt8)

def fieldNeedsQuote (s : List UInt8) : Bool := s.any fun p => p == delim || p == quote || p == lf || p == cr

def doubled (quote : UInt8) : List UInt8 → List UInt8
  | [] => []
  | p :: s => if p = quote then quote :: p :: doubled quote s else p :: doubled quote s

def emitField (s : List UInt8) : List UInt8 :=
  if fieldNeedsQuote delim quote s then quote :: doubled quote s ++ [quote] else s

/-- A cell. A number comes with the digits that `csv_num_text` writes; other values are
converted to strings. -/
inductive CellValue where
  | undefined
  | number (digits : List UInt8)
  | text (s : JsString)

def cellText : CellValue → Except Thrown (Option (List UInt8))
  | .undefined => .ok none
  | .number digits => .ok (some digits)
  | .text s => (toCStringLen s).map fun bytes => some (cString bytes)

/-- A row: an array, an object with its enumerable own properties, or anything else. -/
inductive RowValue where
  | array (cells : List CellValue)
  | object (props : List (JsString × CellValue))
  | other

def csvTextMax : Nat := 2 ^ 30 - 1

def tooLong : Thrown := .rangeError "csv.stringify: the output exceeds the maximum string length"

def emitCells (watched : Bool) (delim quote : UInt8) : Bool → List UInt8 → List CellValue → Except Thrown (List UInt8)
  | _, out, [] => .ok out
  | first, out, c :: cells => do
    let s ← cellText c
    let out := out ++ (if first then [] else [delim]) ++ (s.map (emitField delim quote)).getD []
    if watched ∧ csvTextMax < out.length then throw tooLong
    emitCells watched delim quote false out cells

def ownData (props : List (JsString × CellValue)) (name : JsString) : CellValue :=
  match props.find? fun p => p.1.units == name.units with
  | some (_, v) => v
  | none => .undefined

def emitRow (columns : Option (List JsString)) (i : Nat) (out : List UInt8) : RowValue → Except Thrown (List UInt8)
  | .array cells => do
    if columns.isSome then
      throw (.typeError s!"csv.stringify: row {i}: rows must all be objects keyed by header (row 0 was an object)")
    if csvTextMax < cells.length then
      let rc := cells.length
      throw (.rangeError s!"csv.stringify: row {i} has {rc} cells, more than any string can hold")
    let out ← emitCells true delim quote true out cells
    if csvTextMax < (out ++ [lf]).length then throw tooLong
    return out ++ [lf]
  | .object props =>
    match columns with
    | none => .error (.typeError s!"csv.stringify: row {i}: rows must all be arrays (row 0 was an array)")
    | some names => do
      let out ← emitCells false delim quote true out (names.map (ownData props))
      if csvTextMax < (out ++ [lf]).length then throw tooLong
      return out ++ [lf]
  | .other => .error (.typeError s!"csv.stringify: row {i} must be an array or an object")

def emitRows (delim quote : UInt8) (columns : Option (List JsString)) :
    Nat → List UInt8 → List RowValue → Except Thrown (List UInt8)
  | _, out, [] => .ok out
  | i, out, r :: rows => do
    let out ← emitRow delim quote columns i out r
    emitRows delim quote columns (i + 1) out rows

def csvStringify (rows : List RowValue) (opts : DelimOpts) (hasHeader : Bool) : Except Thrown JsString := do
  let (delim, quote) ← optsDelimQuote "csv.stringify" opts
  match rows.head? with
  | none => return newStringLen []
  | some (.array _) =>
    let out ← emitRows delim quote none 0 [] rows
    return newStringLen out
  | some (.object props) =>
    let names := props.map Prod.fst
    let texts ← names.mapM fun name => (toCStringLen name).map cString
    let header := if hasHeader then [delim].intercalate (texts.map (emitField delim quote)) ++ [lf] else []
    let out ← emitRows delim quote (some names) 0 header rows
    return newStringLen out
  | some .other => throw (.typeError "csv.stringify: row 0 must be an array or an object")

end Write

section Read

def csvRepeatCols : Nat := 256

def int32Max : Nat := 2 ^ 31 - 1

/-- `csv_js_sink`. `last` is NULL before the first row has ended; afterwards it holds, for
the first columns, the last bytes that came from the buffer and the string made of them. -/
structure JsSink where
  rows : List (List JsString)
  header : Option (List JsString)
  vals : List JsString
  width : Option Nat
  hasHeader : Bool
  last : Option (Nat → Option (List UInt8 × JsString))

def csvJsString (js : JsSink) (c : Nat) (p : List UInt8) (stable : Bool) : JsString × JsSink :=
  match js.last with
  | none => (newStringLen p, js)
  | some last =>
    if c < csvRepeatCols then
      let v := newStringLen p
      let kept := { js with last := some (Function.update last c (if stable then some (p, v) else none)) }
      match last c with
      | some (q, held) => if q = p then (held, js) else (v, kept)
      | none => (v, kept)
    else (newStringLen p, js)

def csvJsField (js : JsSink) (p : List UInt8) (stable : Bool) : Option JsSink :=
  if js.width.any fun w => w ≤ js.vals.length then some js
  else
    let (v, js) := csvJsString js js.vals.length p stable
    some { js with vals := js.vals ++ [v] }

def csvJsPad (width : Nat) : Nat → JsSink → Option JsSink
  | 0, js => some js
  | left + 1, js => if js.vals.length < width then (csvJsField js [] false).bind (csvJsPad width left) else some js

def csvJsRow (js : JsSink) (rows : Nat) : Option JsSink :=
  let known := match js.width with
    | some w => some (w, js)
    | none =>
      if int32Max < js.vals.length then none
      else some (js.vals.length, { js with width := some js.vals.length, last := some fun _ => none })
  match known with
  | none => none
  | some (w, js) =>
    (csvJsPad w w js).map fun js =>
      if js.hasHeader ∧ rows = 0 then { js with header := some js.vals, vals := [] }
      else { js with rows := js.rows ++ [js.vals], vals := [] }

def jsSink : CsvSink JsSink := ⟨csvJsField, csvJsRow⟩

structure Parsed where
  headers : List JsString
  rows : List (List JsString)
  totalRows : Nat

def csvParse (text : JsString) (opts : DelimOpts) (strict hasHeader : Bool) : Option (Except Thrown Parsed) :=
  match optsDelimQuote "csv.parse" opts with
  | .error e => some (.error e)
  | .ok (delim, quote) =>
    match toCStringLen text with
    | .error e => some (.error e)
    | .ok data =>
      let data := if data.take 3 = [0xEF, 0xBB, 0xBF] then data.drop 3 else data
      (csvScan jsSink ⟨[], none, [], none, hasHeader, none⟩ data strict delim quote).map fun
        | .ok js => .ok ⟨js.header.getD [], js.rows, js.rows.length⟩
        | .error (.syntaxQuote errrow) =>
          .error (.syntaxError s!"csv.parse: row {errrow}: unterminated quoted field")
        | .error (.syntaxGarbage errrow) =>
          .error (.syntaxError s!"csv.parse: row {errrow}: unexpected text after a closing quote")
        | .error .oom => .error .outOfMemory

end Read

end DynaJS.Csv
