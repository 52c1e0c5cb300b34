import ShellFlow.Text.Number
import ShellFlow.Value

/-!
# Data documents

The JSON text of plain data.  Reading is two machines that take one item at a time: characters
become tokens, and each token is taken at once by the reader, which keeps a stack of open lists and
records.

## Design Notes

A whole number of more than 4300 digits is refused as malformed, and lists and records inside each
other beyond a limit as too deep, unlike anything else that is no document.  The first of two causes
counts.
-/

namespace ShellFlow.Document

/-! ### Tokens -/

inductive Token where
  | openList
  | closeList
  | openRecord
  | closeRecord
  | comma
  | colon
  | text (codes : List Nat)
  | scalar (v : Value)
  /-- A whole number with too many digits. -/
  | overlong

/-- What the reader of characters is in: between tokens, in a bare word, in a text, after a
backslash, or in a numbered escape with some digits left.  Collected items are in reverse. -/
inductive Mode where
  | between
  | bare (word : List Char)
  | text (codes : List Nat)
  | escape (codes : List Nat)
  | numbered (codes : List Nat) (left value : Nat)

def hexDigit? (c : Char) : Option Nat :=
  if c.isDigit then some (c.toNat - '0'.toNat)
  else if 'a' ≤ c ∧ c ≤ 'f' then some (c.toNat - 'a'.toNat + 10)
  else if 'A' ≤ c ∧ c ≤ 'F' then some (c.toNat - 'A'.toNat + 10)
  else none

def escapedCode? : Char → Option Nat
  | '"' => some 34
  | '\\' => some 92
  | '/' => some 47
  | 'b' => some 8
  | 'f' => some 12
  | 'n' => some 10
  | 'r' => some 13
  | 't' => some 9
  | _ => none

/-- Joins the two halves of a code point that was written as two numbered escapes. -/
def joinHalves : List Nat → List Nat
  | a :: b :: rest =>
    if 0xD800 ≤ a ∧ a < 0xDC00 ∧ 0xDC00 ≤ b ∧ b < 0xE000 then
      (0x10000 + (a - 0xD800) * 0x400 + (b - 0xDC00)) :: joinHalves rest
    else a :: joinHalves (b :: rest)
  | codes => codes

def digitsValue (ds : List Char) : Nat := ds.foldl (fun n c => 10 * n + (c.toNat - '0'.toNat)) 0

/-- An exponent: nothing, or a mark with an optional sign and digits. -/
def exponent? : List Char → Option (Option Int)
  | [] => some none
  | e :: rest =>
    if e = 'e' ∨ e = 'E' then
      let (negative, ds) := match rest with
        | '-' :: ds => (true, ds)
        | '+' :: ds => (false, ds)
        | ds => (false, ds)
      if ds.isEmpty ∨ !ds.all Char.isDigit then none
      else some (some (if negative then -(digitsValue ds : Int) else digitsValue ds))
    else none

/-- Whether characters begin with what makes a number a decimal: a point or an exponent, with a
digit. -/
def beginsDecimal : List Char → Bool
  | '.' :: c :: _ => c.isDigit
  | e :: '+' :: c :: _ | e :: '-' :: c :: _ | e :: c :: _ => (e == 'e' || e == 'E') && c.isDigit
  | _ => false

/-- A number without sign: digits without a leading zero, then places and an exponent. -/
def unsigned? (negative : Bool) (cs : List Char) : Option Token :=
  let whole := cs.takeWhile Char.isDigit
  let rest := cs.dropWhile Char.isDigit
  let number (ds : List Char) (places : Nat) (exponent : Int) : Token :=
    .scalar (.decimal (.ofScientific negative (digitsValue ds) (exponent - places)))
  if whole.isEmpty ∨ (whole.length > 1 ∧ whole.head? = some '0') then none
  else if whole.length > Text.digitLimit ∧ !beginsDecimal rest then some .overlong
  else
    match rest with
    | [] => some (.scalar (.int (Decimal.signed negative (digitsValue whole))))
    | '.' :: rest =>
      let places := rest.takeWhile Char.isDigit
      if places.isEmpty then none
      else (exponent? (rest.dropWhile Char.isDigit)).map fun e =>
        number (whole ++ places) places.length (e.getD 0)
    | rest => (exponent? rest).map fun e => number whole 0 (e.getD 0)

def bareToken (word : List Char) : Except Fault Token :=
  match String.ofList word with
  | "null" => .ok (.scalar .null)
  | "true" => .ok (.scalar (.bool true))
  | "false" => .ok (.scalar (.bool false))
  | "NaN" => .ok (.scalar (.decimal .undefined))
  | "Infinity" => .ok (.scalar (.decimal (.infinite false)))
  | "-Infinity" => .ok (.scalar (.decimal (.infinite true)))
  | _ =>
    let number := match word with
      | '-' :: ds => unsigned? true ds
      | ds => unsigned? false ds
    match number with
    | some t => .ok t
    | none => .error .badDocument

def isBare (c : Char) : Bool := c.isAlphanum || c == '-' || c == '+' || c == '.'

/-! ### Values -/

/-- An open list or record, with its last name if one waits for a value.  Collected items are in
reverse. -/
inductive Frame where
  | list (items : List Value)
  | record (fields : List (String × Value)) (name : Option String)

/-- What may come next. -/
inductive Expected where
  | value
  | valueOrClose
  | nameOrClose
  | name
  | colon
  | commaOrClose
  | nothing
  deriving DecidableEq

/-- The reader of tokens: open lists and records, what may come next, the value when it is complete.
-/
structure Reader where
  stack : List Frame := []
  expected : Expected := .value
  result : Option Value := none

/-- Fields with one more; a name that is there keeps its place. -/
def putField (fields : List (String × Value)) (name : String) (v : Value) : List (String × Value) :=
  if fields.any fun f => f.1 == name then fields.map fun f => if f.1 == name then (name, v) else f
  else fields ++ [(name, v)]

variable (r : Reader)

def Reader.accept (v : Value) : Except Fault Reader :=
  if r.expected = .value ∨ r.expected = .valueOrClose then
    match r.stack with
    | [] => .ok { r with expected := .nothing, result := some v }
    | .list items :: rest =>
      .ok { r with stack := .list (v :: items) :: rest, expected := .commaOrClose }
    | .record fields (some name) :: rest =>
      let stack := .record (putField fields name v) none :: rest
      .ok { r with stack, expected := .commaOrClose }
    | .record _ none :: _ => .error .badDocument
  else .error .badDocument

/-- How many lists and records can be open at a time. -/
def deepest : Nat := 9990

/-- Opens a list or record. -/
def Reader.enter (f : Frame) (next : Expected) : Except Fault Reader :=
  if r.expected = .value ∨ r.expected = .valueOrClose then
    if r.stack.length < deepest then .ok { r with stack := f :: r.stack, expected := next }
    else .error .tooDeep
  else .error .badDocument

def Reader.step : Token → Except Fault Reader
  | .scalar v => r.accept v
  | .overlong => do
    let _ ← r.accept .null
    .error .malformed
  | .text codes =>
    match r.expected, r.stack with
    | .name, .record fields none :: rest | .nameOrClose, .record fields none :: rest =>
      .ok { r with
            stack := .record fields (some (Text.ofCodes codes)) :: rest, expected := .colon }
    | _, _ => r.accept (.ofCodes codes)
  | .openList => r.enter (.list []) .valueOrClose
  | .openRecord => r.enter (.record [] none) .nameOrClose
  | .colon => if r.expected = .colon then .ok { r with expected := .value } else .error .badDocument
  | .comma =>
    match r.expected, r.stack with
    | .commaOrClose, .list _ :: _ => .ok { r with expected := .value }
    | .commaOrClose, .record _ _ :: _ => .ok { r with expected := .name }
    | _, _ => .error .badDocument
  | .closeList =>
    match r.stack with
    | .list items :: rest =>
      if r.expected = .commaOrClose ∨ r.expected = .valueOrClose then
        Reader.accept { r with stack := rest, expected := .value } (.list items.reverse)
      else .error .badDocument
    | _ => .error .badDocument
  | .closeRecord =>
    match r.stack with
    | .record fields none :: rest =>
      if r.expected = .commaOrClose ∨ r.expected = .nameOrClose then
        Reader.accept { r with stack := rest, expected := .value } (.record fields)
      else .error .badDocument
    | _ => .error .badDocument

/-! ### Characters -/

/-- Takes one character between tokens. -/
def begin (c : Char) : Except Fault (Mode × Reader) :=
  if c = ' ' ∨ c = '\t' ∨ c = '\n' ∨ c = '\r' then .ok (.between, r)
  else if isBare c then .ok (.bare [c], r)
  else
    match c with
    | '[' => take .openList
    | ']' => take .closeList
    | '\x7b' => take .openRecord
    | '\x7d' => take .closeRecord
    | ',' => take .comma
    | ':' => take .colon
    | '"' => .ok (.text [], r)
    | _ => .error .badDocument
where
  /-- Takes the token that the character is. -/
  take (t : Token) : Except Fault (Mode × Reader) := do return (.between, ← r.step t)

def step (mode : Mode) (r : Reader) (c : Char) : Except Fault (Mode × Reader) :=
  match mode with
  | .between => begin r c
  | .bare word =>
    if isBare c then .ok (.bare (c :: word), r)
    else do begin (← r.step (← bareToken word.reverse)) c
  | .text codes =>
    if c = '"' then do return (.between, ← r.step (.text (joinHalves codes.reverse)))
    else if c = '\\' then .ok (.escape codes, r)
    else if c.toNat < 32 then .error .badDocument
    else .ok (.text (c.toNat :: codes), r)
  | .escape codes =>
    if c = 'u' then .ok (.numbered codes 4 0, r)
    else
      match escapedCode? c with
      | some code => .ok (.text (code :: codes), r)
      | none => .error .badDocument
  | .numbered codes left value =>
    match hexDigit? c with
    | none => .error .badDocument
    | some d =>
      let value := 16 * value + d
      if left ≤ 1 then .ok (.text (value :: codes), r) else .ok
        (.numbered codes (left - 1) value, r)

def readFrom : Mode → Reader → List Char → Except Fault Reader
  | .between, r, [] => .ok r
  | .bare word, r, [] => do r.step (← bareToken word.reverse)
  | _, _, [] => .error .badDocument
  | mode, r, c :: cs => do
    let (mode, r) ← step mode r c
    readFrom mode r cs

def parse (s : String) : Except Fault Value := do
  let r ← readFrom .between {} s.toList
  match r.result with
  | some v => return v
  | none => .error .badDocument

/-! ### Printing -/

def numbered (code : Nat) : String := "\\u" ++ Supply.hex 4 code

def codeText (code : Nat) : String :=
  if code = 34 then "\\\""
  else if code = 92 then "\\\\"
  else if code = 10 then "\\n"
  else if code = 13 then "\\r"
  else if code = 9 then "\\t"
  else if code = 12 then "\\f"
  else if code = 8 then "\\b"
  else if 32 ≤ code ∧ code < 127 then String.singleton (Char.ofNat code)
  else if code < 0x10000 then numbered code
  else
    numbered (0xD800 + (code - 0x10000) / 0x400) ++ numbered (0xDC00 + (code - 0x10000) % 0x400)

def quoted (s : String) : String := "\"" ++ String.join ((Text.codes s).map codeText) ++ "\""

mutual

/-- Writes every decimal inside a value as a text with a fixed number of places. -/
def fixDecimals (width : Nat) : Value → Value
  | .decimal d => .text (d.fixedText width)
  | .list items => .list (fixItems width items)
  | .record fields => .record (fixFields width fields)
  | v => v

/-- The items of a list, each with its decimals fixed. -/
def fixItems (width : Nat) : List Value → List Value
  | [] => []
  | v :: vs => fixDecimals width v :: fixItems width vs

/-- The fields of a record, each with its decimals fixed. -/
def fixFields (width : Nat) : List (String × Value) → List (String × Value)
  | [] => []
  | (name, v) :: rest => (name, fixDecimals width v) :: fixFields width rest

end

mutual

def print : Value → String
  | .null => "null"
  | .bool b => if b then "true" else "false"
  | .int n => toString n
  | .decimal d => d.text
  | .text s => quoted s
  | .list items => "[" ++ ", ".intercalate (printItems items) ++ "]"
  | .record fields => "\x7b" ++ ", ".intercalate (printFields fields) ++ "\x7d"
  | .unavailable _ => "null"

def printItems : List Value → List String
  | [] => []
  | v :: vs => print v :: printItems vs

def printFields : List (String × Value) → List String
  | [] => []
  | (name, v) :: rest => (quoted name ++ ": " ++ print v) :: printFields rest

end

end ShellFlow.Document
