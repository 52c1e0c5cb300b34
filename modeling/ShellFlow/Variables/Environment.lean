import ShellFlow.Table
import ShellFlow.Variables.Array

/-!
# Environments

The variables of a shell, read from its declarations, and the special parameters that follow from
them.  The declarations are cut into tokens.  Blanks separate tokens; quotes and backslashes keep
them together and are dropped.

## Design Notes

Within double quotes a backslash is dropped only before a double quote or another backslash.  Within
single quotes it is an ordinary character.  A quotation or a backslash that the text leaves open is
refused.
-/

namespace ShellFlow

inductive TokenState where
  | between
  | word
  | quotation (mark : Char)
  /-- After a backslash, within a quotation if there is a mark. -/
  | backslash (mark : Option Char)
  deriving DecidableEq, Repr

def isTokenBlank (c : Char) : Bool := c = ' ' || c = '\t' || c = '\r' || c = '\n'

def isQuote (c : Char) : Bool := c = '\'' || c = '"'

/-- Tokens from the middle of one; `current` is what was read of it, in reverse. -/
def tokensFrom : TokenState → List Char → List Char → Except Fault (List (List Char))
  | .between, _, [] => .ok []
  | .word, current, [] => .ok [current.reverse]
  | .quotation _, _, [] => .error .malformed
  | .backslash _, _, [] => .error .malformed
  | .between, _, c :: cs =>
    if isTokenBlank c then tokensFrom .between [] cs
    else if c = '\\' then tokensFrom (.backslash none) [] cs
    else if isQuote c then tokensFrom (.quotation c) [] cs
    else tokensFrom .word [c] cs
  | .word, current, c :: cs =>
    if isTokenBlank c then do return current.reverse :: (← tokensFrom .between [] cs)
    else if c = '\\' then tokensFrom (.backslash none) current cs
    else if isQuote c then tokensFrom (.quotation c) current cs
    else tokensFrom .word (c :: current) cs
  | .quotation mark, current, c :: cs =>
    if c = mark then tokensFrom .word current cs
    else if c = '\\' ∧ mark = '"' then tokensFrom (.backslash (some mark)) current cs
    else tokensFrom (.quotation mark) (c :: current) cs
  | .backslash none, current, c :: cs => tokensFrom .word (c :: current) cs
  | .backslash (some mark), current, c :: cs =>
    if c = '\\' ∨ c = mark then tokensFrom (.quotation mark) (c :: current) cs
    else tokensFrom (.quotation mark) (c :: '\\' :: current) cs

def shellTokens (text : String) : Except Fault (List String) := do
  return (← tokensFrom .between [] text.toList).map String.ofList

/-! ### Variables -/

/-- A variable with its attributes and value, or a bare value. -/
inductive Entry where
  | declared (attributes value : Value)
  | bare (value : Value)
  deriving Inhabited

namespace Entry

def toValue : Entry → Value
  | declared attributes value => .list [attributes, value]
  | bare value => value

def ofValue : Value → Entry
  | .list [attributes, value] => .declared attributes value
  | v => .bare v

def parts : Entry → Except Fault (Value × Value)
  | declared attributes value => .ok (attributes, value)
  | bare (.text s) =>
    match Text.characters s with
    | [a, b] => .ok (.text a, .text b)
    | _ => .error .malformed
  | bare (.record [(a, _), (b, _)]) => .ok (.text a, .text b)
  | bare (.list _) | bare (.record _) => .error .malformed
  | bare _ => .error .wrongKind

end Entry

/-- Variables by name. -/
abbrev Environment := Table String Entry

/-- The text between two double quotes, if a text is that. -/
def stripQuotes (cs : List Char) : List Char :=
  match cs with
  | '"' :: rest => if rest.getLast? = some '"' then rest.dropLast else cs
  | _ => cs

/-- A declared variable that is no array. -/
structure ScalarDeclaration where
  name : String
  attributes : Option String
  value : String

namespace ScalarDeclaration

/-- The declaration of a text: attributes in front of a blank, if there is one before the equals
sign; a name; and a value.  Without an equals sign the value is empty. -/
def read (text : String) : ScalarDeclaration :=
  let cs := text.toList
  match cutAtEquals cs with
  | none =>
    match cs.span (· != ' ') with
    | (_, []) => { name := text, attributes := none, value := "" }
    | (attributes, _ :: name) =>
      { name := String.ofList name, attributes := some (String.ofList attributes), value := "" }
  | some (front, value) =>
    let value := String.ofList (stripQuotes value)
    match front.span (· != ' ') with
    | (_, []) => { name := String.ofList front, attributes := none, value }
    | (attributes, _ :: name) =>
      let attributes := String.ofList attributes
      { name := String.ofList name, attributes := if attributes =
        "--" then none else some attributes,
        value }

def entry (d : ScalarDeclaration) : Entry :=
    .declared (.ofOption .text d.attributes) (.text d.value)

end ScalarDeclaration

def declareKeyword : String := "declare"

/-- How many tokens a declaration takes that is no array: three after the keyword, else all up to
the next keyword. -/
def declarationLength : List String → Except Fault Nat
  | [] => .error .outOfRange
  | first :: rest =>
    if first = declareKeyword then .ok 3
    else .ok (1 + (rest.takeWhile (· != declareKeyword)).length)

/-- A sequence from a position on; positions below zero count from the end, and the sequence then
goes on from its start. -/
def fromPosition {α : Type} (xs : List α) (i : Int) : List α :=
  if 0 ≤ i then xs.drop i.toNat
  else if 0 ≤ xs.length + i then xs.drop (xs.length + i).toNat ++ xs
  else []

section

variable (host : Host)

def readDeclarations (env : Environment) : List String → Except Fault Environment
  | [] => .ok env
  | first :: rest =>
    let scalar (words : List String) : Environment :=
      let d := ScalarDeclaration.read (" ".intercalate words)
      env.insert d.name d.entry
    if first = declareKeyword then
      match rest with
      | [] => .error .outOfRange
      | attributes :: others =>
        if isArrayAttributes attributes then
          match ArrayDeclaration.read host (first :: attributes :: others) with
          | .error e => .error e
          | .ok d =>
            readDeclarations (env.insert d.name (.declared .null d.value))
              (others.drop (d.used - 2))
        else readDeclarations (scalar (attributes :: others.take 1)) (others.drop 1)
    else
      readDeclarations (scalar (rest.takeWhile (· != declareKeyword)))
        (rest.dropWhile (· != declareKeyword))
termination_by tokens => tokens.length
decreasing_by
  · simp; omega
  · simp; omega
  · have := (List.dropWhile_sublist (· != declareKeyword) (l := rest)).length_le
    simp; omega

end

/-- The attributes and the value of a variable, both nothing if there is none. -/
def Environment.parts (env : Environment) (name : String) : Except Fault (Value × Value) :=
  match env.get? name with
  | some e => e.parts
  | none => .ok (.null, .null)

/-- Bare entries for arguments, numbered from one. -/
def positionalEntries (first : Nat) : List Value → List (String × Entry)
  | [] => []
  | v :: vs => (toString first, .bare v) :: positionalEntries (first + 1) vs

def specialParameters (env : Environment) : Except Fault Environment := do
  let (argAttributes, arguments) ← env.parts "pash_input_args"
  let (statusAttributes, status) ← env.parts "pash_previous_exit_status"
  let (optionAttributes, options) ← env.parts "pash_previous_set_status"
  let (nameAttributes, name) ← env.parts "pash_shell_name"
  let items ← arguments.sequence
  let texts ← items.mapM Value.asText
  if let .record (_ :: _) := arguments then .error (.missing "0")
  let special : List (String × Entry) :=
    [("@", .declared argAttributes (.text (" ".intercalate texts))),
      ("?", .declared statusAttributes status), ("-", .declared optionAttributes options),
      ("0", .declared nameAttributes name),
      ("#", .declared argAttributes (.text (toString items.length)))]
  return env.merge (.ofList (special ++ positionalEntries 1 items))

namespace Environment

/-- The environment that a text declares. -/
def read (host : Host) (text : String) : Except Fault Environment := do
  specialParameters (← readDeclarations host .empty (← shellTokens (Text.unifyLines text)))

def listing (env : Environment) : List (String × Entry) :=
  env.entries.mergeSort fun a b => Text.inOrder a.1 b.1

def toValue (env : Environment) : Value :=
    .list (env.listing.map fun e => .list [.text e.1, e.2.toValue])

end Environment

end ShellFlow
