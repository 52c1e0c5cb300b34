import ShellFlow.Text.Escape
import ShellFlow.Text.Number
import ShellFlow.Value.Sequence

/-!
# Declared arrays

An array is declared by a keyword, attributes with the letter `a`, and a name with the items of the
array behind it, each under its index.  Indices that no item has are gaps.

## Design Notes

A value that starts with a dollar sign is a quotation with backslash escapes.  An array has to be
followed by another token, except an array without items.
-/

namespace ShellFlow

def cutAtEquals (cs : List Char) : Option (List Char × List Char) :=
  match cs.span (· != '=') with
  | (_, []) => none
  | (before, _ :: after) => some (before, after)

def isArrayAttributes (token : String) : Bool := token.toList.contains 'a'

/-- The code points of a quotation with backslash escapes. -/
def expandEscapes (codeNamed? : List Char → Option Nat) (s : String) : Except Fault Value := do
  return .ofCodes (← Text.unescape codeNamed? ((← Text.octets s).map UInt8.toNat))

/-- What reading declarations takes from where it runs.  By default no character is known by a name,
and there is memory for every list. -/
structure Host where
  /-- The code of the character with a name. -/
  codeNamed? : List Char → Option Nat := fun _ => none
  /-- The widest gap that there is memory for. -/
  room : Nat := Value.longestList.toNat

variable (host : Host)

structure ArrayItem where
  index : Int
  value : Value

namespace ArrayItem

def readValue : List Char → Except Fault Value
  | '$' :: cs => expandEscapes host.codeNamed? (String.ofList cs)
  | cs => .ok (.text (String.ofList cs))

/-- The index of an item as it is written, in brackets. -/
def readIndex (cs : List Char) : Except Fault Int :=
  match Text.readInt (String.ofList (cs.drop 1).dropLast) with
  | some n => .ok n
  | none => .error .malformed

/-- Reads an item: an index in brackets, an equals sign, and a value. -/
def read (cs : List Char) : Except Fault ArrayItem := do
  let (index, value) := (cutAtEquals cs).getD (cs.dropLast, cs)
  let value ← readValue host value
  return { index := ← readIndex index, value }

end ArrayItem

/-- A list with an item at its index, after gaps if the list is shorter.  An item whose index is
already behind the end goes to the end. -/
def placeItem (values : List (Option Value)) (item : ArrayItem) :
    Except Fault (List (Option Value)) := do
  let count ← Value.gapCount host.room (item.index - values.length)
  return values ++ List.replicate count none ++ [some item.value]

def isClosing (item : List Char) : Bool := item.getLast? == some ')'

/-- Reads an item, with or without the closing parenthesis, and places it. -/
def addItem (values : List (Option Value)) (item : List Char) :
    Except Fault (List (Option Value)) := do
  placeItem host values (← ArrayItem.read host (if isClosing item then item.dropLast else item))

/-- Reads the item that is open and those that follow, up to the one with the closing parenthesis.
Gives the items, and how many of the following tokens were items. -/
def readItems (values : List (Option Value)) (item : List Char) :
    List String → Except Fault (List (Option Value) × Nat)
  | [] => do
    let _ ← addItem host values item
    .error .outOfRange
  | next :: rest => do
    let values ← addItem host values item
    if isClosing item then return (values, 0)
    else
      let (values, used) ← readItems values next.toList rest
      return (values, used + 1)

/-- A declared array: its name, its value, and how many tokens it took. -/
structure ArrayDeclaration where
  name : String
  value : Value
  used : Nat

namespace ArrayDeclaration

def read (tokens : List String) : Except Fault ArrayDeclaration := do
  match tokens with
  | _ :: attributes :: rest =>
    if !isArrayAttributes attributes then .error .broken
    match rest with
    | [] => .error .outOfRange
    | start :: following =>
      match cutAtEquals start.toList with
      | none => return { name := start, value := .text "", used := 3 }
      | some (name, items) =>
        let name := String.ofList name
        if items = ['(', ')'] then return { name, value := .list [], used := 3 }
        else
          let (values, used) ← readItems host [] (items.drop 1) following
          return { name, value := .list (values.map (·.getD .null)), used := used + 3 }
  | _ => .error .outOfRange

end ArrayDeclaration

end ShellFlow
