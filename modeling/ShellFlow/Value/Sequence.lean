import ShellFlow.Text.Blank
import ShellFlow.Value

/-!
# Values as sequences

A list is a sequence of its items, a text of its characters, and a record of the names of its
fields.
-/

namespace ShellFlow.Value

def sequence : Value → Except Fault (List Value)
  | .list vs => .ok vs
  | .text s => .ok ((Text.characters s).map .text)
  | .record fs => .ok (fs.map fun f => .text f.1)
  | _ => .error .wrongKind

def size (v : Value) : Except Fault Nat := do return (← v.sequence).length

/-- The place of an item among so many; places below zero count from the end. -/
def position (size : Nat) (place : Int) : Except Fault Nat :=
  let place := if place < 0 then size + place else place
  if 0 ≤ place ∧ place < size then .ok place.toNat else .error .outOfRange

/-- The item at a place: a number in a list or a text, a name in a record. -/
def item (v place : Value) : Except Fault Value :=
  match v, place with
  | .record _, .list _ | .record _, .record _ => .error .wrongKind
  | .record fs, place =>
    match fs.find? fun f => place.same (.text f.1) with
    | some f => .ok f.2
    | none => .error (.missing place.display)
  | v, place => do
    let items ← v.sequence
    return (items[← position items.length (← place.asInt)]?).getD .null

/-- Whether something is among the items of a value; a text is in another if it is a part of it. -/
def contains (v sought : Value) : Except Fault Bool :=
  match v, sought with
  | .text s, .text t => .ok (Text.find? (Text.codes t) (Text.codes s)).isSome
  | .text _, _ | .record _, .list _ | .record _, .record _ => .error .wrongKind
  | v, sought => do return (← v.sequence).any sought.same

def character (v : Value) : Except Fault Nat :=
  match v with
  | .text s =>
    match Text.codes s with
    | [c] => .ok c
    | _ => .error .wrongKind
  | _ => .error .wrongKind

def spelling (v : Value) : Except Fault String := do
  return Text.ofCodes (← (← v.sequence).mapM character)

/-- The items of the items. -/
def flatten (v : Value) : Except Fault Value := do
  return .list (← (← v.sequence).mapM sequence).flatten

/-- The two items of a value that has no more. -/
def pair (v : Value) : Except Fault (Value × Value) := do
  match ← v.sequence with
  | [a, b] => return (a, b)
  | _ => .error .malformed

/-- The first and the second items of a sequence of pairs. -/
def unzip (v : Value) : Except Fault Value := do
  let pairs ← (← v.sequence).mapM pair
  return .list [.list (pairs.map (·.1)), .list (pairs.map (·.2))]

def firstTwo (v : Value) : Except Fault Value := do
  return .list [← v.item (.int 0), ← v.item (.int 1)]

/-- The longest list that can be asked for. -/
def longestList : Int := 9223372036854775807

/-- How many places to leave empty; none if the number is below zero.  There is memory for `room`
places. -/
def gapCount (room : Nat) (count : Int) : Except Fault Nat :=
  if longestList < count.natAbs then .error .tooLarge
  else if room < count then .error .noRoom
  else .ok count.toNat

/-- A sequence that is long enough to have an item at a place.  Only a list can be made longer. -/
def pad (room : Nat) (v place : Value) : Except Fault Value := do
  let size ← v.size
  if ← place.atLeast size then
    let count ← gapCount room ((← place.asInt) + 1 - size)
    return .list ((← v.asList) ++ List.replicate count .null)
  else return v

/-- Two lists or two texts, one after the other; the sum of two numbers. -/
def add : Value → Value → Except Fault Value
  | .list a, .list b => .ok (.list (a ++ b))
  | .text a, .text b => .ok (.text (a ++ b))
  | a, b =>
    match a.asInt, b.asInt with
    | .ok m, .ok n => .ok (.int (m + n))
    | _, _ => do return .decimal ((← a.asDecimal).add (← b.asDecimal))

/-- The items, with one value in place of another. -/
def replaceAll (v old new : Value) : Except Fault Value := do
  return .list ((← v.sequence).map fun x => if x.same old then new else x)

def withoutStart (v start : Value) : Except Fault Value := do
  let s ← v.ownText
  return .text (Text.without (← start.asText) s)

/-- Texts as the lines of one; nothing if one of them is missing. -/
def joinLines (v : Value) : Except Fault Value := do
  let items ← v.sequence
  if items.any (· == .null) then return .null
  else return .text ("\n".intercalate (← items.mapM asText))

/-- Texts with a blank between two; a single item is kept as it is. -/
def joinWords (v : Value) : Except Fault Value := do
  if (← v.size) = 1 then v.item (.int 0)
  else return .text (" ".intercalate (← (← v.sequence).mapM asText))

end ShellFlow.Value
