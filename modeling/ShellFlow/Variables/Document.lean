import ShellFlow.Variables.Environment

/-!
# Declarations in documents

Looking for declarations in a sequence of tokens that may hold other things than texts.
-/

namespace ShellFlow

def declarationEnd (tokens place : Value) : Except Fault Value := do
  let _ ← tokens.item place
  let i ← place.asInt
  let texts := (← tokens.sequence).map (·.textD "")
  return .int (i + (← declarationLength (fromPosition texts i)))

namespace ArrayDeclaration

/-- Reads an array from what follows its attributes.  A text is needed wherever one is looked into.
-/
def readRest (host : Host) (rest : List Value) : Except Fault ArrayDeclaration := do
  let texts := (rest.takeWhile fun v => v.asText.isOk).map (·.textD "")
  let front (more : List String) := declareKeyword :: "a" :: (texts ++ more)
  if texts.length = rest.length then read host (front [])
  else if texts.isEmpty then .error .lacking
  else
    match read host (front []) with
    | .error .outOfRange =>
      match read host (front [""]) with
      | .ok d => return d
      | .error _ => .error .lacking
    | r => r

/-- The array that is declared at a place: its name, its attributes, its value, and where it ends.
-/
def readAt (host : Host) (tokens place : Value) : Except Fault Value := do
  let _ ← tokens.item place
  let i ← place.asInt
  match fromPosition (← tokens.sequence) i with
  | _ :: attributes :: rest =>
    if ← attributes.contains (.text "a") then
      let d ← readRest host rest
      return .list [.text d.name, .null, d.value, .int (i + d.used)]
    else .error .broken
  | _ => .error .outOfRange

end ArrayDeclaration

end ShellFlow
