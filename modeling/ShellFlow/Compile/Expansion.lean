import ShellFlow.Shell.Tree

/-!
# Expansion

Which words would have to be expanded before they can be compiled.  Only words without references
can be taken as they are; a substitution cannot be expanded at all.
-/

namespace ShellFlow

mutual

def Part.needsExpansion : Part → Except Fault Bool
  | .reference _ => .ok true
  | .quoted w => Word.needsExpansion w
  | .substitution _ => .error .unsupported
  | _ => .ok false

/-- Whether a word has to be expanded; all its parts are looked at. -/
def Word.needsExpansion : List Part → Except Fault Bool
  | [] => .ok false
  | p :: ps => do
    let a ← Part.needsExpansion p
    let b ← Word.needsExpansion ps
    return a || b

end

mutual

/-- Whether a word given as data has to be expanded: each part is a pair of a tag and its content.
-/
def needsExpansionData : Value → Except Fault Bool
  | .list vs => needsExpansionItems vs
  | .text s => if s = "" then .ok false else .error .outOfRange
  | .record [] => .ok false
  | .record (_ :: _) => .error .outOfRange
  | _ => .error .wrongKind

/-- Whether one of some parts has to be expanded; all are looked at.  A text of at least two
characters is taken as a pair of them. -/
def needsExpansionItems : List Value → Except Fault Bool
  | [] => .ok false
  | .list (.text "V" :: _ :: _) :: rest => do
    let _ ← needsExpansionItems rest
    return true
  | .list (.text "Q" :: w :: _) :: rest => do
    let a ← needsExpansionData w
    let b ← needsExpansionItems rest
    return a || b
  | .list (.text "B" :: _ :: _) :: _ => .error .unsupported
  | .list (_ :: _ :: _) :: rest => needsExpansionItems rest
  | .list _ :: _ => .error .outOfRange
  | .text s :: rest =>
    match Text.characters s with
    | "V" :: _ :: _ => do
      let _ ← needsExpansionItems rest
      return true
    | "Q" :: _ :: _ => .error .outOfRange
    | "B" :: _ :: _ => .error .unsupported
    | _ :: _ :: _ => needsExpansionItems rest
    | _ => .error .outOfRange
  | .record _ :: _ => .error (.missing "0")
  | _ :: _ => .error .wrongKind

end

/-- The words that a word expands to.  Words with references cannot be expanded here. -/
def expandWord (w : Word) : Except Fault (List Word) := do
  if ← Word.needsExpansion w then .error .lacking else return [w]

end ShellFlow
