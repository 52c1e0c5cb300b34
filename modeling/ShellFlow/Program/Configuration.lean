import ShellFlow.Document

/-!
# Configuration files

A configuration has sections, and each has a name.
-/

namespace ShellFlow.Configuration

/-- The section that a configuration must have. -/
def required : String := "distr_planner"

/-- The sections of the configuration that is used if there is no other. -/
def standardSections : List String := ["distr_planner", "runtime"]

/-- The names in a document: the fields of a record, the items of a list, or the characters of a
text. -/
def names : Value → Except Fault (List String)
  | .record fs => .ok (fs.map (·.1))
  | .list items => items.mapM Value.asText
  | .text s => .ok (s.toList.map (String.ofList [·]))
  | _ => .error .wrongKind

def hasRequired : Value → Except Fault Bool
  | .record fs => .ok (fs.any (·.1 == required))
  | .list items => .ok (items.contains (.text required))
  | .text s => .ok ((s.splitOn required).length > 1)
  | _ => .error .wrongKind

/-- The sorted names of the sections of the configuration in a file. -/
def sections (file text : String) : Except Fault (List String) := do
  let v ← Document.parse text
  if !v.truthy then .error (.refused ("No valid configuration could be loaded from " ++ file))
  else if ← hasRequired v then return (← names v).mergeSort Text.inOrder
  else .error (.refused ("Missing \x60" ++ required ++ "\x60 config in " ++ file))

end ShellFlow.Configuration
