import ShellFlow.Shell.Document
import ShellFlow.Store

/-!
# Stored files as documents

What files hold, as values, and what is left of a text that goes through a file.
-/

namespace ShellFlow

/-- What a file holds.  A script is not shown. -/
def Content.toValue (outline : Outline → Value) : Content → Value
  | .text s => .text s
  | .script _ => .text Store.scriptSign
  | .region trees => .record [("asts", .list (trees.map (Tree.toValue outline)))]
  | .graph o declared =>
    .record [("graph", outline o), ("vars", .ofOption (fun (n : Nat) => .int n) declared)]

/-- The files below a directory with what they hold, in the order of their paths. -/
def Files.toValue (outline : Outline → Value) (directory : String) (fs : Files) : Value :=
  let below := fs.listing.filter (·.1.startsWith directory)
  .list (below.map fun f => .list [.text f.1, f.2.toValue outline])

/-- A text as it is read back after it was written. -/
def reread (s : String) : Except Fault String := do
  let _ ← Text.octets s
  return Text.unifyLines s

/-- How many characters a text has, and the text as it is read back after it was written. -/
def rereadText (v : Value) : Except Fault Value := do
  let s ← v.asText
  return .list [.int (Text.codes s).length, .text (← reread s)]

def Files.ofFields (directory : String) (read : Value → Except Fault Content) :
    Value → Except Fault (List (String × Content))
  | .record fields => fields.mapM fun f => do return (Path.normal (directory ++ f.1), ← read f.2)
  | _ => .ok []

/-- The files below a directory: those that hold text, and those that hold regions. -/
def Files.ofValue (directory : String) (texts regions : Value) : Except Fault Files := do
  let texts ← ofFields directory
    (fun v => do
      let text ← v.asText
      let _ ← Text.octets text
      return .text text) texts
  let regions ← ofFields directory (fun v => do return .region (← Tree.ofValues v.items)) regions
  return .ofList (texts ++ regions)

end ShellFlow
