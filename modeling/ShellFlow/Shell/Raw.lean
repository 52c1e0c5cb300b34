import ShellFlow.Shell.Tree
import ShellFlow.Value.Sequence

/-!
# Trees in document form

Building trees out of documents that pass through unchanged, whatever they hold.  A node is a tag
and what belongs to it.
-/

namespace ShellFlow.Raw

def node (tag : String) (v : Value) : Value := .list [.text tag, v]

/-- A text that is one character, as a part of a word. -/
def char (tag : String) (v : Value) :
    Except Fault Value := do return node tag (.int (← v.character))

def plain (s : String) : Value := .list ((Text.codes s).map fun (c : Nat) => node "C" (.int c))

def word (v : Value) : Except Fault Value := do return plain (← v.spelling)

/-- The words of a text, with one blank between two; two blanks have an empty word between them. -/
def words : Value → Except Fault Value
  | .text s => .ok (.list ((Text.splitAt ' ' s).map plain))
  | _ => .error .lacking

def reference (name : Value) : Value :=
    node "V" (.list [.text "Normal", .bool false, name, .list []])

def quoted (v : Value) : Value := node "Q" v

def redirection (mode : String) (fd : Int) (target : Value) : Value :=
  node "File" (.list [.text mode, .int fd, target])

def command (words redirections assignments : Value) : Value :=
  node "Command" (.list [.int 0, assignments, words, redirections])

def nop : Value := command (.list [plain ":"]) (.list []) (.list [])

/-- A tree in the background or in a shell of its own. -/
def scope (tag : String) (body redirections : Value) : Value :=
  node tag (.list [.int 0, body, redirections])

def assignment (name value : Value) : Value :=
  command (.list []) (.list []) (.list [.list [name, value]])

def function (name body : Value) : Value := node "Defun" (.list [.int 0, name, body])

/-- Trees one after the other, the last of them given. -/
def sequenceTo (last : Value) : List Value → Value
  | [] => last
  | t :: ts => node "Semi" (.list [t, sequenceTo last ts])

def sequence (v : Value) : Except Fault Value := do
  match ← v.size with
  | 0 => return nop
  | 1 => v.item (.int 0)
  | _ => return sequenceTo (← v.item (.int (-1))) (← v.sequence).dropLast

def exportWord (name value : Value) : Except Fault Value := do
  let second ← Value.add (plain (name.display ++ "=")) value
  return command (.list [plain "export", second]) (.list []) (.list [])

/-- References to the counters of some loops, with a dash between two. -/
def loopReferences (loops : List Value) : List Value :=
  List.intersperse (node "C" (.int 45))
    (loops.map fun l => reference (.text (Tree.loopVariable l.display)))

def exportLoops (loops : Value) : Except Fault Value := do
  let loops ← loops.sequence
  exportWord (.text Tree.loopsVariable)
    (.list (if loops.isEmpty then [] else [quoted (.list (loopReferences loops))]))

def unset (name : Value) : Except Fault Value := do
  return command (.list [plain "unset", ← word name]) (.list []) (.list [])

def increment (name : Value) : Value :=
  assignment name (.list [node "A" (plain (name.display ++ "+1"))])

/-- A reference whose flag is written as a word. -/
def looseReference (name : String) : Value :=
  node "V" (.list [.text "Normal", .text "false", .text name, .list []])

/-- The commands that print a word in the state of the script: its variables, exit status and
arguments are restored first. -/
def echo (argument declarations : Value) : Except Fault Value := do
  let simple (ws : List Value) : Value := command (.list ws) (.list []) (.list [])
  let load ← match declarations with
    | .null => pure []
    | path => do pure [simple [plain "source", ← word path]]
  return .list (load ++
    [scope "Subshell" (simple [plain "exit", .list [looseReference "pash_previous_exit_status"]])
      (.list []),
      simple [plain "set", plain "--", .list [looseReference "pash_input_args"]],
      simple [plain "echo", plain "-n", argument]])

end ShellFlow.Raw
