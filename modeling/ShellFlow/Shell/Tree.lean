import ShellFlow.Value

/-!
# Words and trees of the shell

The abstract form of a script: a word is a list of parts, a tree is a command or a construct over
commands.  A tree that has a compiled graph in the place of a subtree keeps the outline of that
graph, so that trees need to know nothing about graphs.

## Design Notes

A command substitution is never statically the same as another: what it yields is known only when it
runs, and two runs may differ.  Thus `Word.same` is no equality on words that hold one.

Line numbers, names, descriptors and modes are carried through unchanged.  They are usually numbers
and texts, but nothing depends on that.
-/

namespace ShellFlow

/-- How an operand is shown. -/
inductive Mark where
  | edge (id : Int)
  /-- A literal argument, formatted. -/
  | literal (text : Except Fault String)
  /-- A word that stands for itself, formatted. -/
  | word (text : Except Fault String)
  | operand (inner : Mark)
  /-- A named file with its access mode. -/
  | file
  /-- A standard descriptor with its access mode. -/
  | descriptor
  | data (v : Value)
  deriving Inhabited

inductive FlagMark where
  | flag (name : String)
  | option (name : String) (argument : Mark)
  deriving Inhabited

/-- What a node does, as far as its printed name goes. -/
inductive NodeClass where
  | plain
  | roundSplit
  | merge
  | unwrap
  | wrap
  | split
  | eager
  | tee
  deriving DecidableEq, Inhabited, Repr

structure NodeOutline where
  id : Int
  kind : NodeClass
  command : String
  flags : List FlagMark
  operands : List Mark
  implicitInput : Option Int
  implicitOutput : Option Int
  inputs : List Int
  outputs : List Int
  deriving Inhabited

/-- The view of an edge: its number, its channel as text, the nodes at its two ends. -/
structure EdgeOutline where
  id : Int
  channel : Except Fault String
  source : Option Int
  target : Option Int
  deriving Inhabited

/-- The view of a graph. -/
structure Outline where
  nodes : List NodeOutline
  edges : List EdgeOutline
  background : Bool
  deriving Inhabited

/-! ### Words and trees -/

/-- How two trees are joined in sequence. -/
inductive Connective where
  | semi
  | and
  | or
  deriving DecidableEq, Inhabited, Repr

/-- A tree with redirections around it: bare, in a shell of its own, or in the background. -/
inductive Scope where
  | redirected
  | subshell
  | background
  deriving DecidableEq, Inhabited, Repr

inductive RedirectionKind where
  | file
  | duplicate
  | document
  deriving DecidableEq, Inhabited, Repr

mutual

inductive Part where
  | char (code : Int)
  | escaped (code : Int)
  | quoted (inner : List Part)
  | reference (content : List Value)
  | tilde (user : Value)
  | arith (inner : List Part)
  | substitution (body : Tree)
  | other (data : Value)

/-- `name=value` in front of a command. -/
inductive Assignment where
  | mk (name : String) (value : List Part)

/-- A redirection of descriptor `fd`, such as `To`, `From` or `Append` of a file. -/
inductive Redirection where
  | mk (kind : RedirectionKind) (mode fd : Value) (target : List Part)
  | other (data : Value)

/-- One arm of a selection: its body and its other fields. -/
inductive Arm where
  | mk (fields : List (String × Value)) (body : Tree)

/-- A command or a construct over commands. -/
inductive Tree where
  | command (line : Value) (assignments : List Assignment) (words : List (List Part))
      (redirections : List Redirection)
  | pipe (background : Value) (items : List Tree)
  | join (op : Connective) (left right : Tree)
  | negate (body : Tree)
  | scope (kind : Scope) (line : Value) (body : Tree) (redirections : List Redirection)
  | define (line name : Value) (body : Tree)
  | forEach (line : Value) (range : List Part) (body : Tree) (name : Value)
  | whileDo (test body : Tree)
  | branch (test yes no : Tree)
  | select (arms : List Arm)
  | generic (tag : String) (payload : Value)
  /-- Text of the script that is kept as it was. -/
  | verbatim (text : String)
  /-- A subtree that has become a dataflow graph. -/
  | graph (outline : Outline)

end

instance : Inhabited Part := ⟨.char 0⟩

instance : Inhabited Tree := ⟨.verbatim ""⟩

abbrev Word := List Part

mutual

def Part.same : Part → Part → Bool
  | .char a, .char b => a == b
  | .escaped a, .escaped b => a == b
  | .quoted a, .quoted b => Word.same a b
  | .reference a, .reference b => Value.sameItems a b
  | .tilde a, .tilde b => a.same b
  | .arith a, .arith b => Word.same a b
  | .other a, .other b => a.same b
  | _, _ => false

def Word.same : List Part → List Part → Bool
  | [], [] => true
  | a :: as, b :: bs => Part.same a b && Word.same as bs
  | _, _ => false

end

namespace Word

def ofString (s : String) : Word := (Text.codes s).map fun (c : Nat) => .char c

end Word

/-!
### The text of words and trees

Two renderings.  `Word.format` is the text by which a word is known inside the library: command
names, operands and file names are compared and listed by it.  `Tree.pretty` is the script text of a
tree, used where a region of a script is written back to a file.
-/

/-- The text of a number that should be a code point. -/
def codeText (code : Int) : Except Fault String := Text.ofNumbers [code]

/-- The name in the content of a reference; `VAR` if there is none. -/
def referenceName : List Value → String
  | _ :: _ :: name :: _ => name.display
  | _ => "VAR"

mutual

def Part.format : Part → Except Fault String
  | .char c => codeText c
  | .escaped c => do return "\\" ++ (← codeText c)
  | .quoted inner => do return "\"" ++ (← Word.format inner) ++ "\""
  | .reference content => .ok ("$" ++ referenceName content)
  | .tilde _ => .ok "~"
  | .arith _ => .ok "$((...))"
  | .substitution _ => .ok "$(...)"
  | .other (.list [.text "C", code]) => do codeText (← code.asInt)
  | .other (.list [.text "E", code]) => do return "\\" ++ (← codeText (← code.asInt))
  | .other _ => .ok ""

def Word.format : List Part → Except Fault String
  | [] => .ok ""
  | p :: ps => do
    let first ← Part.format p
    let rest ← Word.format ps
    return first ++ rest

end

/-- The text of a list of words, with a blank between two; a lone colon if that is empty. -/
def commandText (ws : List Word) : Except Fault String := do
  let text := " ".intercalate (← ws.mapM Word.format)
  return if text = "" then ":" else text

mutual

def Tree.pretty : Tree → Except Fault String
  | .command _ _ words _ => commandText words
  | .pipe _ items => do return " | ".intercalate (← Tree.prettyAll items)
  | .join _ l r => do
    let l ← Tree.pretty l
    let r ← Tree.pretty r
    return l ++ " ; " ++ r
  | .negate body => do return "! " ++ (← Tree.pretty body)
  | .scope .redirected _ body _ => Tree.pretty body
  | .scope .subshell _ body _ => do return "( " ++ (← Tree.pretty body) ++ " )"
  | .scope .background _ body _ => do return (← Tree.pretty body) ++ " &"
  | .define _ name _ => .ok (name.display ++ "() \x7b ... \x7d")
  | .forEach _ _ _ name => .ok ("for " ++ name.display ++ " ; do ... ; done")
  | .whileDo _ _ => .ok "while ... ; do ... ; done"
  | .branch _ _ _ => .ok "if ... ; then ... ; fi"
  | .select _ => .ok "case ... esac"
  | .generic tag _ => .ok tag
  | .verbatim text => .ok text
  | .graph _ => .ok ""

/-- The script texts of several trees. -/
def Tree.prettyAll : List Tree → Except Fault (List String)
  | [] => .ok []
  | t :: ts => do
    let t ← Tree.pretty t
    let ts ← Tree.prettyAll ts
    return t :: ts

end

/-- The script text of a list of trees, one per line, with a final line end. -/
def scriptText (trees : List Tree) : Except Fault String := do
  return "\n".intercalate (← Tree.prettyAll trees) ++ "\n"

/-! ### The commands and constructs that the library itself writes into scripts -/

namespace Part

def ofName (name : String) : Part := .reference [.text "Normal", .bool false, .text name, .list []]

end Part

namespace Redirection

def appendErrors (path : String) : Redirection := .mk .file (.text "Append") 2 (Word.ofString path)

def outputTo (w : Word) : Redirection := .mk .file (.text "To") 1 w

def inputFrom (w : Word) : Redirection := .mk .file (.text "From") 0 w

end Redirection

namespace Tree

def simple (words : List Word) : Tree := .command 0 [] words []

def texts (words : List String) : Tree := simple (words.map Word.ofString)

/-- The command that does nothing. -/
def nop : Tree := texts [":"]

def assign (name : String) (value : Word) : Tree := .command 0 [.mk name value] [] []

def inBackground (body : Tree) : Tree := .scope .background 0 body []

def inSubshell (body : Tree) : Tree := .scope .subshell 0 body []

/-- Trees one after the other. -/
def sequence : List Tree → Tree
  | [] => nop
  | [t] => t
  | t :: ts => .join .semi t (sequence ts)

def exportWord (name : String) (value : Word) : Tree :=
  simple [Word.ofString "export", Word.ofString (name ++ "=") ++ value]

/-- The variable that counts the rounds of a loop, which is given by the text of its number. -/
def loopVariable (loop : String) : String := "pash_loop_" ++ loop ++ "_iter"

/-- The variable that holds the rounds of all loops around a command. -/
def loopsVariable : String := "pash_loop_iters"

/-- References to the counters of some loops, with a dash between two. -/
def loopReferences : List Int → Word
  | [] => []
  | [l] => [Part.ofName (loopVariable (toString l))]
  | l :: ls => Part.ofName (loopVariable (toString l)) :: .char 45 :: loopReferences ls

/-- Exports the rounds of the loops around a command, innermost first. -/
def exportLoops (loops : List Int) : Tree :=
  exportWord loopsVariable (if loops.isEmpty then [] else [.quoted (loopReferences loops)])

def increment (name : String) : Tree := assign name [.arith (Word.ofString (name ++ "+1"))]

end Tree

end ShellFlow
