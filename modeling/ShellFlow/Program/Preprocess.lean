import ShellFlow.CommandLine.Options
import ShellFlow.Preprocess.Script

/-!
# The program that preprocesses a script

It takes options, a mode, and the arguments of that mode.  In the script every line that is not
blank is a command of plain words.
-/

namespace ShellFlow

/-- A command with its text, the number of its line, and the number of the next. -/
structure ScriptLine where
  tree : Tree
  text : String
  before : Nat
  after : Nat

/-- The command on a line, unless the line is blank. -/
def ScriptLine.ofLine? (number : Nat) (line : String) : Option ScriptLine :=
  match Text.words line with
  | [] => none
  | words =>
    some
      { tree := .command (.int number) [] (words.map Word.ofString) []
        text := line
        before := number
        after := number + 1 }

def parseLines (number : Nat) : List String → List ScriptLine
  | [] => []
  | line :: lines => (ScriptLine.ofLine? number line).toList ++ parseLines (number + 1) lines

def parseScript (text : String) : List ScriptLine := parseLines 1 (Text.lines text)

/-- Preprocesses a script and stores its regions.  For speculation the order of the regions goes to
a file, and the file is announced. -/
def preprocessStored (mode : Mode) (orderFile : String) (items : List ScriptItem) :
    Run (List Tree) := do
  let p ← Run.build (preprocessScript mode items)
  modify fun w => { w with store := w.store.addFiles p.files }
  match p.order with
  | some text =>
    modify fun w => { w with store := w.store.addDirectories Speculation.directories }
    Run.writeFile orderFile (.text text)
    modify fun w => { w with messages := w.messages ++ [Speculation.announcement orderFile] }
  | none => pure ()
  Run.addScript p.trees
  return p.trees

def preprocessFile (mode : Mode) (orderFile scriptFile : String) : Run (List Tree) := do
  let lines := parseScript (← Run.readText scriptFile)
  preprocessStored mode orderFile (lines.map fun l => { tree := l.tree, text := some l.text })

/-- A text among settings, which must have a value if it is there. -/
def settingText (t : Table String Value) (key : String) : Except Fault String :=
  match t.get? key with
  | some v => v.asText
  | none => .ok ""

/-- Makes the log file empty, if there is one. -/
def startLog (o : Options) : Run Unit := do
  Run.lift o.check
  match o.logFile with
  | some "" | none => return
  | some file => Run.writeFile file (.text "")

namespace Program

def preprocessGrammar : Grammar := { options := helpRule :: generalRules }

def modeGrammar : Mode → Grammar
  | .direct => { options := helpRule :: commonRules, positionals := [⟨"input", false⟩] }
  | .speculative =>
    { options := [helpRule], positionals := [⟨"input", false⟩, ⟨"partial_order_file", false⟩] }

/-- Reads the command line: options, a mode, and the arguments of that mode.  The settings of the
mode win.  There may be no mode. -/
def parsePreprocess (argv : List String) : Except Fault (Table String Value × Option Mode) := do
  let (settings, extras, rest) ← preprocessGrammar.parseFront argv
  match rest with
  | [] => if extras.isEmpty then return (settings, none) else .error badUsage
  | name :: arguments =>
    match Mode.ofName name with
    | .error _ => .error badUsage
    | .ok mode =>
      let inner ← (modeGrammar mode).parseAll arguments
      if extras.isEmpty then return (settings.merge inner, some mode) else .error badUsage

/-- Preprocesses a script as a command line says. -/
def preprocess (argv : List String) : Run Unit := do
  let (settings, mode) ← Run.lift (parsePreprocess argv)
  startLog (.ofSettings settings)
  match mode with
  | none => throw .lacking
  | some mode =>
    let script ← Run.lift (settingText settings "input")
    let orderFile ← Run.lift (settingText settings "partial_order_file")
    let _ ← preprocessFile mode orderFile script

end Program

end ShellFlow
