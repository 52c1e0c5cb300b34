import ShellFlow.Graph.Drawing
import ShellFlow.Program.Preprocess

/-!
# The program that runs a script

A script, or a command, is preprocessed, and a shell runs what comes out.
-/

namespace ShellFlow

/-- What a command line asks for. -/
structure Launch where
  settings : Table String Value
  options : Options
  /-- The name under which the script runs. -/
  shellName : String
  /-- The script and its arguments. -/
  inputs : List String

/-- A shell that is to be started: its words, the scratch directory, and the name of the script. -/
structure ShellStart where
  words : List String
  scratch : String
  shellName : String

def launchRules : List OptionRule :=
  [switch ["--preprocess_only"] "preprocess_only",
    switch ["--output_preprocessed"] "output_preprocessed",
    switch ["--interactive"] "interactive",
    textOption ["-c", "--command"] "command" .null,
    switch ["-a"] "a",
    ⟨["+a"], "a", .set false, .bool false⟩,
    switch ["-v"] "v",
    switch ["-x"] "x",
    switch ["--expand_using_bash_mirror"] "expand_using_bash_mirror"]

/-- The command line.  Options start with a dash or a plus. -/
def launchGrammar : Grammar where
  marks := ['-', '+']
  options := helpRule :: launchRules ++ commonRules
  positionals := [⟨"input", true⟩]

namespace Launch

variable (l : Launch)

def isOn (key : String) : Bool := ((l.settings.get? key).getD .null).truthy

/-- How the regions of the script are run. -/
def mode : Mode := if l.options.speculative then .speculative else .direct

/-- The settings of a command line, with those that follow from others. -/
def readSettings (argv : List String) : Except Fault (Table String Value) := do
  let t ← launchGrammar.parseAll argv
  if (Options.ofSettings t).speculative then
    return (t.insert "preprocess_mode" (.text Mode.speculative.name)).insert "partial_order_file"
      (.text Speculation.orderFile)
  else return t.insert "preprocess_mode" (.text Mode.direct.name)

def makeDrawingDirectory (o : Options) : Run Unit := do
  let w ← get
  let plan : DrawingPlan := { format := o.drawing, parent := o.drawingDir }
  set { w with store := ← Run.lift (plan.prepare w.store) }

/-- Reads a command line.  A command is stored as a script; the first word behind it is then the
name of the script. -/
def parse (argv : List String) : Run Launch := do
  let settings ← Run.lift (readSettings argv)
  let options := Options.ofSettings settings
  startLog options
  makeDrawingDirectory options
  let inputs ← Run.lift (((settings.get? "input").getD .null).asListOf Value.asText)
  match settings.get? "command" with
  | some (.text command) =>
    let file ← Run.build freshFile
    Run.writeFile file (.text command)
    let inputs' := file :: inputs.drop 1
    let settings := settings.insert "input" (.texts inputs')
    return { settings, options, inputs := inputs', shellName := inputs.headD "pash" }
  | none | some .null => return { settings, options, inputs, shellName := inputs.headD "pash" }
  | some _ => throw .wrongKind

def shellSwitches : List String :=
  Options.whenOn (l.isOn "v") "-v" ++ Options.whenOn (l.isOn "x") "-x"

def shellWords : List String :=
  ["/usr/bin/env", "bash", if l.isOn "a" then "-a" else "+a"] ++ l.shellSwitches

/-- The command that replaces a shell by one with the same switches. -/
def shellText : String :=
  let switches := Options.whenOn (l.isOn "a") "-a" ++ l.shellSwitches
  "exec -a" ++ l.shellName ++ " bash " ++ " ".intercalate switches ++ " -s $@\n"

/-- Preprocesses the script and stores the result.  Gives its trees and its file. -/
def prepare : Run (List Tree × String) := do
  match l.inputs with
  | [] => throw .outOfRange
  | script :: _ =>
    let trees ← preprocessFile l.mode Speculation.orderFile script
    let file ← Run.build freshFile
    Run.writeFile file (.script trees)
    return (trees, file)

/-- The shell that runs a stored script with the arguments of the command line. -/
def start (file : String) : ShellStart where
  words := l.shellWords ++ ["-c", "source " ++ file, l.shellName] ++ l.inputs.drop 1
  scratch := Settings.standard.scratch
  shellName := l.shellName

end Launch

namespace Program

/-- Prepares a script as a command line says, and gives the shell that is to be started, unless the
script is only to be preprocessed.  There must be a script, and it cannot be run interactively. -/
def launch (argv : List String) : Run (Option ShellStart) := do
  let l ← Launch.parse argv
  if l.inputs.isEmpty || l.isOn "interactive" then throw .broken
  let (_, file) ← l.prepare
  return if l.isOn "preprocess_only" then none else some (l.start file)

end Program

end ShellFlow
