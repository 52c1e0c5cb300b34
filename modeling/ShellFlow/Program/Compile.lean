import ShellFlow.Compile.Stored
import ShellFlow.Graph.Drawing

/-!
# The program that compiles a region

Whatever fails ends the program with the status one.
-/

namespace ShellFlow.Program

/-- The command line: where the script goes and where the region is. -/
def compileGrammar : Grammar where
  options := helpRule :: textOption ["--var_file"] "var_file" .null :: commonRules
  positionals := [⟨"compiled_script_file", false⟩, ⟨"input_ir", false⟩]

def compileWith (settings : Table String Value) : Run Unit := do
  let o := Options.ofSettings settings
  Run.lift o.check
  let text (key : String) : String := ((settings.get? key).getD .null).textD ""
  let declared ← match settings.get? "var_file" with
    | some (.text file) => do pure (some (← readVariables file).size)
    | none | some .null => pure none
    | some _ => throw .wrongKind
  let g ← compileStored o o.width (text "input_ir") (text "compiled_script_file") declared
  let _ ← Run.lift (DrawingPlan.render { format := o.drawing, parent := o.drawingDir } g)

/-- Compiles a region as a command line says. -/
def compile (argv : List String) : Run Unit := do
  let (settings, _) ← Run.lift (compileGrammar.parse argv)
  match ← Run.attempt (compileWith settings) with
  | some () => return ()
  | none => throw (.exit "1")

end ShellFlow.Program
