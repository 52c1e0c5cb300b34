import ShellFlow.CommandLine.Options
import ShellFlow.Compile.Tree
import ShellFlow.Graph.Buffer
import ShellFlow.Graph.Emit
import ShellFlow.Preprocess.Region
import ShellFlow.Variables.Environment

/-!
# Compiling a stored region

A region is read from a file and compiled, its graphs are optimized, and what comes out must be one
thing.  Its script is written to another file.  For distributed execution the graph itself is
stored, with a script that has it run elsewhere.
-/

namespace ShellFlow

def Graph.optimizeFor (g : Graph) (o : Options) (width : Option Int) : Build Graph :=
  g.optimize (width.getD 0).toNat o.batchSize (!o.noBuffers && !o.distributed)

variable (o : Options)

/-- Optimizes a graph, and leaves a tree alone. -/
def optimizeCompiled (width : Option Int) : Compiled → Build Compiled
  | .graph g => do return .graph (← g.optimizeFor o width)
  | .tree t => return .tree t

/-- Compiles and optimizes a region, which must come out as one thing. -/
def optimizeRegion (width : Option Int) (trees : List Tree) : Build Compiled := do
  let cs ← compileRegion trees
  let cs ← if o.noOptimize then pure cs else cs.mapM (optimizeCompiled o width)
  match cs with
  | [c] => return c
  | _ => throw .broken

def emitRegion (g : Graph) : Build (List Tree) := do
  let (_, trees) ← g.emit (Termination.ofName (o.termination.getD "")) o.logFile
  return trees

def readVariables (file : String) : Run Environment := do
  let text ← Run.readText file
  Run.lift (Environment.read (← get).host text)

def remoteScript (graphFile : String) : String :=
  "$PASH_TOP/compiler/dspash/remote_exec_graph.sh " ++ graphFile ++ "\n"

/-- Stores a graph for distributed execution, and gives the script that has it run. -/
def storeRemote (g : Graph) (declared : Option Nat) : Run String := do
  let file ← Run.build freshFile
  let script := remoteScript file
  if o.outputOptimized then Run.writeFile Settings.standard.optimizedScript (.text script)
  Run.writeFile file (.graph g.outline declared)
  return script

/-- Compiles a stored region for a width and writes its script.  Gives the graph that the script
runs. -/
def compileStored (width : Option Int) (regionFile scriptFile : String)
    (declared : Option Nat) : Run Graph := do
  match ← Run.lift ((← get).store.read regionFile) with
  | .region trees =>
    match ← Run.build (optimizeRegion o width trees) with
    | .tree _ => throw (.refused "Script failed to compile!")
    | .graph g =>
      if o.distributed then
        Run.writeFile scriptFile (.text (← storeRemote o g declared))
        return g
      else
        let (g, trees) ← Run.build (g.emit (Termination.ofName (o.termination.getD "")) o.logFile)
        Run.addScript trees
        Run.writeFile scriptFile (.script trees)
        return g
  | _ => throw .malformed

end ShellFlow
