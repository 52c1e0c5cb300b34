import ShellFlow.Compile.Command
import ShellFlow.Graph.Join
import ShellFlow.Shell.Document

/-!
# Trees as graphs

A tree becomes a graph if it is a command, or a pipeline or scope around such trees.  A command with
a word that has no text, and other constructs, keep their form, with graphs in the places of their
parts.

## Design Notes

A graph in the background is held back and united with the graphs that follow, up to and including
the first that is not in the background.  A tree that is no graph does not end this: the held graph
is listed in front of the tree, goes on gathering, and is listed again when it is complete.  Every
listing shows the graph as it is in the end.
-/

namespace ShellFlow

/-- The outcome of compiling a tree. -/
inductive Compiled where
  | graph (g : Graph)
  | tree (t : Tree)

instance : Inhabited Compiled := ⟨.tree default⟩

namespace Compiled

def toTree : Compiled → Tree
  | graph g => .graph g.outline
  | tree t => t

def graph? : Compiled → Option Graph
  | graph g => some g
  | tree _ => none

end Compiled

/-- Computations that number channels and nodes and may fail. -/
abbrev Compile := StateT ChannelSource Build

namespace Compile

/-- A computation that numbers nothing. -/
def lift {α : Type} (x : Except Fault α) : Compile α := fun s => do return (← Build.lift x, s)

end Compile

def Tree.kindName : Tree → String
  | .command _ _ _ _ => "Command"
  | .pipe _ _ => "Pipe"
  | .join op _ _ => op.tag
  | .negate _ => "Not"
  | .scope kind _ _ _ => kind.tag
  | .define _ _ _ => "Defun"
  | .forEach _ _ _ _ => "For"
  | .whileDo _ _ => "While"
  | .branch _ _ _ => "If"
  | .select _ => "Case"
  | .generic _ _ | .verbatim _ | .graph _ => "AstNode"

/-- The graph of a command, or what is done with a command that has a word without a text. -/
def compileForm (form : Except Fault CommandForm) (redirections : List Redirection)
    (otherwise : Compile Compiled) : Compile Compiled := fun s => do
  match form with
  | .error .malformed => otherwise s
  | .error e => throw e
  | .ok form =>
    match ← commandGraph form redirections s with
    | (.ok g, s) => return (.graph g, s)
    | (.error .malformed, s) => otherwise s
    | (.error e, _) => throw e

mutual

def Part.hasSubstitution : Part → Bool
  | .quoted w => Word.hasSubstitution w
  | .substitution _ => true
  | _ => false

def Word.hasSubstitution : List Part → Bool
  | [] => false
  | p :: ps => Part.hasSubstitution p || Word.hasSubstitution ps

end

/-- A command whose words have no text stays a tree.  Its arguments have been compiled before, and
what has become a graph cannot be compiled again. -/
def keepCommand (line : Value) (assignments : List Assignment) (name : Word) (arguments : List Word)
    (redirections : List Redirection) : Except Fault Compiled :=
  if arguments.any Word.hasSubstitution then .error .lacking
  else .ok (.tree (.command line assignments (name :: arguments) redirections))

mutual

def compilePart : Part → Compile Part
  | .quoted w => do return .quoted (← compileParts w)
  | .substitution t => do return .substitution (← compileTree t).toTree
  | p => return p

def compileParts : List Part → Compile (List Part)
  | [] => return []
  | p :: ps => do
    let p ← compilePart p
    let ps ← compileParts ps
    return p :: ps

def compileWords : List (List Part) → Compile (List (List Part))
  | [] => return []
  | w :: ws => do
    let w ← compileParts w
    let ws ← compileWords ws
    return w :: ws

def compileAssignments : List Assignment → Compile (List Assignment)
  | [] => return []
  | .mk name w :: rest => do
    let w ← compileParts w
    let rest ← compileAssignments rest
    return .mk name w :: rest

def compileRedirections : List Redirection → Compile (List Redirection)
  | [] => return []
  | .mk kind mode fd w :: rest => do
    let w ← compileParts w
    let rest ← compileRedirections rest
    return .mk kind mode fd w :: rest
  | .other v :: rest => do return .other v :: (← compileRedirections rest)

def compileTree : Tree → Compile Compiled
  | .command line assignments words redirections => do
    let assignments ← compileAssignments assignments
    let redirections ← compileRedirections redirections
    match words with
    | [] => Compile.lift (.error .broken)
    | name :: arguments =>
      let arguments ← compileWords arguments
      compileForm (CommandForm.read name arguments) redirections do
        let name ← compileParts name
        Compile.lift (keepCommand line assignments name arguments redirections)
  | .pipe background items => do
    let parts ← compileTrees items
    let g ← Compile.lift (Graph.pipeline (parts.map Compiled.graph?))
    return .graph { g with background := background.truthy }
  | .join op l r => do
    let l ← compileTree l
    let r ← compileTree r
    return .tree (.join op l.toTree r.toTree)
  | .scope kind line t redirections => do
    match ← compileTree t with
    | .graph g => return .graph (if kind = .background then { g with background := true } else g)
    | .tree t => return .tree (.scope kind line t redirections)
  | .forEach line w t name => do
    let w ← compileParts w
    let t ← compileTree t
    return .tree (.forEach line w t.toTree name)
  | .negate t => Compile.lift (.error (.missing (Tree.negate t).kindName))
  | .define l n t => Compile.lift (.error (.missing (Tree.define l n t).kindName))
  | .whileDo t b => Compile.lift (.error (.missing (Tree.whileDo t b).kindName))
  | .branch t y n => Compile.lift (.error (.missing (Tree.branch t y n).kindName))
  | .select arms => Compile.lift (.error (.missing (Tree.select arms).kindName))
  | .generic tag v => Compile.lift (.error (.missing (Tree.generic tag v).kindName))
  | .verbatim s => Compile.lift (.error (.missing (Tree.verbatim s).kindName))
  | .graph o => Compile.lift (.error (.missing (Tree.graph o).kindName))

def compileTrees : List Tree → Compile (List Compiled)
  | [] => return []
  | t :: ts => do
    let t ← compileTree t
    let ts ← compileTrees ts
    return t :: ts

end

/-- A graph in the background that is gathering, and what was listed since it began; nothing stands
for the graph itself. -/
structure Gathering where
  graph : Graph
  listed : List (Option Compiled) := []

namespace Gathering

def complete (a : Gathering) : List Compiled := a.listed.map fun c => c.getD (.graph a.graph)

end Gathering

/-- Lists one more outcome. -/
def gather (held : Option Gathering) (c : Compiled) :
    Except Fault (List Compiled × Option Gathering) :=
  match held, c with
  | some a, .graph g => do
    let u ← a.graph.backgroundUnion g
    if u.background then return ([], some { a with graph := u })
    else return (({ graph := u, listed := a.listed ++ [none] } : Gathering).complete, none)
  | some a, .tree t => .ok ([], some { a with listed := a.listed ++ [none, some (.tree t)] })
  | none, .graph g => .ok (if g.background then ([], some { graph := g }) else ([.graph g], none))
  | none, .tree t => .ok ([.tree t], none)

/-- Compiles trees one after the other, gathering graphs in the background. -/
def compileAll (held : Option Gathering) : List Tree → Compile (List Compiled)
  | [] =>
    match held with
    | none => return []
    | some a => return ({ a with listed := a.listed ++ [none] } : Gathering).complete
  | t :: ts => do
    let c ← compileTree t
    let (listed, held) ← Compile.lift (gather held c)
    let rest ← compileAll held ts
    return listed ++ rest

/-- Compiles the trees of a region, with channels in a directory of their own. -/
def compileRegion (trees : List Tree) : Build (List Compiled) := do
  let s ← ChannelSource.make 0 ""
  let (cs, _) ← (compileAll none trees).run s
  return cs

end ShellFlow
