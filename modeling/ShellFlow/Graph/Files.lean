import ShellFlow.Graph.Basic

/-!
# Files of a graph

Redirections of commands become files of their edges, and an edge that reads a file which another
node writes becomes the edge that the other node writes to.
-/

namespace ShellFlow.Graph

variable (g : Graph)

/-- Makes those of some edges that pass a test stand for a file; yields how many there were. -/
def redirectEdges (standard : Channel Int → Bool) (target : Word) (ids : List Int) :
    Except Fault (Graph × Nat) :=
  ids.foldlM (fun (g, k) id => do
    let e ← g.edge id
    if standard e.channel then
      return (g.putEdge id { e with channel := { e.channel with resource := some (.file target) } },
        k + 1)
    else return (g, k)) (g, 0)

/-- Applies one redirection of a node: a file that is written must be for standard output, one that
is read for standard input, and the node must have such an edge. -/
def redirect (n : Node) (r : FileRedirection) : Except Fault Graph :=
  if r.write && r.fd.sameInt 1 then do
    let (g, k) ← g.redirectEdges Channel.isStdout r.target n.outputs
    require (k != 0)
    return g
  else if !r.write && r.fd.sameInt 0 then do
    let (g, k) ← g.redirectEdges Channel.isStdin r.target n.inputs
    require (k != 0)
    return g
  else do
    let _ ← r.display
    .error .unsupported

/-- Applies the redirections of a node from left to right. -/
def redirectNode (n : Node) : Except Fault Graph :=
  n.redirections.foldlM (fun g r => g.redirect n r) g

/-- Those of some edges that stand for files, with the files. -/
def fileEdges (es : List (Int × Edge)) : List (Int × Resource) :=
  es.filterMap fun (id, e) =>
    match e.channel.resource with
    | some r => if r.isFile then some (id, r) else none
    | none => none

/-- Joins one written edge of node `n` to a read edge of the same file; counts the joins. -/
def joinWriter (input : Int × Resource) (n : Int) (acc : Graph × Nat) (output : Int × Resource) :
    Except Fault (Graph × Nat) := do
  if input.1 ≠ output.1 ∧ Resource.sameFile input.2 output.2 then
    let g ← acc.1.replaceInNode n output.1 input.1
    let g ← g.setSource input.1 (some n)
    let g ← g.setSource output.1 none
    return (g, acc.2 + 1)
  else return acc

/-- Joins every writer of the file of one read edge to it; there may be one. -/
def joinWriters (input : Int × Resource) : Except Fault Graph := do
  let (g, k) ← g.nodes.keys.foldlM (fun acc n => do
    let outs ← acc.1.outputEdges n
    (fileEdges outs).foldlM (joinWriter input n) acc) (g, 0)
  require (decide (k ≤ 1))
  return g

/-- Joins the writers of the files that one node reads. -/
def joinInputs (n : Int) : Except Fault Graph := do
  let ins ← g.inputEdges n
  (fileEdges ins).foldlM joinWriters g

/-- Joins writers and readers of the same file. -/
def combineCommonFiles : Except Fault Graph := g.nodes.keys.foldlM joinInputs g

/-- Applies the redirections of all nodes, then joins writers and readers. -/
def applyRedirections : Except Fault Graph := do
  let g ← g.nodes.values.foldlM redirectNode g
  g.combineCommonFiles

def make (nodes : Table Int Node) (edges : Table Int Edge) (background : Bool) :
    Except Fault Graph :=
  applyRedirections { nodes, edges, background }

end ShellFlow.Graph
