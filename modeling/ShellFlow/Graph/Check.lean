import ShellFlow.Graph.Basic

/-!
# Consistency of graphs

Edges and nodes tell of each other: an end of an edge names a node that lists the edge, and a node
lists edges whose ends name it.
-/

namespace ShellFlow.Graph

variable (g : Graph)

def endListed (stop : Option Int) (listed : Node → List Int) (id : Int) : Except Fault Bool :=
  match stop with
  | none => .ok true
  | some n => do return (listed (← g.node n)).contains id

/-- Whether all of a list passes a test, looking no further than the first that does not. -/
def allM {α : Type} (p : α → Except Fault Bool) : List α → Except Fault Bool
  | [] => .ok true
  | a :: as => do if ← p a then allM p as else return false

/-- Whether both ends of an edge agree with the nodes that they name. -/
def edgeAgrees (entry : Int × Edge) : Except Fault Bool := do
  if ← g.endListed entry.2.source Node.outputs entry.1 then
    g.endListed entry.2.target Node.inputs entry.1
  else return false

def nodeAgrees (entry : Int × Node) : Except Fault Bool := do
  if ← allM (fun e => do return (← g.edge e).target == some entry.1) entry.2.inputs then
    allM (fun e => do return (← g.edge e).source == some entry.1) entry.2.outputs
  else return false

/-- Whether edges and nodes agree. -/
def consistent? : Except Fault Bool := do
  if ← allM g.edgeAgrees g.edges.entries then allM g.nodeAgrees g.nodes.entries
  else return false

/-- Whether the graph can be run. -/
def valid? : Except Fault Bool := do
  if g.isEmpty then return false
  if ← g.consistent? then
    if g.background then return (g.channel? (← g.stdinEdge)).isNone
    else return true
  else return false

end ShellFlow.Graph
