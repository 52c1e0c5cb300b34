import ShellFlow.Graph.Node

/-!
# Dataflow graphs

Nodes joined by edges.  An edge has a channel and two ends; an end that is open belongs to the world
outside the graph.

## Design Notes

Nodes and edges are tables in insertion order, because everything that lists a graph lists it in
that order.  An edge is filed under a number that is usually the identifier of its channel; after
emission the standard input edge carries a channel with an identifier of its own.
-/

namespace ShellFlow

/-- An edge: its channel, the node that writes it, the node that reads it. -/
structure Edge where
  channel : Channel Int
  source : Option Int := none
  target : Option Int := none

/-- A dataflow graph. -/
structure Graph where
  nodes : Table Int Node := .empty
  edges : Table Int Edge := .empty
  background : Bool := false

namespace Graph

instance : Inhabited Graph := ⟨{}⟩

def idText : Option Int → String
  | none => "None"
  | some n => toString n

variable (g : Graph)

/-- The edge filed under a number. -/
def edge? (id : Int) : Option Edge := g.edges.get? id

/-- The node filed under a number. -/
def node? (id : Int) : Option Node := g.nodes.get? id

/-- The edge filed under a number, which must exist. -/
def edge (g : Graph) (id : Int) : Except Fault Edge :=
  match g.edge? id with
  | some e => .ok e
  | none => .error (.missing (toString id))

/-- The node filed under a number, which must exist. -/
def node (g : Graph) (id : Int) : Except Fault Node :=
  match g.node? id with
  | some n => .ok n
  | none => .error (.missing (toString id))

/-- The node at an end of an edge, which must exist. -/
def nodeAt (id : Option Int) : Except Fault Node :=
  match id with
  | some n => g.node n
  | none => .error (.missing "None")

def channel (g : Graph) : ChannelLookup := fun id => do return (← g.edge id).channel

def channels : List (Channel Int) := g.edges.values.map (·.channel)

def isEmpty (g : Graph) : Bool := g.nodes.entries.isEmpty

/-- Channels that no node writes. -/
def inputChannels : List (Channel Int) :=
  (g.edges.values.filter (·.source.isNone)).map (·.channel)

/-- Channels that no node reads. -/
def outputChannels : List (Channel Int) :=
  (g.edges.values.filter (·.target.isNone)).map (·.channel)

/-- Files an edge under its number. -/
def putEdge (id : Int) (e : Edge) : Graph := { g with edges := g.edges.insert id e }

/-- Files a node under its number. -/
def putNode (id : Int) (n : Node) : Graph := { g with nodes := g.nodes.insert id n }

/-- Sets the reading end of an edge. -/
def setTarget (id : Int) (n : Option Int) : Except Fault Graph := do
  let e ← g.edge id
  return g.putEdge id { e with target := n }

/-- Sets the writing end of an edge. -/
def setSource (id : Int) (n : Option Int) : Except Fault Graph := do
  let e ← g.edge id
  return g.putEdge id { e with source := n }

/-- Sets the reading end of several edges. -/
def setTargets (ids : List Int) (n : Option Int) : Except Fault Graph :=
  ids.foldlM (fun g id => g.setTarget id n) g

/-- Sets the writing end of several edges. -/
def setSources (ids : List Int) (n : Option Int) : Except Fault Graph :=
  ids.foldlM (fun g id => g.setSource id n) g

/-- Adds an edge under the identifier of its channel, which must be free. -/
def insertEdge (e : Edge) : Except Fault Graph :=
  if g.edges.contains e.channel.ident then .error .broken
  else .ok (g.putEdge e.channel.ident e)

/-- Adds a channel as an edge with two open ends. -/
def addEdge (c : Channel Int) : Except Fault Graph := g.insertEdge { channel := c }

def addEdges (cs : List (Channel Int)) : Except Fault Graph :=
  cs.foldlM addEdge g

/-- Adds a node and connects its edges to it. -/
def addNode (n : Node) : Except Fault Graph := do
  let g := g.putNode n.id n
  let g ← g.setTargets n.inputs (some n.id)
  g.setSources n.outputs (some n.id)

def addNodes (ns : List Node) : Except Fault Graph := ns.foldlM addNode g

/-- Removes a node and opens the ends of its edges. -/
def removeNode (id : Int) : Except Fault Graph := do
  let n ← g.node id
  let g := { g with nodes := g.nodes.erase id }
  let g ← g.setTargets n.inputs none
  g.setSources n.outputs none

/-- Renames an edge inside one node. -/
def replaceInNode (id old new : Int) : Except Fault Graph := do
  let n ← g.node id
  return g.putNode id (n.replaceEdge old new)

/-- Renames an edge inside the node at one of its ends.  The node with number 0 is left as it is. -/
def replaceAtEnd (stop : Option Int) (old new : Int) : Except Fault Graph :=
  match stop with
  | none => .ok g
  | some id => if id = 0 then .ok g else g.replaceInNode id old new

/-- Puts a new channel in the place of an edge. -/
def replaceEdge (old : Int) (c : Channel Int) : Except Fault Graph := do
  let e ← g.edge old
  let g := g.putEdge c.ident { e with channel := c }
  let g ← g.replaceAtEnd e.source old c.ident
  let g ← g.replaceAtEnd e.target old c.ident
  return { g with edges := g.edges.erase old }

def nodeInputs (id : Int) : Except Fault (List Int) := do return (← g.node id).inputs

def nodeOutputs (id : Int) : Except Fault (List Int) := do return (← g.node id).outputs

/-- The edges of some numbers, each with its number. -/
def edgesOf (ids : List Int) : Except Fault (List (Int × Edge)) :=
  ids.mapM fun id => do return (id, ← g.edge id)

def inputEdges (id : Int) : Except Fault (List (Int × Edge)) := do
  g.edgesOf (← g.nodeInputs id)

def outputEdges (id : Int) : Except Fault (List (Int × Edge)) := do
  g.edgesOf (← g.nodeOutputs id)

/-- The nodes that read the outputs of a node.  Each output must name the node as its writer. -/
def nextNodes (id : Int) : Except Fault (List Int) := do
  let outs ← (← g.nodeOutputs id).mapM fun e => do
    let edge ← g.edge e
    require (edge.source == some id)
    return edge.target
  return outs.filterMap fun t => t

/-- The nodes that write the inputs of a node.  Each input must name the node as its reader. -/
def previousNodes (id : Int) : Except Fault (List Int) := do
  let ins ← (← g.nodeInputs id).mapM fun e => do
    let edge ← g.edge e
    require (edge.target == some id)
    return edge.source
  return ins.filterMap fun s => s

/-- Nodes that read from outside, or read nothing. -/
def sourceNodes : List Int :=
  (g.edges.values.filterMap (fun e => if e.source.isNone then e.target else none) ++
    (g.nodes.entries.filter fun n => n.2.inputs.isEmpty).map (·.1)).eraseDups

/-- Nodes that write to outside. -/
def sinkNodes : List Int :=
  List.eraseDups (g.edges.values.filterMap fun e => if e.target.isNone then e.source else none)

def resourceOf (e : Edge) : Except Fault Resource :=
  match e.channel.resource with
  | some r => .ok r
  | none => .error .lacking

/-- The edge that is standard input; there can be only one. -/
def stdinEdge : Except Fault (Option Int) :=
  g.edges.entries.foldlM (fun found (id, e) => do
    if (← resourceOf e).isStdin then
      require found.isNone
      return some id
    else return found) none

/-- The last edge that is standard output. -/
def stdoutEdge : Except Fault (Option Int) :=
  g.edges.entries.foldlM (fun found (id, e) => do
    if (← resourceOf e).isStdout then return some id else return found) none

/-- The channel of an edge that may be absent. -/
def channel? (id : Option Int) : Option (Channel Int) :=
  id.bind fun id => (g.edge? id).map (·.channel)

/-- The greatest edge number; a graph without edges has none. -/
def lastEdge : Except Fault Int :=
  match g.edges.keys with
  | [] => .error .malformed
  | k :: ks => .ok (ks.foldl max k)

/-- Fresh channels that clash with no edge of the graph. -/
def channelSource : Build ChannelSource := do
  let last ← Build.lift g.lastEdge
  ChannelSource.make last ""

/-- Adds `k` pipes, and yields their numbers. -/
def addPipes (s : ChannelSource) (k : Nat) :
    Except Fault (Graph × List Int × ChannelSource) := do
  let (cs, s) := s.freshPipes k
  let g ← g.addEdges cs
  return (g, cs.map (·.ident), s)

def channelText : Option (Channel Int) → Except Fault String
  | none => .ok "None"
  | some c => c.display

/-- The text of a graph: its standard streams around its commands. -/
def display : Except Fault String := do
  let stdin := g.channel? (← g.stdinEdge)
  let commands := g.nodes.values.map (·.invocation.command)
  let stdout := g.channel? (← g.stdoutEdge)
  return "(|-" ++ (← channelText stdin) ++ " IR: [" ++ ", ".intercalate commands ++ "] " ++
    (← channelText stdout) ++ "-|)"

/-- The listing of a graph by channels and nodes.  Nodes are listed by number only, and a number has
no channels to list, so only the graph without nodes has a listing. -/
def serialize : Except Fault String :=
  if g.isEmpty then .ok "File ids:\n\nNodes:\n" else .error .lacking

/-- Adds an edge that is standard output. -/
def addStdout (s : ChannelSource) :
    Except Fault (Graph × Channel Int × ChannelSource) := do
  let (c, s) := s.freshFor (.descriptor (.int 1))
  return (← g.addEdge c, c, s)

/-- Copies what flows through an edge that nobody reads; the node for it is not provided. -/
def copyEdge (id : Int) : Except Fault Graph := do
  let e ← g.edge id
  require e.target.isNone
  .error .lacking

def outline (g : Graph) : Outline where
  nodes := g.nodes.values.map Node.outline
  edges := g.edges.entries.map fun (id, e) =>
    { id, channel := e.channel.display, source := e.source, target := e.target }
  background := g.background

end Graph

end ShellFlow
