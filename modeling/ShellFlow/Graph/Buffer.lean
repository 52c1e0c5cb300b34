import ShellFlow.Graph.Check
import ShellFlow.Graph.Parallel

/-!
# Buffers

A node that reads several streams may leave one of them full while it waits for another.  A buffer
on each of them keeps the writers going.  Buffers are also put behind the outputs of splitters.
-/

namespace ShellFlow.Graph

variable (g : Graph) (s : ChannelSource)

/-- Makes the reader of an edge, if there is one, read another edge. -/
def handOver (reader : Option Int) (old new : Int) : Except Fault Graph :=
  match reader with
  | none => .ok g
  | some k => do
    let g ← g.replaceInNode k old new
    g.setTarget new (some k)

def addBuffer (id : Int) : Build (Graph × ChannelSource) := do
  let (c, s) := s.freshEphemeral
  let n ← Node.tee id c.ident
  let g ← Build.lift (g.addEdge c)
  let e ← Build.lift (g.edge id)
  let g ← Build.lift (g.handOver e.target id c.ident)
  let g ← Build.lift (g.addNode n)
  return (g, s)

/-- Puts a buffer on each of some edges. -/
def addBufferList : Graph → ChannelSource → List Int → Build (Graph × ChannelSource)
  | g, s, [] => return (g, s)
  | g, s, id :: ids => do
    let (g, s) ← g.addBuffer s id
    addBufferList g s ids

/-- Puts a buffer on each of some inputs of a node, those from outside the graph apart. -/
def addInputBuffers (reader : Int) : Graph → ChannelSource → List Int →
    Build (Graph × ChannelSource)
  | g, s, [] => return (g, s)
  | g, s, id :: ids => do
    let e ← Build.lift (g.edge id)
    Build.require (e.target == some reader)
    match e.source with
    | none => addInputBuffers reader g s ids
    | some _ =>
      let (g, s) ← g.addBuffer s id
      addInputBuffers reader g s ids

/-- The outputs of a node that need a buffer by what the node is: of consecutive pieces all but the
last, of batches all. -/
def bufferedOutputs (n : Node) : Except Fault (List Int) :=
  match n.kind with
  | .split => .ok n.outputs.dropLast
  | .roundSplit => .ok n.outputs
  | .unwrap =>
    match n.outputs with
    | [] => .error .outOfRange
    | id :: _ => .ok [id]
  | _ => .ok []

def bufferInputs (id : Int) : Build (Graph × ChannelSource) := do
  let ins ← Build.lift (g.inputEdges id)
  if ins.length > 1 then addInputBuffers id g s (ins.map (·.1)) else return (g, s)

def bufferNode (id : Int) : Build (Graph × ChannelSource) := do
  let (g, s) ← g.bufferInputs s id
  let n ← Build.lift (g.node id)
  let outs ← Build.lift (bufferedOutputs n)
  addBufferList g s outs

/-- The visit from the sources: nodes that wait, nodes that were visited.  It is stuck if nodes wait
when the steps are used up. -/
def bufferVisit : Nat → Graph → ChannelSource → List Int → List Int → Build Graph
  | _, g, _, [], _ => return g
  | 0, _, _, _ :: _, _ => throw .stuck
  | steps + 1, g, s, n :: rest, visited => do
    let _ ← Build.lift (g.node n)
    if visited.contains n then bufferVisit steps g s rest visited
    else
      let after ← Build.lift (g.nextNodes n)
      let (g, s) ← g.bufferNode s n
      bufferVisit steps g s (rest ++ after) (n :: visited)

/-- More steps than the visit can take: a node is listed once for each edge that it reads, and each
input or output of a node brings at most one buffer, with one edge of its own. -/
def visitBound : Nat :=
  g.nodes.values.foldl (fun steps n => steps + n.inputs.length + 3 * n.outputs.length) 1

/-- Puts buffers where streams meet and where they part, behind the sources of the graph. -/
def addBuffers : Build Graph := do
  let sources := (← get).order.list g.sourceNodes
  let s ← g.channelSource
  let first ← Build.lift (sources.mapM g.nextNodes)
  bufferVisit g.visitBound g s first.flatten []

/-- Divides nodes and puts buffers, checking the graph before and after. -/
def optimize (fanOut : Nat) (batch : Option Int) (buffers : Bool) : Build Graph := do
  Build.require (← Build.lift g.valid?)
  let g ← g.divideAll fanOut batch
  let g ← if buffers then g.addBuffers else pure g
  Build.require (← Build.lift g.valid?)
  return g

end ShellFlow.Graph
