import ShellFlow.Graph.Check
import ShellFlow.Graph.Files

/-!
# Joining graphs

Graphs are piped one into the other, or put beside each other in the background.
-/

namespace ShellFlow.Graph

/-- All nodes and edges of two graphs. -/
def union (g h : Graph) : Except Fault Graph :=
  combineCommonFiles { g with nodes := g.nodes.merge h.nodes, edges := g.edges.merge h.edges }

/-- Both graphs must be fit to run. -/
def requireValid (g : Graph) : Except Fault Unit := do require (← g.valid?)

/-- The number of an edge that must be there. -/
def present (id : Option Int) : Except Fault Int :=
  match id with
  | some id => .ok id
  | none => .error .broken

/-- Pipes the first graph into the second. -/
def pipeAppend (g h : Graph) : Except Fault Graph := do
  g.requireValid
  h.requireValid
  let out := (← g.stdoutEdge)
  let into := (← h.stdinEdge)
  let out ← present out
  let into ← present into
  let e ← h.edge into
  require e.source.isNone
  let reader ← h.nodeAt e.target
  let h := h.putNode reader.id (reader.replaceEdge into out)
  let h := { h with edges := h.edges.erase into }
  let o ← g.edge out
  require o.target.isNone
  let g := g.putEdge out { o with channel := o.channel.makeEphemeral, target := e.target }
  g.union h

/-- Puts a graph that is in the background beside another; the union is in the background only if
both are. -/
def backgroundUnion (g h : Graph) : Except Fault Graph := do
  g.requireValid
  h.requireValid
  require g.background
  union { g with background := h.background } h

/-- A part of a pipeline, which must be a graph. -/
def pure? (g : Option Graph) : Except Fault Graph :=
  match g with
  | some g => .ok g
  | none => .error (.refused "Not pure node in pipe")

/-- Pipes the parts of a pipeline from left to right; each must be a graph. -/
def pipeline : List (Option Graph) → Except Fault Graph
  | [] => .error .outOfRange
  | g :: gs => do gs.foldlM (fun acc h => do acc.pipeAppend (← pure? h)) (← pure? g)

end ShellFlow.Graph
