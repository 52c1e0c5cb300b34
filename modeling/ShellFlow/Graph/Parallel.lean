import ShellFlow.Graph.Reduce

/-!
# Running nodes in parallel

A node with one input stream and one output stream is replaced by copies of itself: a splitter in
front, an aggregator behind.  If the node in front is already the aggregator of the same kind of
division, both disappear and the copies are chained one to one.
-/

namespace ShellFlow.Graph

/-- Several groups of pipes, `size` in each. -/
def addPipeGroups (g : Graph) (s : ChannelSource) (size : Nat) :
    Nat → Except Fault (Graph × List (List Int) × ChannelSource)
  | 0 => .ok (g, [], s)
  | k + 1 => do
    let (g, ids, s) ← g.addPipes s size
    let (g, groups, s) ← addPipeGroups g s size k
    return (g, ids :: groups, s)

variable (g : Graph) (p : Parallelizer) (whole : Invocation)

/-- Puts a splitter behind an edge; yields the pieces. -/
def introduceSplitter (splitter : Int → List Int → Build Node) (fanOut : Nat)
    (s : ChannelSource) (input : Int) : Build (Graph × List Int × ChannelSource) := do
  let (g, ids, s) ← Build.lift (g.addPipes s fanOut)
  let n ← splitter input ids
  let g ← Build.lift (g.setTarget input (some n.id))
  let g ← Build.lift (g.setSources ids (some n.id))
  let g ← Build.lift (g.addNode n)
  return (g, ids, s)

def operandEdge (o : Operand) : Except Fault Int :=
  match o.edge? with
  | some id => .ok id
  | none => do throw (.missing (← o.keyText))

/-- One copy of a command between an edge and a group of edges; wrapped, if batches are tagged. -/
def introduceMapper (g : Graph) (input : Operand)
    (outs : List Int) : Build (Graph × Node) := do
  match outs with
  | [] => throw .outOfRange
  | out :: extra =>
    let input ← Build.lift (operandEdge input)
    let n ← Node.plain (Parallelizer.mapper whole input out extra)
    let g ← Build.lift (g.setTarget input (some n.id))
    let g ← Build.lift (g.setSources (out :: extra) (some n.id))
    if p.splitter = .roundRobin then
      let (_, w) ← n.wrap g.channel
      let g ← Build.lift (g.setTarget input (some w.id))
      let g ← Build.lift (g.setSource out (some w.id))
      return (g, w)
    else return (g, n)

/-- One copy of a command for each input that has a group of outputs; the copies join the graph
after all are made. -/
def introduceMapperList (p : Parallelizer) (whole : Invocation) :
    Graph → List (Operand × List Int) → Build (Graph × List Node)
  | g, [] => return (g, [])
  | g, (input, outs) :: rest => do
    let (g, n) ← introduceMapper p whole g input outs
    let (g, ns) ← introduceMapperList p whole g rest
    return (g, n :: ns)

/-- Copies of a command over some edges; yields the groups of their outputs.  There are always
`fanOut` groups, whether or not there are that many inputs. -/
def introduceMappers (fanOut : Nat) (s : ChannelSource) (inputs : List Operand) :
    Build (Graph × List (List Int) × ChannelSource) := do
  let (g, groups, s) ← Build.lift (g.addPipeGroups s (p.extra + 1).toNat fanOut)
  let (g, ns) ← introduceMapperList p whole g (inputs.zip groups)
  let g ← Build.lift (g.addNodes ns)
  return (g, groups, s)

/-- Puts a node that drops tags behind each of some edges. -/
def introduceUnwrapList : Graph → List (Operand × Int) → Build Graph
  | g, [] => return g
  | g, (input, out) :: rest => do
    let input ← Build.lift (operandEdge input)
    let n ← Node.unwrap [input] out
    let g ← Build.lift (g.addNode n)
    let g ← Build.lift (g.setTarget input (some n.id))
    let g ← Build.lift (g.setSource out (some n.id))
    introduceUnwrapList g rest

/-- Drops the tags behind some edges; yields the edges without tags. -/
def introduceUnwraps (s : ChannelSource) (inputs : List Operand) :
    Build (Graph × List Int × ChannelSource) := do
  let (g, ids, s) ← Build.lift (g.addPipes s inputs.length)
  let g ← introduceUnwrapList g (inputs.zip ids)
  return (g, ids, s)

/-- Adds a node that puts some edges together into one. -/
def introduceAggregator (n : Node) (inputs : List Int) (output : Int) :
    Except Fault Graph := do
  let g ← g.setTargets inputs (some n.id)
  let g ← g.setSource output (some n.id)
  g.addNode n

def binaryAggregator (ins outs : List Int) : Build Node := do
  if outs.length = 1 then
    Node.plain (Parallelizer.gather whole ins (outs.headD 0))
  else
    Build.require (ins.length % 2 == 0)
    if ins.isEmpty ∨ outs.isEmpty then throw .outOfRange
    Node.plain (Parallelizer.gatherPair ins outs)

/-- Adds a tree of binary aggregators over groups of edges, ending in `output`. -/
def introduceTree (groups : List (List Int)) (output : Int)
    (s : ChannelSource) : Build (Graph × ChannelSource) := do
  let tree ← reduceTree (binaryAggregator whole) groups s
  let g ← Build.lift (g.addEdges tree.pipes)
  let g ← Build.lift (g.addNodes tree.nodes)
  let e ← Build.lift (g.edge tree.final)
  let n ← Build.lift (g.nodeAt e.source)
  let g := g.putNode n.id (n.replaceEdge tree.final output)
  let g ← Build.lift (g.setSource output (some n.id))
  let g ← Build.lift (g.setSource tree.final none)
  return (g, tree.source)

def firsts (groups : List (List Int)) : Except Fault (List Int) :=
  groups.mapM fun ids =>
    match ids with
    | [] => .error .outOfRange
    | id :: _ => .ok id

/-- Puts the outputs of copies together where the pieces were consecutive, or were not tagged. -/
def introduceGathering (groups : List (List Int)) (output : Int) (s : ChannelSource) :
    Build (Graph × ChannelSource) := do
  if p.extra = 0 then
    let ids ← Build.lift (firsts groups)
    match p.aggregator with
    | .concatenate | .nary =>
      let n ← Node.plain (Parallelizer.gather whole ids output)
      let g ← Build.lift (g.introduceAggregator n ids output)
      return (g, s)
    | .binary => g.introduceTree whole (ids.map ([·])) output s
    | _ => throw (.refused "aggregator kind not yet implemented")
  else
    Build.require (p.aggregator == .binary)
    g.introduceTree whole groups output s

/-- The node in front of a node, if there is exactly one. -/
def onlyPrevious (id : Int) : Except Fault (Option Node) := do
  match ← g.previousNodes id with
  | [prev] => return some (← g.node prev)
  | _ => return none

/-- Whether a node ends a division with tags. -/
def isMerge (n : Node) : Bool := n.kind == .merge

/-- Whether a node ends a division into consecutive pieces. -/
def isConcatenation (n : Node) : Bool := n.invocation.isConcatenation

/-- Removes a node, and the node in front of it if that ends a division of the right kind; yields
the inputs of the latter. -/
def removeFused (id : Int) (fusible : Node → Bool) :
    Except Fault (Graph × Option (List Operand)) := do
  let prev ← g.onlyPrevious id
  let g ← g.removeNode id
  match prev with
  | some n =>
    if fusible n then return (← g.removeNode n.id, some n.invocation.operands)
    else return (g, none)
  | none => return (g, none)

/-- Divides a node with tagged batches.  Only concatenation has an aggregator here. -/
def divideRoundRobin (id : Int) (p : Parallelizer) (s : ChannelSource) (fanOut : Nat)
    (batch : Option Int) : Build (Graph × ChannelSource) := do
  match p.aggregator with
  | .adjacentMerge => throw (.refused "adj_lines_merge not yet implemented in PaSh")
  | .adjacentSequence => throw (.refused "adj_lines_seq not yet implemented in PaSh")
  | .adjacentFunction => throw (.refused "adj_lines_func not yet implemented in PaSh")
  | _ => pure ()
  let n ← Build.lift (g.node id)
  let (input, output) ← Build.lift n.singleStreams
  let (g, fused) ← Build.lift (g.removeFused id isMerge)
  let (g, ins, s) ← match fused with
    | some operands => pure (g, operands, s)
    | none => do
      let (g, ids, s) ← g.introduceSplitter (fun i os => Node.roundSplit i os batch false)
        fanOut s input
      pure (g, ids.map Operand.edge, s)
  let (g, groups, s) ← g.introduceMappers p n.invocation fanOut s ins
  let ids ← Build.lift (firsts groups)
  match p.aggregator with
  | .concatenate =>
    let m ← Node.merge ids output
    let g ← Build.lift (g.introduceAggregator m ids output)
    return (g, s)
  | _ => return (g, s)

/-- Divides a node with batches that carry no tags. -/
def divideRaw (id : Int) (p : Parallelizer) (s : ChannelSource) (fanOut : Nat)
    (batch : Option Int) : Build (Graph × ChannelSource) := do
  let n ← Build.lift (g.node id)
  let (input, output) ← Build.lift n.singleStreams
  let (g, fused) ← Build.lift (g.removeFused id isMerge)
  let (g, ids, s) ← match fused with
    | some operands => g.introduceUnwraps s operands
    | none => g.introduceSplitter (fun i os => Node.roundSplit i os batch true) fanOut s input
  let (g, groups, s) ← g.introduceMappers p n.invocation fanOut s (ids.map Operand.edge)
  g.introduceGathering p n.invocation groups output s

/-- Divides a node into consecutive pieces. -/
def divideConsecutive (id : Int) (p : Parallelizer) (s : ChannelSource)
    (fanOut : Nat) : Build (Graph × ChannelSource) := do
  let n ← Build.lift (g.node id)
  let (input, output) ← Build.lift n.singleStreams
  let (g, fused) ← Build.lift (g.removeFused id isConcatenation)
  let (g, ins, s) ← match fused with
    | some operands => pure (g, operands, s)
    | none => do
      let (g, ids, s) ← g.introduceSplitter Node.split fanOut s input
      pure (g, ids.map Operand.edge, s)
  let (g, groups, s) ← g.introduceMappers p n.invocation fanOut s ins
  g.introduceGathering p n.invocation groups output s

/-- Divides a node as its parallelizer says. -/
def parallelize (id : Int) (p : Parallelizer) (s : ChannelSource) (fanOut : Nat)
    (batch : Option Int) : Build (Graph × ChannelSource) :=
  match p.splitter with
  | .roundRobin => g.divideRoundRobin id p s fanOut batch
  | .roundRobinRaw => g.divideRaw id p s fanOut batch
  | .consecutive => g.divideConsecutive id p s fanOut
  | .other _ => throw (.refused "Splitter not yet implemented")

end ShellFlow.Graph

/-!
### Choosing how to divide nodes

Nodes are visited from the sources of the graph; a node waits until all nodes in front of it have
been visited.  For each the best division that is provided is chosen: tagged batches, then batches
without tags, then consecutive pieces.

The visit ends when the waiting list is empty.  It cannot go on when every waiting node has been put
back once without a visit in between; then some node waits for one that is never visited, and the
choice fails.
-/

namespace ShellFlow

/-- The best division of a node that is provided. -/
def Node.choice (n : Node) : Option Parallelizer :=
  (n.parallelizer? .roundRobin).or
    ((n.parallelizer? .roundRobinRaw).or (n.parallelizer? .consecutive))

namespace Graph

variable (g : Graph)

/-!
### Termination

Every node is visited once, so that a visit makes the number of the others smaller.
-/

/-- How many nodes are still to be visited. -/
def unvisited (visited : List Int) : Nat :=
  (g.nodes.keys.filter fun n => !visited.contains n).length

theorem unvisited_lt {visited : List Int} {n : Int} (h : n ∈ g.nodes.keys)
    (hn : visited.contains n = false) : g.unvisited (n :: visited) < g.unvisited visited := by
  have hfilter : (g.nodes.keys.filter fun m => !(n :: visited).contains m) =
      (g.nodes.keys.filter fun m => !visited.contains m).filter (· != n) := by
    rw [List.filter_filter]
    congr 1
    funext m
    rw [List.contains_cons, Bool.not_or]
    rfl
  rw [unvisited, hfilter, unvisited, List.length_filter_lt_length_iff_exists]
  exact ⟨n, List.mem_filter.2 ⟨h, by rw [hn]; rfl⟩, by simp⟩

/-! ### The visit -/

/-- The visit: nodes that wait, how many of them were put back since the last visit, nodes that were
visited, and the choices so far. -/
def visit (g : Graph) (waiting : List Int) (putBack : Nat) (visited : List Int)
    (chosen : List (Int × Option Parallelizer)) :
    Except Fault (List (Int × Option Parallelizer)) :=
  match waiting with
  | [] => .ok chosen
  | n :: rest =>
    match _ : g.node? n with
    | none => .error (.missing (toString n))
    | some node =>
      match g.previousNodes n with
      | .error e => .error e
      | .ok before =>
        if before.all visited.contains then
          if _ : visited.contains n then g.visit rest 0 visited chosen
          else
            match g.nextNodes n with
            | .error e => .error e
            | .ok after => g.visit (rest ++ after) 0 (n :: visited) (chosen ++ [(n, node.choice)])
        else if hb : putBack < rest.length + 1 then
          g.visit (rest ++ [n]) (putBack + 1) visited chosen
        else .error .stuck
termination_by (g.unvisited visited, waiting.length, waiting.length - putBack)
decreasing_by
  · apply Prod.Lex.right
    apply Prod.Lex.left
    simp
  · apply Prod.Lex.left
    exact g.unvisited_lt (Table.mem_keys_of_get? ‹_›) (eq_false_of_ne_true ‹_›)
  · apply Prod.Lex.right
    have hl : (rest ++ [n]).length = (n :: rest).length := by simp
    rw [hl]
    apply Prod.Lex.right
    simp only [List.length_cons]
    omega

/-- The divisions of all nodes that can be reached, in the order of the visit. -/
def choices (order : SetOrder) : Except Fault (List (Int × Option Parallelizer)) :=
  g.visit (order.list g.sourceNodes) 0 [] []

def divideChosen (fanOut : Nat) (batch : Option Int) :
    Graph → ChannelSource → List (Int × Option Parallelizer) → Build Graph
  | g, _, [] => return g
  | g, s, (_, none) :: rest => divideChosen fanOut batch g s rest
  | g, s, (n, some p) :: rest => do
    let (g, s) ← g.parallelize n p s fanOut batch
    divideChosen fanOut batch g s rest

def divideAll (fanOut : Nat) (batch : Option Int) : Build Graph := do
  let chosen ← Build.lift (g.choices (← get).order)
  let s ← g.channelSource
  divideChosen fanOut batch g s chosen

end Graph

end ShellFlow
