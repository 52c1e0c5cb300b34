import ShellFlow.Graph.Files
import ShellFlow.Shell.Document
import ShellFlow.Value.Sequence

/-!
# Graphs as data

Graphs described by plain data, and the views of graphs written as plain data.
-/

namespace ShellFlow

def hostsOfValue (v : Value) : Except Fault (List String) := do
  (← v.sequence).mapM fun
    | .text address => .ok (hostOf address)
    | _ => .error .lacking

def Resource.ofValue (v : Value) : Except Fault (Option Resource) :=
  match v with
  | .null => .ok none
  | .text "ephemeral" => .ok (some .ephemeral)
  | .text "temporary" => .ok (some .temporary)
  | .text "remote" => do return some (← Resource.remote)
  | _ =>
    if v.has "fd" then .ok (some (.descriptor (v.get "fd")))
    else if v.has "file" then do return some (.file (← Word.ofValue (v.get "file")))
    else if v.has "uri" then .ok (some (.location (v.get "uri")))
    else if v.has "hdfs" then do
      return some (.block (v.get "hdfs") (← hostsOfValue (v.get "hosts")))
    else if v.has "dfs" then do
      return some (.piece (v.get "dfs") (v.get "path") ((v.get "split").intD 0)
        (← hostsOfValue (v.get "hosts")))
    else .error .wrongKind

/-- Reads a way to use an edge. -/
def Access.ofValue : Value → Except Fault Access
  | .text "si" => .ok .streamInput
  | .text "so" => .ok .streamOutput
  | .text "oo" => .ok .otherOutput
  | .text "ci" => .ok .configInput
  | _ => .error .wrongKind

/-- Reads an operand: the number of an edge, or a record that tells by its first name what it holds.
-/
def Operand.ofValue (v : Value) : Except Fault Operand :=
  match v with
  | .int n => .ok (.edge n)
  | .record (("s", w) :: _) => do return .literal (← Word.ofValue w)
  | .record (("o", .int n) :: _) => .ok (.positional (.edge n))
  | .record (("o", w) :: _) => do return .positional (.word (← Word.ofValue w))
  | .record (("os", w) :: _) => do return .positional (.literal (← Word.ofValue w))
  | .record (("a", w) :: _) => do return .word (← Word.ofValue w)
  | .record ((_, .int n) :: _) => .ok (.edge n)
  | .record ((_, x) :: _) => .ok (.data x)
  | v => .ok (.data v)

/-- Reads a flag, an option that may be connected, or a plain option. -/
def Flag.ofValue : Value → Except Fault Flag
  | .text name => .ok (.flag name)
  | .list [.text name, o] => do return .connected name (← Operand.ofValue o)
  | .list [.text name, o, .text "plain"] => do return .option name (← Operand.ofValue o)
  | _ => .error .wrongKind

def Splitter.ofName : String → Splitter
  | "rr" => .roundRobin
  | "rru" => .roundRobinRaw
  | "cc" => .consecutive
  | n => .other n

def Aggregator.ofName : String → Aggregator
  | "cat" => .concatenate
  | "nary" => .nary
  | "2ary" => .binary
  | "adj_merge" => .adjacentMerge
  | "adj_seq" => .adjacentSequence
  | "adj_func" => .adjacentFunction
  | n => .other n

/-- Reads a parallelizer: splitter, aggregator, number of auxiliary outputs, whether it is provided.
-/
def Parallelizer.ofValue : Value → Except Fault Parallelizer
  | .list (.text s :: .text a :: rest) =>
    .ok
      { splitter := .ofName s
        aggregator := .ofName a
        extra := (rest.headD .null).intD 0
        implemented := rest[1]?.all Value.truthy }
  | _ => .error .wrongKind

/-- Reads a pair of a name and a value. -/
def namedValue : Value → Except Fault (String × Value)
  | .list [.text k, v] => .ok (k, v)
  | _ => .error .wrongKind

/-- Reads how one edge is used. -/
def accessEntry : Value → Except Fault (Int × Access)
  | .list [e, a] => do return (← e.asInt, ← Access.ofValue a)
  | _ => .error .wrongKind

namespace Node

def commandOfValue (v : Value) : Build Node := do
  let flags ← Build.lift ((v.get "flags").items.mapM Flag.ofValue)
  let operands ← Build.lift ((v.get "ops").items.mapM Operand.ofValue)
  let input ← Build.lift ((v.get "in").asOptional Value.asInt)
  let output ← Build.lift ((v.get "out").asOptional Value.asInt)
  let access ← Build.lift ((v.get "acc").items.mapM accessEntry)
  let redirections ← Build.lift do
    ((v.get "redirs").items.mapM Redirection.ofValue) >>= List.mapM checkRedirection
  let assignments ← Build.lift ((v.get "assign").items.mapM Assignment.ofValue)
  let parallelizers ← Build.lift ((v.get "par").items.mapM Parallelizer.ofValue)
  let properties ← Build.lift ((v.get "props").items.mapM namedValue)
  let command ← Build.lift (v.get "cmd").asText
  let n ← plain (.ofAccess command flags operands input output (.ofList access))
  return { n with redirections, assignments, parallelizers, properties := .ofList properties }

def helperOfValue (kind : String) (v : Value) : Build Node := do
  let one (name : String) : Build Int := Build.lift (v.get name).asInt
  let many (name : String) : Build (List Int) := Build.lift ((v.get name).asListOf Value.asInt)
  match kind with
  | "r_split" => roundSplit (← one "i") (← many "o") (some ((v.get "batch").intD 1)) false
  | "r_split_raw" => roundSplit (← one "i") (← many "o") (some ((v.get "batch").intD 1)) true
  | "r_merge" => merge (← many "i") (← one "o")
  | "r_unwrap" => unwrap (← many "i") (← one "o")
  | "split" => split (← one "i") (← many "o")
  | "cat" => cat (← many "i") (← one "o")
  | "eager" => eager (← one "i") (← one "o") (← one "tmp") ((v.get "bin").textD "")
  | "dgsh_tee" => tee (← one "i") (← one "o")
  | _ => remote

def ofValue (v : Value) : Build Node :=
  match v.get "kind" with
  | .text kind => helperOfValue kind v
  | _ => commandOfValue v

end Node

namespace Graph

def describedDir : String := "g/"

def channelOfValue (id : Int) (resource : Value) : Except Fault (Channel Int) := do
  return { ident := id, dir := describedDir, resource := ← Resource.ofValue resource }

/-- Reads an edge: its number, and whether it gives its ends. -/
def edgeOfValue : Value → Except Fault (Int × Edge × Bool)
  | .list [id, r] => do
    let id ← id.asInt
    return (id, { channel := ← channelOfValue id r }, false)
  | .list [id, r, source, target] => do
    let id ← id.asInt
    return (id,
      { channel := ← channelOfValue id r
        source := ← source.asOptional Value.asInt
        target := ← target.asOptional Value.asInt }, true)
  | _ => .error .wrongKind

/-- Changes those of some edges that are there and are free to be connected. -/
def connect (free : List Int) (change : Edge → Edge) (ids : List Int) (edges : Table Int Edge) :
    Table Int Edge :=
  ids.foldl (fun es id =>
    match es.get? id with
    | some e => if free.contains id then es.insert id (change e) else es
    | none => es) edges

/-- Reads nodes one after the other, connecting their edges. -/
def nodesOfValues (free : List Int) :
    Table Int Node → Table Int Edge → List Value → Build (Table Int Node × Table Int Edge)
  | nodes, edges, [] => return (nodes, edges)
  | nodes, edges, v :: vs => do
    let n ← Node.ofValue v
    let edges := connect free (fun e => { e with target := some n.id }) n.inputs edges
    let edges := connect free (fun e => { e with source := some n.id }) n.outputs edges
    nodesOfValues free (nodes.insert n.id n) edges vs

def ofValue (v : Value) : Build Graph := do
  let es ← Build.lift ((v.get "edges").items.mapM edgeOfValue)
  let free := (es.filter fun e => !e.2.2).map (·.1)
  let (nodes, edges) ←
    nodesOfValues free .empty (.ofList (es.map fun e => (e.1, e.2.1))) (v.get "nodes").items
  Build.lift (make nodes edges (v.get "background").truthy)

end Graph

def Mark.toValue : Mark → Value
  | .edge id => .int id
  | .literal text => .record [("s", .ofText text)]
  | .word text => .record [("a", .ofText text)]
  | .operand inner => .record [("o", inner.toValue)]
  | .file => .text "<FileNameWithIOInfo>"
  | .descriptor => .text "<StdDescriptorWithIOInfo>"
  | .data v => v

def FlagMark.toValue : FlagMark → Value
  | .flag name => .text name
  | .option name argument => .list [.text name, argument.toValue]

/-- The fields of a node; `className` names what kind of node it is. -/
def NodeOutline.fields (className : NodeClass → String) (n : NodeOutline) : List (String × Value) :=
  [("id", .int n.id), ("class", .text (className n.kind)), ("cmd", .text n.command),
    ("flags", .list (n.flags.map FlagMark.toValue)), ("ops", .list (n.operands.map Mark.toValue)),
    ("in", .ofOption .int n.implicitInput), ("out", .ofOption .int n.implicitOutput),
    ("inputs", .ints n.inputs), ("outputs", .ints n.outputs)]

def EdgeOutline.toValue (e : EdgeOutline) : Value :=
  .list [.int e.id, .ofText e.channel, .ofOption .int e.source, .ofOption .int e.target]

def Outline.toValue (className : NodeClass → String) (o : Outline) : Value :=
  .record
    [("nodes", .list (o.nodes.map fun n => .record (n.fields className))),
      ("edges", .list (o.edges.map EdgeOutline.toValue)), ("background", .bool o.background)]

/-!
### What no node has

The parts of a command that merges what copies of a node give would be taken from the parallelizer
that the node uses.  A node does not tell which one that is, and its redirections are not trees.
-/

namespace Node

def mergingCommand (_ : Node) : Except Fault Value := .error .lacking

def mergingNode (_ : Node) : Except Fault Value := .error .wrongKind

def invocationStart (_ : Node) : Except Fault Value := .error .lacking

end Node

end ShellFlow
