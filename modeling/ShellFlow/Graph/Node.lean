import ShellFlow.Graph.Channel
import ShellFlow.Table

/-!
# Nodes

A node of a dataflow graph: an invocation, the redirections and assignments around it, and what is
known about running it in parallel.  An invocation is a command with its flags and operands, where
edges of the graph stand in the places of files.
-/

namespace ShellFlow

/-- How a command uses an edge. -/
inductive Access where
  | streamInput
  | streamOutput
  | otherOutput
  | configInput
  deriving DecidableEq, Inhabited, Repr

inductive Operand where
  | edge (id : Int)
  | literal (w : Word)
  /-- A word that stands for itself. -/
  | word (w : Word)
  | positional (inner : Operand)
  | file (w : Word) (access : Access)
  | descriptor (fd : Int) (access : Access)
  | data (v : Value)

namespace Operand

/-- The edge that an operand names; a truth value counts as the number 0 or 1. -/
def edge? : Operand → Option Int
  | edge id => some id
  | data (.bool b) => some (if b then 1 else 0)
  | _ => none

def mark : Operand → Mark
  | edge id => .edge id
  | literal w => .literal (Word.format w)
  | word w => .word (Word.format w)
  | positional inner => .operand inner.mark
  | file _ _ => .file
  | descriptor _ _ => .descriptor
  | data v => .data v

/-- The key under which an operand would be looked up among the edges. -/
def keyText : Operand → Except Fault String
  | edge id => .ok (toString id)
  | literal w | word w | file w _ => Word.format w
  | positional inner => inner.keyText
  | descriptor fd _ => .ok (toString fd)
  | data v => .ok v.display

end Operand

/-- A flag, or an option with an argument. -/
inductive Flag where
  | flag (name : String)
  /-- An option whose argument may be an edge. -/
  | connected (name : String) (argument : Operand)
  | option (name : String) (argument : Operand)

namespace Flag

def mark : Flag → FlagMark
  | flag name => .flag name
  | connected name arg | option name arg => .option name arg.mark

end Flag

/-- A command with edges in the places of files. -/
structure Invocation where
  command : String
  flags : List Flag := []
  operands : List Operand := []
  implicitInput : Option Int := none
  implicitOutput : Option Int := none
  streaming : List Int := []
  config : List Int := []
  outputs : List Int := []

namespace Invocation

/-- The edges of an access map that are used in one of some ways, in order. -/
def edgesWith (access : Table Int Access) (p : Access → Bool) : List Int :=
  (access.entries.filter fun e => p e.2).map (·.1)

def ofAccess (command : String) (flags : List Flag) (operands : List Operand)
    (implicitInput implicitOutput : Option Int) (access : Table Int Access) : Invocation where
  command := command
  flags := flags
  operands := operands
  implicitInput := implicitInput
  implicitOutput := implicitOutput
  streaming := edgesWith access (· == .streamInput)
  config := edgesWith access (· == .configInput)
  outputs := edgesWith access fun a => a == .streamOutput || a == .otherOutput

variable (i : Invocation)

/-- All edges that are read, streams first. -/
def inputs : List Int := i.streaming ++ i.config

def replaceIn (old new : Int) (ids : List Int) : List Int :=
  ids.map fun id => if id = old then new else id

/-- Renames one edge wherever the invocation uses it, flags and options apart. -/
def replaceEdge (old new : Int) : Invocation :=
  { i with
    operands := i.operands.map fun o => if o.edge? = some old then .edge new else o
    implicitInput := if i.implicitInput = some old then some new else i.implicitInput
    implicitOutput := if i.implicitOutput = some old then some new else i.implicitOutput
    streaming := replaceIn old new i.streaming
    config := replaceIn old new i.config
    outputs := replaceIn old new i.outputs }

def withoutStreams : Invocation :=
  { i with implicitInput := none, implicitOutput := none }

def isConcatenation : Bool := i.command == "cat"

end Invocation

abbrev ChannelLookup := Int → Except Fault (Channel Int)

namespace Operand

variable (channel : ChannelLookup)

/-- The word of an operand that stands by itself or as an argument. -/
def argumentWord (o : Operand) : Except Fault Word :=
  match o.edge? with
  | some id => do (← channel id).toWord false
  | none =>
    match o with
    | literal w | word w => .ok w
    | _ => .error (.refused "Unhandled type for operand in to_ast!")

def toWord : Operand → Except Fault Word
  | positional inner => argumentWord channel inner
  | o => argumentWord channel o

/-- The word of an argument inside a quoted command.  Pipes and scratch files cannot be named there.
-/
def wrappedArgument (o : Operand) : Except Fault Word :=
  match o.edge? with
  | some id => do
    let c ← channel id
    let w ← c.toWord false
    if c.isFile then .ok w else .error .broken
  | none =>
    match o with
    | literal w => .ok w
    | _ => .error (.refused "Unhandled type for operand in to_arg!")

def toWrappedWord : Operand → Except Fault Word
  | positional inner => wrappedArgument channel inner
  | o => wrappedArgument channel o

end Operand

namespace Flag

/-- The words of a flag or option; a literal option has none. -/
def toWords (channel : ChannelLookup) : Flag → Except Fault (List Word)
  | flag name => .ok [Word.ofString name]
  | connected name arg => do
    let w ← arg.argumentWord channel
    return [Word.ofString name, w]
  | option _ _ => .error .wrongKind

def toWrappedWords (channel : ChannelLookup) : Flag → Except Fault (List Word)
  | flag name => .ok [Word.ofString name]
  | connected name arg => do
    let w ← arg.wrappedArgument channel
    return [Word.ofString name, w]
  | option _ _ => .error .wrongKind

end Flag

namespace Invocation

def words (i : Invocation) (channel : ChannelLookup) : Except Fault (List Word) := do
  let flags ← i.flags.mapM (Flag.toWords channel)
  let operands ← i.operands.mapM (Operand.toWord channel)
  return Word.ofString i.command :: flags.flatten ++ operands

/-- The redirection that connects an implicit stream, unless it is the standard one already. -/
def streamRedirection (channel : ChannelLookup) (edge : Option Int) (standard : Channel Int → Bool)
    (redirect : Word → Redirection) : Except Fault (List Redirection) :=
  match edge with
  | none => .ok []
  | some id => do
    let c ← channel id
    if standard c then return []
    let w ← c.toWord false
    return [redirect w]

/-- The command as a tree, its implicit streams as redirections. -/
def toTree (i : Invocation) (channel : ChannelLookup) (assignments : List Assignment) :
    Except Fault Tree := do
  let ws ← i.words channel
  let stdin ← streamRedirection channel i.implicitInput Channel.isStdin .inputFrom
  let stdout ← streamRedirection channel i.implicitOutput Channel.isStdout .outputTo
  return .command 0 assignments ws (stdin ++ stdout)

/-- The words between the quotes of a wrapped command, each with a blank in front. -/
def quotedCommand (parts : List Word) : Word :=
  Word.ofString "'" ++ parts.flatMap (fun w => .char 32 :: w) ++ Word.ofString " '"

/-- The command as one quoted argument. -/
def toWrapped (i : Invocation) (channel : ChannelLookup) : Except Fault Word := do
  let flags ← i.flags.mapM (Flag.toWrappedWords channel)
  let operands ← i.operands.mapM (Operand.toWrappedWord channel)
  return quotedCommand (Word.ofString i.command :: flags.flatten ++ operands)

end Invocation

/-! ### Nodes -/

/-- How the input of a node is divided among copies of it. -/
inductive Splitter where
  /-- Batches in turn, tagged so that their order can be restored. -/
  | roundRobin
  /-- Batches in turn, without tags. -/
  | roundRobinRaw
  | consecutive
  | other (name : String)
  deriving DecidableEq, Inhabited, Repr

/-- How the outputs of the copies of a node are put together. -/
inductive Aggregator where
  | concatenate
  | nary
  | binary
  | adjacentMerge
  | adjacentSequence
  | adjacentFunction
  | other (name : String)
  deriving DecidableEq, Inhabited, Repr

/-- A way to run a node in parallel.  `extra` counts the auxiliary outputs of each copy. -/
structure Parallelizer where
  splitter : Splitter
  aggregator : Aggregator
  extra : Int := 0
  implemented : Bool := true
  deriving DecidableEq, Inhabited, Repr

namespace Splitter

def name : Splitter → String
  | roundRobin => "rr"
  | roundRobinRaw => "rru"
  | consecutive => "cc"
  | other n => n

end Splitter

namespace Aggregator

def name : Aggregator → String
  | concatenate => "cat"
  | nary => "nary"
  | binary => "2ary"
  | adjacentMerge => "adj_merge"
  | adjacentSequence => "adj_seq"
  | adjacentFunction => "adj_func"
  | other n => n

end Aggregator

namespace Parallelizer

def name (p : Parallelizer) : String := p.splitter.name ++ "/" ++ p.aggregator.name

/-- A copy of the command that reads one edge and writes one, with auxiliary outputs. -/
def mapper (whole : Invocation) (input output : Int) (extra : List Int) : Invocation :=
  .ofAccess whole.command [] [] (some input) (some output)
    (.ofList ((input, .streamInput) :: (output, .streamOutput) ::
      extra.map fun id => (id, .streamOutput)))

/-- The command that puts together the outputs of all copies. -/
def gather (whole : Invocation) (inputs : List Int) (output : Int) : Invocation :=
  .ofAccess ("agg-" ++ whole.command) [] (inputs.map .edge) none (some output)
    (.ofList (inputs.map (fun id => (id, .streamInput)) ++ [(output, .streamOutput)]))

/-- The command that puts together two outputs with their auxiliary outputs. -/
def gatherPair (inputs outputs : List Int) : Invocation :=
  .ofAccess "agg2" [] ((inputs ++ outputs).map .edge) none none
    (.ofList (inputs.map (fun id => (id, .streamInput)) ++ outputs.map fun id =>
      (id, .streamOutput)))

end Parallelizer

/-- The redirections that a node can have: a file that is written or read. -/
structure FileRedirection where
  write : Bool
  fd : Value
  target : Word

namespace FileRedirection

def mode (r : FileRedirection) : String := if r.write then "To" else "From"

def toRedirection (r : FileRedirection) : Redirection := .mk .file (.text r.mode) r.fd r.target

def display (r : FileRedirection) : Except Fault String := do
  return "(File, " ++ r.mode ++ ", " ++ r.fd.display ++ ", " ++ (← Word.format r.target) ++ ")"

end FileRedirection

/-- Accepts exactly the redirections that write or read a file. -/
def checkRedirection : Redirection → Except Fault FileRedirection
  | .mk .file (.text "To") fd w => .ok ⟨true, fd, w⟩
  | .mk .file (.text "From") fd w => .ok ⟨false, fd, w⟩
  | _ => .error .broken

/-- What a node is.  A wrapping node remembers the name of the command that it wraps. -/
inductive NodeKind where
  | plain
  | roundSplit
  | merge
  | unwrap
  | wrap (inner : String)
  | split
  | eager
  | tee
  deriving DecidableEq, Inhabited, Repr

namespace NodeKind

def toClass : NodeKind → NodeClass
  | plain => .plain
  | roundSplit => .roundSplit
  | merge => .merge
  | unwrap => .unwrap
  | wrap _ => .wrap
  | split => .split
  | eager => .eager
  | tee => .tee

end NodeKind

/-- A node of a dataflow graph. -/
structure Node where
  id : Int
  kind : NodeKind := .plain
  invocation : Invocation
  redirections : List FileRedirection := []
  assignments : List Assignment := []
  parallelizers : List Parallelizer := []
  properties : Table String Value := .empty

namespace Node

def inputs (n : Node) : List Int := n.invocation.inputs

def outputs (n : Node) : List Int := n.invocation.outputs

def replaceEdge (n : Node) (old new : Int) : Node :=
  { n with invocation := n.invocation.replaceEdge old new }

variable (n : Node)

def label : String :=
  match n.kind with
  | .wrap inner => Path.base n.invocation.command ++ "(" ++ inner ++ ")"
  | _ => Path.base n.invocation.command

/-- What is known about the order in which a node may read its input. -/
def commutative : Value :=
  match n.properties.get? "is_commutative" with
  | none | some .null => .bool false
  | some v => v

/-- The first way of a kind to run the node in parallel that is provided. -/
def parallelizer? (s : Splitter) : Option Parallelizer :=
  n.parallelizers.find? fun p => p.splitter == s && p.implemented

def outline : NodeOutline where
  id := n.id
  kind := n.kind.toClass
  command := n.invocation.command
  flags := n.invocation.flags.map Flag.mark
  operands := n.invocation.operands.map Operand.mark
  implicitInput := n.invocation.implicitInput
  implicitOutput := n.invocation.implicitOutput
  inputs := n.inputs
  outputs := n.outputs

/-- The one stream that a node reads and the one that it writes; a node with more, or with
configuration inputs, cannot be divided. -/
def singleStreams : Except Fault (Int × Int) :=
  match n.invocation.streaming, n.invocation.config, n.outputs with
  | [i], [], [o] => .ok (i, o)
  | _, _, _ => .error .broken

def make (kind : NodeKind) (i : Invocation) : Build Node := do
  let id ← Build.freshNode
  return { id, kind, invocation := i }

def plain (i : Invocation) : Build Node := make .plain i

def cat (inputs : List Int) (output : Int) : Build Node :=
  plain <| .ofAccess "cat" [] (inputs.map .edge) none (some output)
    (.ofList (inputs.map (fun id => (id, .streamInput)) ++ [(output, .streamOutput)]))

def roundSplit (input : Int) (outputs : List Int) (batch : Option Int) (raw : Bool) : Build Node :=
  make .roundSplit <| .ofAccess (Settings.standard.program Settings.standard.roundSplit)
    (if raw then [.flag "-r"] else [])
    (.edge input :: .positional (.word (Word.ofString (Value.ofSetting .int batch).display)) ::
      outputs.map .edge)
    none none
    (.ofList (outputs.map (fun id => (id, .streamOutput)) ++ [(input, .streamInput)]))

/-- Restores the order of batches. -/
def merge (inputs : List Int) (output : Int) : Build Node :=
  make .merge <| .ofAccess (Settings.standard.program Settings.standard.roundMerge) []
    (inputs.map .edge) none (some output)
    (.ofList (inputs.map (fun id => (id, .streamInput)) ++ [(output, .streamOutput)]))

/-- Drops the tags of batches; it has exactly one input. -/
def unwrap (inputs : List Int) (output : Int) : Build Node := do
  match inputs with
  | [input] =>
    make .unwrap <| .ofAccess (Settings.standard.program Settings.standard.roundUnwrap) [] []
      (some input) (some output) (.ofList [(input, .streamInput), (output, .streamOutput)])
  | _ => throw .broken

/-- Cuts its input into consecutive pieces. -/
def split (input : Int) (outputs : List Int) : Build Node :=
  make .split <| .ofAccess (Settings.standard.program Settings.standard.autoSplit) []
    (.edge input :: outputs.map .edge) none none
    (.ofList (outputs.map (fun id => (id, .streamOutput)) ++ [(input, .streamInput)]))

def eager (input output intermediate : Int) (program : String) : Build Node :=
  make .eager <| .ofAccess program [] [.edge input, .edge output, .edge intermediate] none none
    (.ofList [(output, .streamOutput), (input, .streamInput), (intermediate, .otherOutput)])

/-- Buffers its input in memory. -/
def tee (input output : Int) : Build Node :=
  make .tee <| .ofAccess (Settings.standard.program Settings.standard.tee)
    [.connected "-i" (.edge input), .connected "-o" (.edge output), .flag "-I", .flag "-f",
      .connected "-b" (.literal (Word.ofString Settings.standard.teeBuffer))] [] none none
    (.ofList [(output, .streamOutput), (input, .streamInput)])

/-- Wraps a node that has one input and one output, so that it runs once per batch.  The wrapped
node loses its implicit streams; a node with redirections cannot be wrapped.  Yields the wrapped
node and the wrapping one. -/
def wrap (n : Node) (channel : ChannelLookup) : Build (Node × Node) := do
  match n.inputs, n.outputs with
  | [input], [output] =>
    let inner := { n with invocation := n.invocation.withoutStreams }
    let quoted ← Build.lift (inner.invocation.toWrapped channel)
    let node ← make (.wrap n.invocation.command) <|
      .ofAccess (Settings.standard.program Settings.standard.roundWrap) []
        [.word (Word.ofString "bash -c"), .word quoted] (some input) (some output)
        (.ofList [(input, .streamInput), (output, .streamOutput)])
    if n.redirections.isEmpty then
      return (inner, { node with assignments := n.assignments })
    else throw .lacking
  | _, _ => throw .broken

/-- A node that runs on another host; none is provided. -/
def remote : Build Node := throw .wrongKind

end Node

end ShellFlow
