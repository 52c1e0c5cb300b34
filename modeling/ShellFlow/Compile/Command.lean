import ShellFlow.Graph.Files
import ShellFlow.Text.Blank

/-!
# Commands as graphs

The words of a command are read as flags, options with an argument, and operands; the streams of the
command become edges; the command becomes a graph of one node.
-/

namespace ShellFlow

def knownFlags : List String := ["-n", "-e", "-r", "-l", "-c"]

def knownOptions : List String := ["-d", "-f"]

/-- A word that is the escape of a line end is put in quotes. -/
def quoteNewline (word : String) : String := if word = "\\n" then "\"\\n\"" else word

/-- A flag, or an option with its argument. -/
inductive Setting where
  | flag (name : String)
  | option (name : String) (argument : Word)

/-- A command with its settings and operands. -/
structure CommandForm where
  name : String
  settings : List Setting
  operands : List Word

/-- The flags of a word that bundles one or several: a dash and the letters of known flags. -/
def bundledFlags? (word : String) : Option (List String) :=
  match word.toList with
  | '-' :: c :: cs =>
    let flags := (c :: cs).map fun c => String.ofList ['-', c]
    if flags.all knownFlags.contains then some flags else none
  | _ => none

/-- The settings in front of some words, and the operands behind them. -/
def readSettings : List Word → Except Fault (List Setting × List Word)
  | [] => .ok ([], [])
  | w :: rest => do
    let text ← Word.format w
    match bundledFlags? text with
    | some flags =>
      let (settings, operands) ← readSettings rest
      return (flags.map .flag ++ settings, operands)
    | none =>
      match rest with
      | [] => return ([], [w])
      | argument :: behind =>
        if knownOptions.contains text then
          let (settings, operands) ← readSettings behind
          return (.option text argument :: settings, operands)
        else return ([], w :: rest)

namespace Setting

def toFlag : Setting → Flag
  | flag name => .flag name
  | option name argument => .option name (.word argument)

def words : Setting → List Word
  | flag name => [Word.ofString name]
  | option name argument => [Word.ofString name, argument]

end Setting

namespace CommandForm

def read (name : Word) (arguments : List Word) : Except Fault CommandForm := do
  let name ← Word.format name
  let (settings, operands) ← readSettings arguments
  return { name, settings, operands }

/-- The words that a form stands for, the name apart. -/
def words (f : CommandForm) : List Word := f.settings.flatMap Setting.words ++ f.operands

/-- Reads a command by its text alone: blanks separate words, and all but the first are operands. -/
def ofText (name : Word) (arguments : List Word) : Except Fault (String × List String) := do
  let text := (← Word.format name) ++ " " ++ " ".intercalate (← arguments.mapM Word.format)
  match Text.words text with
  | [] => .error .outOfRange
  | name :: operands => .ok (name, operands)

end CommandForm

/-- The edges of a graph in the making, how they are used, and where fresh channels come from. -/
structure Connection where
  edges : Table Int Edge := .empty
  access : Table Int Access := .empty
  source : ChannelSource

namespace Operand

/-- Whether something is given: nothing, zero and empty data are not. -/
def isGiven : Operand → Bool
  | edge id => id != 0
  | data v => v.truthy
  | _ => true

def resource : Operand → Except Fault (Resource × Access)
  | file w a => .ok (.file w, a)
  | descriptor fd a => .ok (.descriptor (.int fd), a)
  | _ => .error .broken

end Operand

namespace Connection

variable (c : Connection)

def addResource (r : Resource) : Connection × Int :=
  let (channel, source) := c.source.freshFor r
  ({ c with edges := c.edges.insert channel.ident { channel }, source }, channel.ident)

/-- Adds an edge for a file or descriptor. -/
def add (o : Operand) : Except Fault (Connection × Int) := do
  let (r, a) ← o.resource
  let (c, id) := c.addResource r
  return ({ c with access := c.access.insert id a }, id)

def addFlag (f : Flag) : Except Fault (Connection × Flag) :=
  match f with
  | .connected _ (.literal _) => .ok (c, f)
  | .connected name argument => do
    let (c, id) ← c.add argument
    return (c, .connected name (.edge id))
  | f => .ok (c, f)

def addOperand (o : Operand) : Except Fault (Connection × Operand) :=
  match o with
  | .file _ _ | .descriptor _ _ => do
    let (c, id) ← c.add o
    return (c, .edge id)
  | o => .ok (c, o)

/-- Connects an implicit stream, if there is one. -/
def addStream (o : Option Operand) : Except Fault (Connection × Option Int) :=
  match o with
  | none => .ok (c, none)
  | some o =>
    if o.isGiven then do
      let (c, id) ← c.add o
      return (c, some id)
    else .ok (c, none)

def addEach {α : Type} (f : Connection → α → Except Fault (Connection × α)) :
    Connection → List α → Except Fault (Connection × List α)
  | c, [] => .ok (c, [])
  | c, a :: as => do
    let (c, a) ← f c a
    let (c, as) ← addEach f c as
    return (c, a :: as)

end Connection

/-- Gives an edge to every file and descriptor that an invocation names: options, operands, the
implicit input, the implicit output. -/
def connect (command : String) (flags : List Flag) (operands : List Operand)
    (input output : Option Operand) (source : ChannelSource) :
    Except Fault (Invocation × Connection) := do
  let (c, flags) ← Connection.addEach Connection.addFlag { source } flags
  let (c, operands) ← Connection.addEach Connection.addOperand c operands
  let (c, input) ← c.addStream input
  let (c, output) ← c.addStream output
  return (.ofAccess command flags operands input output c.access, c)

/-- A node that reads the first and writes the second of its edges, as a graph. -/
def nodeGraph (n : Node) (edges : Table Int Edge) : Except Fault Graph := do
  let g : Graph := { nodes := .ofList [(n.id, n)], edges }
  let g ← g.setTargets n.inputs (some n.id)
  let g ← g.setSources n.outputs (some n.id)
  Graph.make g.nodes g.edges false

/-- The graph of a command, if it can be made: it reads standard input and writes standard output,
unless it is redirected. -/
def commandGraph (form : CommandForm) (redirections : List Redirection)
    (source : ChannelSource) : Build (Except Fault Graph × ChannelSource) := do
  let (invocation, c) ← Build.lift <|
    connect form.name (form.settings.map Setting.toFlag) (form.operands.map .literal)
      (some (.descriptor 0 .streamInput)) (some (.descriptor 1 .streamOutput)) source
  let redirections ← Build.lift (redirections.mapM checkRedirection)
  let n ← Node.plain invocation
  return (nodeGraph { n with redirections } c.edges, c.source)

/-- What an edge is made from: a named descriptor, or a word by its place among some words. -/
inductive EdgeOrigin where
  | stream (name : String)
  | word (place : Value)

/-- The item of a list at a place; negative places count from the end. -/
def itemAt {α : Type} (xs : List α) (place : Int) : Except Fault α :=
  let index := if place < 0 then place + xs.length else place
  if index < 0 then .error .outOfRange
  else
    match xs[index.toNat]? with
    | some x => .ok x
    | none => .error .outOfRange

def EdgeOrigin.resource (words : List Word) : EdgeOrigin → Except Fault Resource
  | word place => do return .file (← itemAt words (← place.asInt))
  | stream "stdin" => .ok (.descriptor (.int 0))
  | stream "stdout" => .ok (.descriptor (.int 1))
  | stream "stderr" => .ok (.descriptor (.int 2))
  | stream _ => .error .unsupported

/-- Adds an edge for each of some resources, in order. -/
def Connection.addResources (c : Connection) : List Resource → Connection × List Int
  | [] => (c, [])
  | r :: rs =>
    let (c, id) := c.addResource r
    let (c, ids) := c.addResources rs
    (c, id :: ids)

def sourceEdges (c : Connection) (words : List Word) :
    List EdgeOrigin → Except Fault (Connection × List Int)
  | [] => .ok (c, [])
  | o :: os => do
    let (c, id) := c.addResource (← o.resource words)
    let (c, ids) ← sourceEdges c words os
    return (c, id :: ids)

/-- Edges for files and descriptors that are given by position, or for one implicit descriptor;
there cannot be both. -/
def streamEdges (c : Connection) (positional : List Operand) (implicit : Bool) (fd : Int) :
    Except Fault (Connection × List Int) := do
  require (!implicit || positional.isEmpty)
  if implicit then return c.addResources [.descriptor (.int fd)]
  else
    let rs ← positional.mapM fun o => do return (← o.resource).1
    return c.addResources rs

end ShellFlow
