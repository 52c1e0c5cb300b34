import ShellFlow.Graph.Buffer
import ShellFlow.Graph.Emit

/-!
# Partition of graphs

A graph is cut where streams part and where they meet, so that the pieces can run on different
hosts.

## Design Notes

A piece is numbered when it is begun.  A piece that runs into a node which another piece has taken
already is given up; its number stays in the reader lists, and `Partition.place` yields no place for
it.
-/

namespace ShellFlow

/-- A cut graph. -/
structure Partition where
  /-- Finished pieces with their numbers. -/
  pieces : List (Nat × Graph) := []
  /-- The numbers of the pieces that read each edge. -/
  readers : Table Int (List Nat) := .empty
  begun : Nat := 0

namespace Partition

variable (p : Partition)

def begin : Nat × Partition := (p.begun, { p with begun := p.begun + 1 })

def finish (number : Nat) (g : Graph) : Partition :=
  { p with pieces := p.pieces ++ [(number, g)] }

def finishNonempty (number : Nat) (g : Graph) : Partition :=
  if g.sourceNodes.isEmpty then p else p.finish number g

def addReader (edge : Int) (number : Nat) : Partition :=
  { p with readers := p.readers.insert edge ((p.readers.get? edge).getD [] ++ [number]) }

def place (number : Nat) : Option Nat := p.pieces.findIdx? fun q => q.1 == number

/-- Begins a piece for each of some nodes. -/
def beginAll (p : Partition) : List Int → List (Int × Nat × Graph) × Partition
  | [] => ([], p)
  | n :: ns =>
    let (number, p) := p.begin
    let (rest, p) := beginAll p ns
    ((n, number, {}) :: rest, p)

end Partition

namespace Graph

def attachInput (node : Int) (piece : Graph) (c : Channel Int) : Except Fault Graph :=
  if piece.edges.contains c.ident then piece.setTarget c.ident (some node)
  else piece.insertEdge { channel := c, target := some node }

def attachOutput (node : Int) (piece : Graph) (c : Channel Int) : Except Fault Graph :=
  piece.insertEdge { channel := c, source := some node }

/-- Adds a fresh copy of a node to a piece, with its channels. -/
def extendPiece (piece : Graph) (n : Node) (ins outs : List (Channel Int)) : Build Graph := do
  let id ← Build.freshNode
  let copy := { n with id }
  let piece ← Build.lift (ins.foldlM (attachInput id) piece)
  let piece ← Build.lift (outs.foldlM (attachOutput id) piece)
  Build.lift (piece.addNode copy)

/-- The cut: nodes that wait with the piece that reaches them, edges that were passed, nodes that
were taken. -/
def cut (g : Graph) (waiting : List (Int × Nat × Graph)) (passed taken : List Int) (p : Partition) :
    Build Partition :=
  match waiting with
  | [] => return p
  | (n, number, piece) :: rest =>
    match _ : g.node? n with
    | none => throw (.missing (toString n))
    | some node => do
      let ins ← Build.lift (g.edgesOf node.inputs)
      let outs ← Build.lift (g.edgesOf node.outputs)
      if !ins.all (fun e => passed.contains e.1) then
        g.cut rest passed taken (p.finishNonempty number piece)
      else
        let meets := decide (ins.length > 1) && !piece.sourceNodes.isEmpty
        let (number, piece, p) :=
          if meets then
            let (fresh, q) := (p.finish number piece).begin
            (fresh, ({} : Graph), q)
          else (number, piece, p)
        if _ : taken.contains n then g.cut rest passed taken p
        else
          let piece ← piece.extendPiece node (ins.map (·.2.channel)) (outs.map (·.2.channel))
          let p := ins.foldl (fun p e => p.addReader e.2.channel.ident number) p
          let passed := outs.map (·.1) ++ passed
          match ← Build.lift (g.nextNodes n) with
          | [m] => g.cut (rest ++ [(m, number, piece)]) passed (n :: taken) p
          | after =>
            let (fresh, p) := (p.finish number piece).beginAll after
            g.cut (rest ++ fresh) passed (n :: taken) p
termination_by (g.unvisited taken, waiting.length)
decreasing_by
  · exact Prod.Lex.right _ (by simp)
  · exact Prod.Lex.right _ (by simp)
  · exact Prod.Lex.left _ _ (g.unvisited_lt (Table.mem_keys_of_get? ‹_›) (eq_false_of_ne_true ‹_›))
  · exact Prod.Lex.left _ _ (g.unvisited_lt (Table.mem_keys_of_get? ‹_›) (eq_false_of_ne_true ‹_›))

variable (g : Graph)

/-- The edges that no node writes. -/
def openInputs : List Int :=
  (g.edges.entries.filter fun e => e.2.source.isNone).map (·.1)

/-- Cuts a graph into pieces. -/
def partition : Build Partition := do
  let (waiting, p) := ({} : Partition).beginAll ((← get).order.list g.sourceNodes)
  g.cut waiting g.openInputs [] p

/-- The place of a layout among those that are written already, or a fresh scratch file for it. -/
def layoutPath (saved : Table String String) (layout : String) :
    Build (String × Table String String) :=
  match saved.get? layout with
  | some path => return (path, saved)
  | none => do
    let k ← Build.freshScratch
    let path := Settings.standard.scratchPath ("tmp" ++ toString k)
    return (path, saved.insert layout path)

/-- Writes the layouts of the distributed files of some edges, each once. -/
def saveLayoutList : Graph → Table String String → List (Int × Edge) →
    Build (Graph × Table String String)
  | g, saved, [] => return (g, saved)
  | g, saved, (id, e) :: rest =>
    match e.channel.resource with
    | some (.piece layout _ index hosts) => do
      let (path, saved) ← layoutPath saved (← Build.lift layout.asText)
      let c := { e.channel with resource := some (.piece layout (.text path) index hosts) }
      saveLayoutList (g.putEdge id { e with channel := c }) saved rest
    | _ => saveLayoutList g saved rest

def saveLayouts (saved : Table String String) : Build (Graph × Table String String) :=
  saveLayoutList g saved g.edges.entries

/-- The script of a graph in a scratch file: its name, the graph as emitted, the script. -/
def emitToFile (buffers : Bool) (termination : Termination) (logFile : Option String) :
    Build (String × Graph × List Tree) := do
  let k ← Build.freshScratch
  let g ← if buffers then g.addBuffers else pure g
  let (g, trees) ← g.emit termination logFile
  return (Settings.standard.scratchPath ("tmp" ++ toString k), g, trees)

end Graph

end ShellFlow
