import ShellFlow.Compile.Command
import ShellFlow.Graph.Document
import ShellFlow.Store

/-!
# Connections as documents

What edges are to a command, and where they come from.
-/

namespace ShellFlow

def Access.name : Access → String
  | .streamInput => "stream_input"
  | .streamOutput => "stream_output"
  | .otherOutput => "other_output"
  | .configInput => "config_input"

def Invocation.fields (i : Invocation) : List (String × Value) :=
  [("cmd", .text i.command), ("flags", .list (i.flags.map fun f => f.mark.toValue)),
    ("ops", .list (i.operands.map fun o => o.mark.toValue)), ("in", .ofOption .int i.implicitInput),
    ("out", .ofOption .int i.implicitOutput)]

def Edge.listing (t : Table Int Edge) : Value :=
  .list (t.entries.map fun (id, e) =>
    .list [.int id, .ofText e.channel.display, .ofOption .int e.source, .ofOption .int e.target])

/-- Fresh channels after a number, in a directory of their own that can be made. -/
def ChannelSource.makeAt (last : Int) (stem : String) : Build ChannelSource := do
  let s ← ChannelSource.make last stem
  let _ ← Build.lift (({} : Store).makePath (Settings.standard.scratchPath s.dir))
  return s

/-- The place of the word that an edge comes from, and the text of the word. -/
def EdgeOrigin.option (words : List Word) : EdgeOrigin → Except Fault Value
  | .word place => do return .list [place, .text (← Word.format (← itemAt words (← place.asInt)))]
  | .stream _ => .error .broken

def EdgeOrigin.ofValue : Value → EdgeOrigin
  | .list [.text "option", place] => .word place
  | v => .stream (v.textD "")

end ShellFlow
