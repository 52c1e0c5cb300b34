import ShellFlow.Graph.Basic

/-!
# Emission

A graph as a script.  Pipes are made first, then every node is started in the background, the node
that writes standard output last, and the script waits for it, removes the pipes and ends with its
status.
-/

namespace ShellFlow

/-- What happens to the rest of a graph when its last node ends. -/
inductive Termination where
  /-- The other nodes are ended. -/
  | cleanUp
  /-- All streams are read to their end; no node can do that. -/
  | drain
  | wait
  deriving DecidableEq, Inhabited, Repr

namespace Termination

def ofName : String → Termination
  | "clean_up_graph" => cleanUp
  | "drain_stream" => drain
  | _ => wait

end Termination

/-- `pids_to_kill="$! $pids_to_kill"` -/
def collectProcess : Tree :=
  .assign "pids_to_kill" [.quoted [Part.ofName "!", .char 32, Part.ofName "pids_to_kill"]]

/-- `pids_to_kill=""` -/
def initProcesses : Tree := .assign "pids_to_kill" [.quoted []]

def removePipes : String := "rm_pash_fifos"

/-- The name of the function that makes the pipes. -/
def makePipes : String := "mkfifo_pash_fifos"

/-- Defines and calls the functions that remove and make the pipes. -/
def prologue (pipes : List Word) : List Tree :=
  [.define 0 (.text removePipes)
      (.sequence (pipes.map fun w => .simple [Word.ofString "rm", Word.ofString "-f", w])),
    .define 0 (.text makePipes)
      (.sequence (pipes.map fun w => .simple [Word.ofString "mkfifo", w])),
    .texts [removePipes],
    .texts [makePipes]]

/-- Waits, removes the pipes, and ends with the status of the last node. -/
def epilogue (termination : Termination) (logFile : Option String) : List Tree :=
  (match termination with
    | .cleanUp =>
      [.command 0 []
        [Word.ofString "source",
          Word.ofString (Settings.standard.program Settings.standard.cleanUp), [Part.ofName "!"]]
        (if logFile = some "" then [] else [.appendErrors (logFile.getD "")])]
    | _ => [.texts ["wait"], .texts ["internal_exec_status=$?"]]) ++
  [.texts [removePipes],
    .inSubshell (.simple [Word.ofString "exit", [.quoted [Part.ofName "internal_exec_status"]]])]

namespace Graph

variable (g : Graph)

def nodeTree (drain : Bool) (n : Node) : Except Fault Tree :=
  if drain then .error .unsupported else n.invocation.toTree g.channel n.assignments

/-- Starts one node in the background and notes its process. -/
def startNode (drain : Bool) (n : Node) : Except Fault (List Tree) := do
  return [.inBackground (← g.nodeTree drain n), collectProcess]

/-- Puts a pipe in front of standard input; yields the command that fills it. -/
def redirectStdin (s : ChannelSource) : Except Fault (Graph × List Tree) := do
  match ← g.stdinEdge with
  | none => return (g, [])
  | some id =>
    let (c, _) := s.freshEphemeral
    let w ← c.toWord false
    let e ← g.edge id
    return (g.putEdge id { e with channel := c }, [.simple [Word.ofString "source",
        Word.ofString (Settings.standard.program Settings.standard.redirectInput), w]])

/-- The node that is started last: the one that writes standard output, else the first that writes
to outside. -/
def lastNode (order : SetOrder) : Except Fault (Option Int) := do
  match ← g.stdoutEdge with
  | some id => return (← g.edge id).source
  | none =>
    match order.list g.sinkNodes with
    | [] => .error .outOfRange
    | n :: _ => return some n

def body (drain : Bool) : Build (Graph × List Tree) := do
  let s ← g.channelSource
  let (g, stdin) ← Build.lift (g.redirectStdin s)
  let last ← Build.lift (g.lastNode (← get).order)
  let others ← Build.lift
    ((g.nodes.entries.filter fun n => some n.1 != last).mapM fun n => g.startNode drain n.2)
  let final ← Build.lift do g.startNode drain (← g.nodeAt last)
  return (g, initProcesses :: stdin ++ others.flatten ++ final)

def pipeWords : Except Fault (List Word) :=
  (g.channels.filter Channel.isEphemeral).mapM fun c => c.toWord false

/-- The whole script, and the graph with standard input behind a pipe. -/
def emit (termination : Termination) (logFile : Option String) : Build (Graph × List Tree) := do
  let (g, trees) ← g.body (termination == .drain)
  let pipes ← Build.lift g.pipeWords
  return (g, prologue pipes ++ trees ++ epilogue termination logFile)

end Graph

end ShellFlow
