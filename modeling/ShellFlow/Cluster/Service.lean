import ShellFlow.Cluster.Message
import ShellFlow.Cluster.Worker
import ShellFlow.CommandLine.Options
import ShellFlow.Document
import ShellFlow.Graph.Document
import ShellFlow.Graph.Partition
import ShellFlow.Store

/-!
# A manager and its workers

Requests name a stored graph.  It is cut into pieces, every piece gets a worker, and what is left is
a script for the machine that asked.

## Design Notes

Data that leaves a piece or enters it from a file has to move between machines.  There is no node
that moves it, so only graphs without such data can be assigned.
-/

namespace ShellFlow

/-- The state of the manager of a cluster. -/
structure Manager where
  options : Options := {}
  world : World := {}
  workers : List Worker := []
  graphs : Table String Graph := .empty
  /-- The requests that are still to come. -/
  queue : List String := []
  answers : List String := []
  closed : Bool := false

/-- Computations on a manager.  What they have changed stays changed when they fail. -/
abbrev Manage (α : Type) := ExceptT Fault (StateM Manager) α

/-- A node that moves data between machines.  There is none. -/
def remotePipe : Except Fault Node := .error .wrongKind

namespace Manage

def outcome {α : Type} (x : Manage α) (m : Manager) : Except Fault α × Manager :=
  Id.run (StateT.run (ExceptT.run x) m)

/-- A computation that changes nothing. -/
def lift {α : Type} (x : Except Fault α) : Manage α :=
  match x with
  | .ok a => pure a
  | .error e => throw e

def world {α : Type} (x : Run α) : Manage α := do
  let m ← get
  let (r, w) := x.outcome m.world
  set { m with world := w }
  lift r

/-- Gives a piece of a graph a worker.  The piece must have one last node.  What that node writes
has to be moved. -/
def assignPiece (piece : Graph) : Manage (Worker × Graph) := do
  let m ← get
  let (i, w) ← lift (Worker.choose m.workers (piece.channels.filter (·.isRemote)))
  set { m with workers := Worker.engage m.workers i }
  match piece.sinkNodes with
  | [sink] =>
    for _ in ← lift (piece.outputEdges sink) do
      let _ ← lift remotePipe
    return (w, piece)
  | _ => throw .broken

/-- Moves what a piece reads from files and descriptors. -/
def moveInputs (piece : Graph) : Manage Unit := do
  for node in piece.sourceNodes do
    for (_, e) in ← lift (piece.inputEdges node) do
      if e.channel.isFile || e.channel.isDescriptor then
        let _ ← lift remotePipe

/-- Gives every piece of a graph a worker.  Also gives the graph for the machine that asked. -/
def assign (g : Graph) : Manage (Graph × List (Worker × Graph)) := do
  let _ ← world (Run.build g.channelSource)
  let p ← world (Run.build g.partition)
  let pairs ← p.pieces.mapM fun piece => assignPiece piece.2
  for piece in p.pieces do
    moveInputs piece.2
  return ({}, pairs)

def field (v : Value) (name : String) : Except Fault Value :=
  match v with
  | .record fs =>
    match fs.lookup name with
    | some x => .ok x
    | none => .error (.missing name)
  | _ => .error .wrongKind

/-- Adds a worker of a cluster.  It is online unless its port refuses. -/
def addWorker (refused : List Value) (v : Value) : Manage Unit := do
  let host ← lift (field v "host")
  let port ← lift (field v "port")
  let worker : Worker := { host := host.display, port, online := !refused.any port.same }
  modify fun m => { m with workers := m.workers ++ [worker] }

def addWorkers (refused : List Value) (cluster : Value) : Manage Unit := do
  match ← lift (field cluster "workers") with
  | .record fs =>
    for f in fs do
      addWorker refused f.2
  | _ => throw .lacking

def readGraph (file : String) : Manage Graph := do
  let m ← get
  let stored := match m.world.store.locate file with
    | .ok (.file path false) | .ok (.free path false) => m.graphs.get? path
    | _ => none
  match stored with
  | some g => return g
  | none =>
    let _ ← lift (m.world.store.read file)
    throw .malformed

def requestFiles (request : String) : Except Fault (String × String) :=
  match Text.splitAt ':' request with
  | _ :: first :: more =>
    match Text.words (":".intercalate (first :: more)) with
    | [graph, functions] => .ok (graph, functions)
    | _ => .error .malformed
  | _ => .error .outOfRange

/-- Runs the graph that a request names, and answers with the script for the machine that asked. -/
def runGraph (request : String) : Manage Unit := do
  let (graphFile, functionsFile) ← lift (requestFiles request)
  let (main, _) ← assign (← readGraph graphFile)
  let buffers := !(← get).options.noBuffers
  let (file, _, trees) ← world (Run.build (main.emitToFile buffers .wait (some "")))
  world do
    Run.writeFile file (.script trees)
    Run.addScript trees
    let _ ← Run.readText functionsFile
  modify fun m => { m with answers := m.answers ++ ["OK " ++ file] }

def serve (request : String) : Manage Unit := do
  if request.startsWith "Done" then modify fun m => { m with closed := true }
  else if request.startsWith "Exec-Graph" then runGraph request
  else throw (.refused ("Unknown request: " ++ request))

/-- Serves requests until one closes the manager. -/
def serveAll : List String → Manage Unit
  | [] => throw .exhausted
  | request :: queue => do
    modify fun m => { m with queue }
    serve request
    if (← get).closed then return () else serveAll queue

/-- Connects to the workers of a cluster and serves requests. -/
def run (refused : List Value) (cluster : Value) : Manage Unit := do
  addWorkers refused cluster
  serveAll (← get).queue

end Manage

/-! ### The service of a worker -/

/-- What a worker is asked: to run a graph, with the functions that it calls.  No variables go with
it. -/
structure GraphRequest where
  graph : Value
  functions : Value

namespace GraphRequest

def fields (r : GraphRequest) : List (String × Value) :=
  [("type", .text "Exec-Graph"), ("graph", r.graph), ("functions", r.functions), ("vars", .null)]

/-- A request on its way. -/
def message (r : GraphRequest) : Octets :=
    Message.encode (.ofText (Document.print (.record r.fields)))

end GraphRequest

/-- The answer of a worker that accepts a request. -/
def acceptance : Value := .record [("status", .text "OK"), ("body", .record []), ("msg", .text "")]

def checkAnswer : Option Value → Except Fault Unit
  | none => .error (.refused "no answer")
  | some v => do
    let status ← Manage.field v "status"
    if status == .text "OK" then return () else .error (.refused "not accepted")

def freshName (directory stem : String) : Build String := do
  return Path.join directory (stem ++ "_" ++ Supply.dashed (← Build.freshUnique))

/-- The state of a worker. -/
structure Service where
  options : Options := {}
  world : World := {}
  /-- The layouts written, by what they say. -/
  layouts : Table String String := .empty
  commands : List String := []
  answers : Nat := 0

namespace Service

/-- Writes the layouts of the distributed files of a graph, each to a file of its own. -/
def storeLayouts (g : Graph) (layouts : Table String String) :
    Run (Graph × Table String String) := do
  let (g, all) ← Run.build (g.saveLayouts layouts)
  for (layout, path) in all.entries do
    if !layouts.contains layout then Run.writeFile path (.text layout)
  return (g, all)

/-- Writes the script of a graph and the functions that it uses, and gives the command that runs
both. -/
def runGraph (o : Options) (g : Graph) (functions : Value) : Run String := do
  let (file, _, trees) ← Run.build (g.emitToFile (!o.noBuffers) .wait (some ""))
  Run.writeFile file (.script trees)
  Run.addScript trees
  let functionsFile ← Run.build (freshName Settings.standard.scratch "pashFuncs")
  Run.writeFile functionsFile (.text "")
  Run.writeFile functionsFile (.text (← Run.lift functions.asText))
  return "source " ++ functionsFile ++ "; source " ++ file

/-- What a request asks of a worker: to run a graph with some functions, or nothing that is known.
-/
def readRequest (request : Value) : Build (Option (Graph × Value)) := do
  let kind ← Build.lift (Manage.field request "type")
  if kind == .text "Exec-Graph" then
    let graph ← Build.lift (Manage.field request "graph")
    let functions ← Build.lift (Manage.field request "functions")
    return some (← Graph.ofValue graph, functions)
  else return none

/-- Handles one request.  A request that is not known is answered like the one before it, so there
must have been one. -/
def handle (s : Service) (request : Value) : Except Fault Unit × Service :=
  let (r, world) := (go s).outcome s.world
  let s := { s with world }
  match r with
  | .ok (some (layouts, command)) =>
    (.ok (), { s with layouts, commands := s.commands ++ [command], answers := s.answers + 1 })
  | .ok none =>
    if s.commands.isEmpty then (.error .unset, s) else (.ok (), { s with answers := s.answers + 1 })
  | .error e => (.error e, s)
where
  /-- The layouts and the command of a request to run a graph. -/
  go (s : Service) : Run (Option (Table String String × String)) := do
    match ← Run.build (readRequest request) with
    | none => return none
    | some (g, functions) =>
      let (g, layouts) ← storeLayouts g s.layouts
      return some (layouts, ← runGraph s.options g functions)

/-- Handles requests until one fails. -/
def handleAll (s : Service) : List Value → Except Fault Unit × Service
  | [] => (.ok (), s)
  | request :: rest =>
    match s.handle request with
    | (.ok (), s) => s.handleAll rest
    | (.error e, s) => (.error e, s)

end Service

end ShellFlow
