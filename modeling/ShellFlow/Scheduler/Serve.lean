import ShellFlow.Compile.Stored
import ShellFlow.Graph.Drawing
import ShellFlow.Scheduler.Basic
import ShellFlow.Scheduler.Request

/-!
# Serving requests

Requests come one after the other, each over a connection of its own.  While the scheduler waits for
processes to end, it takes further requests, which must be reports of such ends.

## Design Notes

Connections form a stack.  A response goes to the connection on top, which it closes.  A report that
a process has ended is answered by closing its connection, so that the connection of the request
that waits is on top again.
-/

namespace ShellFlow

/-- The measured times of some processes, by width.  A process that was measured must have a width.
-/
def timesByWidth : Table Int (List Duration) → List Job → Except Fault (Table Int (List Duration))
  | t, [] => .ok t
  | t, p :: ps =>
    match p.time, p.width with
    | some d, some w => timesByWidth (t.insert w ((t.get? w).getD [] ++ [d])) ps
    | some _, none => .error .wrongKind
    | none, _ => timesByWidth t ps

def mean (ds : List Duration) : Decimal := (ds.foldl Duration.add (.whole 0)).divide ds.length

def smallestWidth : List Int → Option Int
  | [] => none
  | w :: ws => some (ws.foldl min w)

/-- The first entry with a smaller time than `best`, and than all before it. -/
def bestWidth (best : Int × Decimal) (entries : List (Int × Decimal)) : Int × Decimal :=
  entries.foldl (fun best e => if e.2.less best.2 then e else best) best

/-- The next width to try, from the mean times of those tried. -/
def nextWidth (averages : Table Int Decimal) (initial : Option Int) : Option Int :=
  match smallestWidth averages.keys with
  | none => initial
  | some least =>
    let best := (bestWidth (least, (averages.get? least).getD default) averages.entries).1
    some (if best = least ∧ least > 1 then least / 2 else best)

namespace Scheduler

/-- The mean time of a region for each width. -/
def averages (s : Scheduler) (region : String) : Except Fault (Table Int Decimal) := do
  let ids := (s.byRegion.get? region).getD []
  let times ← timesByWidth .empty (ids.filterMap s.processes.get?)
  return ⟨times.entries.map fun (w, ds) => (w, mean ds)⟩

/-- The width for the next run of a region. -/
def chooseWidth (s : Scheduler) (o : Options) (region : String) : Except Fault (Option Int) := do
  if o.profileDriven then return nextWidth (← s.averages region) o.width else return o.width

end Scheduler

/-! ### Connections -/

/-- What happens on a connection. -/
inductive Event where
  | responded (connection : Nat) (text : String)
  | closed (connection : Nat)
  deriving DecidableEq, Repr

structure Server where
  options : Options := {}
  scheduler : Scheduler := {}
  /-- The requests to come. -/
  queue : List String := []
  /-- The open connections, the last one first. -/
  connections : List Nat := []
  accepted : Nat := 0
  events : List Event := []
  /-- The time, in microseconds. -/
  clock : Int := 0
  world : World := {}

/-- Computations that change a server and may fail. -/
abbrev Serve (α : Type) := ExceptT Fault (StateM Server) α

namespace Serve

def outcome {α : Type} (x : Serve α) (s : Server) : Except Fault α × Server :=
  Id.run (StateT.run (ExceptT.run x) s)

/-- A computation that changes nothing. -/
def lift {α : Type} (x : Except Fault α) : Serve α :=
  match x with
  | .ok a => pure a
  | .error e => throw e

def inWorld {α : Type} (x : Run α) : Serve α := do
  let s ← get
  let (r, world) := x.outcome s.world
  set { s with world }
  lift r

def change (f : Scheduler → Except Fault Scheduler) : Serve Unit := do
  let s ← get
  set { s with scheduler := ← lift (f s.scheduler) }

def scheduler : Serve Scheduler := do return (← get).scheduler

def accept : Serve Unit :=
  modify fun s => { s with connections := s.accepted :: s.connections, accepted := s.accepted + 1 }

/-- Closes the last connection; `event` tells what happened on it. -/
def closeWith (event : Nat → Event) : Serve Unit := do
  let s ← get
  match s.connections with
  | [] => throw .outOfRange
  | c :: rest => set { s with connections := rest, events := s.events ++ [event c] }

/-- Answers on the last connection and closes it. -/
def respond (text : String) : Serve Unit := closeWith (.responded · text)

def close : Serve Unit := closeWith .closed

end Serve

open Serve

/-- Notes that a process has ended. -/
def handleExit (text : String) : Serve Unit := do
  let id ← lift (Request.parseExit text)
  let s ← get
  let p ← lift (s.scheduler.process id)
  match p.started with
  | none => throw .wrongKind
  | some start =>
    change fun c => do
      return (← c.recordTime id (some (.ofMicroseconds (s.clock - start)))).remove id
    close

/-- Takes reports from the front of the queue until no process runs. -/
def waitOn : List String → Serve Unit
  | [] => do
    if (← scheduler).running > 0 then throw .exhausted
    change fun c => .ok { c with exclusive := false }
  | text :: rest => do
    if (← scheduler).running > 0 then
      modify fun s => { s with queue := rest }
      accept
      if Request.isExit text then handleExit text
      else throw (.refused ("Command should be exit but it was " ++ text))
      waitOn rest
    else change fun c => .ok { c with exclusive := false }

/-- Takes reports until no process runs. -/
def waitForAll : Serve Unit := do waitOn (← get).queue

/-- Waits for the process that must run alone, if there is one. -/
def waitExclusive : Serve Unit := do
  let c ← scheduler
  if c.exclusive then
    lift (require (c.running == 1))
    waitForAll

/-- Claims what a graph reads and writes, if it can run beside those that run.  Says whether it can.
-/
def claimGraph (id : Int) (g : Graph) : Serve Bool := do
  let claims ← lift (Claims.ofGraph g)
  change fun c => .ok (c.setClaims id claims)
  let safe ← lift ((← scheduler).safe id)
  if safe then change fun c => .ok (c.claim claims)
  return safe

/-- Numbers a process and compiles its region.  Gives the number, and the graph unless that has
failed. -/
def prepare (r : CompileRequest) : Serve (Int × Option Graph) := do
  let (id, c) := (← scheduler).nextId
  change fun _ => .ok c
  let declared ← inWorld (readVariables r.declarations)
  let o := (← get).options
  let width ← lift ((← scheduler).chooseWidth o r.region)
  change fun c => c.addProcess id r.region width
  let graph ← inWorld
    (Run.attempt (compileStored o width r.region r.script (some declared.size)))
  return (id, graph)

/-- Waits until a process can run.  One that cannot run beside the others, or whose region was not
compiled, waits until they have ended. -/
def makeRoom (id : Int) (graph : Option Graph) : Serve Unit := do
  waitExclusive
  match graph with
  | some g =>
    let o := (← get).options
    let _ ← lift (DrawingPlan.render { format := o.drawing, parent := o.drawingDir } g)
    let together ← claimGraph id g
    if !together then waitForAll
  | none => waitForAll

/-- Counts a process that starts now. -/
def launch (id : Int) (compiled : Bool) : Serve Unit := do
  let s ← get
  change fun c => do
    let c := if compiled then c else { c with exclusive := true }
    let c := if compiled || !s.options.assertSuccess then { c with running := c.running + 1 } else c
    c.recordStart id s.clock

/-- Compiles the region of a request, and gives the response when the process can run. -/
def compileRequest (r : CompileRequest) : Serve String := do
  let (id, graph) ← prepare r
  makeRoom id graph
  launch id graph.isSome
  if graph.isSome then
    return successText
      (toString id ++ " " ++ r.script ++ " " ++ r.declarations ++ " " ++ r.region)
  else return failureText (toString id ++ " failed to compile")

/-- Serves one request, which came over the last connection. -/
def handle (text : String) : Serve Unit := do
  match ← lift (Request.parse text) with
  | .compile r => respond (← compileRequest r)
  | .exit _ => handleExit text
  | .done =>
    waitForAll
    respond "All finished"
    change fun c => .ok { c with done := true }
  | .hello => close

def serve (text : String) : Serve Unit := do
  accept
  handle text

/-- Serves requests from the queue until the last one, at most so many. -/
def serveFor : Nat → Serve Unit
  | 0 => return
  | n + 1 => do
    if (← scheduler).done then return
    match (← get).queue with
    | [] => throw .exhausted
    | text :: rest =>
      modify fun s => { s with queue := rest }
      serve text
      serveFor n

def serveAll : Serve Unit := do serveFor ((← get).queue.length + 1)

end ShellFlow
