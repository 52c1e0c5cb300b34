import ShellFlow.Document
import ShellFlow.Graph.Basic

/-!
# The scheduler

Processes run side by side as long as they do not disturb each other.  Each process is known by its
number; what it reads and writes is known by the resources at the ends of its graph.

## Design Notes

A pipe is claimed as such, and two pipes are the same only if they have the same name.  A set of
claims is a list without repetitions.
-/

namespace ShellFlow

/-- Something that a process reads or writes: a resource, or a pipe. -/
inductive Claim where
  | resource (text : String)
  | pipe (name : String)
  deriving DecidableEq, Repr, Inhabited

namespace Claim

def display : Claim → String
  | resource text => text
  | pipe name => name

def ofChannel (c : Channel Int) : Except Fault Claim := do
  let text ← c.resourceText
  if text = "None" then return .pipe (← c.display) else return .resource text

/-- Adds to some claims those that are missing. -/
def union (a b : List Claim) : List Claim :=
  b.foldl (fun acc c => if acc.contains c then acc else acc ++ [c]) a

/-- Whether two sets of claims have one in common. -/
def meets (a b : List Claim) : Bool := a.any b.contains

end Claim

/-- How long a process ran, in milliseconds. -/
inductive Duration where
  | whole (ms : Int)
  | decimal (ms : Decimal)
  deriving DecidableEq, Repr, Inhabited

namespace Duration

def display : Duration → String
  | whole ms => toString ms
  | decimal ms => ms.text

def toDecimal : Duration → Decimal
  | whole ms => .ofQuotient (decide (ms < 0)) ms.natAbs 1
  | decimal ms => ms

def add : Duration → Duration → Duration
  | whole a, whole b => whole (a + b)
  | a, b => decimal (a.toDecimal.add b.toDecimal)

def divide (d : Duration) (parts : Nat) : Decimal :=
  match d with
  | whole ms => .ofQuotient (decide (ms < 0)) ms.natAbs parts
  | decimal ms => ms.divide parts

def ofMicroseconds (n : Int) : Duration := .decimal (.ofQuotient (decide (n < 0)) n.natAbs 1000)

end Duration

/-- A process: the file of its region, the width it was compiled for, if one was set, how long it
ran, and when it started, in microseconds. -/
structure Job where
  region : String
  width : Option Int
  time : Option Duration := none
  started : Option Int := none
  deriving Repr

namespace Job

def configText (width : Value) : String := "CompilerConfig(Width:" ++ width.display ++ ")"

def display (p : Job) : String :=
  "ProcIdInfo(InputIR:" ++ p.region ++ ", CompConfig:" ++ configText (.ofSetting .int p.width) ++
    ", ExecTime:" ++
    (p.time.map Duration.display).getD "None" ++ ")"

end Job

/-- What a process reads and writes. -/
structure Claims where
  inputs : List Claim
  outputs : List Claim
  deriving DecidableEq, Repr

namespace Claims

def ofGraph (g : Graph) : Except Fault Claims := do
  let inputs ← g.inputChannels.mapM Claim.ofChannel
  let outputs ← g.outputChannels.mapM Claim.ofChannel
  return { inputs := Claim.union [] inputs, outputs := Claim.union [] outputs }

def all (cs : List Claims) : Claims where
  inputs := cs.foldl (fun acc c => Claim.union acc c.inputs) []
  outputs := cs.foldl (fun acc c => Claim.union acc c.outputs) []

/-- The claims of two processes together. -/
def add (a b : Claims) : Claims where
  inputs := Claim.union a.inputs b.inputs
  outputs := Claim.union a.outputs b.outputs

/-- Whether `b` can run beside `a`: nobody writes what the other reads or writes. -/
def compatible (a b : Claims) : Bool :=
  !(Claim.meets a.outputs (b.inputs ++ b.outputs) || Claim.meets a.inputs b.outputs)

end Claims

/-- All that is known about the processes. -/
structure Scheduler where
  /-- What the running processes read and write together. -/
  claimed : Claims := ⟨[], []⟩
  /-- What each process reads and writes. -/
  claims : Table Int Claims := .empty
  lastId : Int := 0
  /-- How many processes run. -/
  running : Int := 0
  /-- Whether a process runs of which nothing is known. -/
  exclusive : Bool := false
  /-- Whether the last request was served. -/
  done : Bool := false
  processes : Table Int Job := .empty
  /-- The processes of each region, in order. -/
  byRegion : Table String (List Int) := .empty

namespace Scheduler

variable (s : Scheduler)

def nextId : Int × Scheduler := (s.lastId + 1, { s with lastId := s.lastId + 1 })

/-- Whether a process can run beside those that run. -/
def safe (id : Int) : Except Fault Bool :=
  match s.claims.get? id with
  | some c => .ok (s.claimed.compatible c)
  | none => .error (.missing (toString id))

/-- Records what a process reads and writes. -/
def setClaims (id : Int) (c : Claims) : Scheduler :=
  { s with claims := s.claims.insert id c }

/-- Adds to what the running processes read and write. -/
def claim (c : Claims) : Scheduler := { s with claimed := s.claimed.add c }

/-- Forgets a process that has ended. -/
def remove (id : Int) : Scheduler :=
  let s :=
    if s.claims.contains id then
      let claims := s.claims.erase id
      { s with claims, claimed := .all claims.values }
    else s
  let running := s.running - 1
  { s with running, exclusive := s.exclusive && running != 0 }

/-- Adds a process, whose number must be new. -/
def addProcess (id : Int) (region : String) (width : Option Int) :
    Except Fault Scheduler := do
  require (!s.processes.contains id)
  let ids := (s.byRegion.get? region).getD []
  let processes := s.processes.insert id { region, width }
  return { s with processes, byRegion := s.byRegion.insert region (ids ++ [id]) }

def process (id : Int) : Except Fault Job :=
  match s.processes.get? id with
  | some p => .ok p
  | none => .error (.missing (toString id))

/-- Records how long a process ran, unless nothing was measured.  No process is measured twice. -/
def recordTime (id : Int) (time : Option Duration) : Except Fault Scheduler := do
  let p ← s.process id
  require p.time.isNone
  match time with
  | none => return s
  | some t => return { s with processes := s.processes.insert id { p with time := some t } }

def recordStart (id : Int) (clock : Int) : Except Fault Scheduler := do
  let p ← s.process id
  return { s with processes := s.processes.insert id { p with started := some clock } }

end Scheduler

end ShellFlow
