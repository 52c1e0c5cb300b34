import ShellFlow.Scheduler.Basic
import ShellFlow.Scheduler.Request

/-!
# The scheduler as a document

All that a scheduler knows, and what it is told.
-/

namespace ShellFlow

/-- What a process reads and writes. -/
def Claims.ofValues (inputs outputs : Value) : Except Fault Claims := do
  let read (v : Value) : Except Fault (List Claim) := do
    return Claim.union [] ((← v.asListOf Value.asText).map .resource)
  return { inputs := ← read inputs, outputs := ← read outputs }

/-- The three files of a request to compile; what is no text is refused like a text without them. -/
def CompileRequest.files : Value → Except Fault Value
  | .text s => do
    let r ← parse s
    return .texts [r.script, r.declarations, r.region]
  | v => .error (refusal v.display)

def Duration.ofValue? : Value → Option Duration
  | .int n => some (.whole n)
  | .decimal d => some (.decimal d)
  | _ => none

/-- The microseconds of a number of milliseconds, rounded. -/
def Duration.microseconds : Value → Int
  | .decimal (.finite negative digits places) =>
    Decimal.signed negative (Decimal.roundDiv (digits * 1000) (Decimal.powerOfTen places))
  | v => v.intD 0 * 1000

def Claim.sorted (cs : List Claim) : Value :=
  .texts ((cs.map Claim.display).mergeSort Text.inOrder)

def Table.byNumber {α : Type} (t : Table Int α) : List (Int × α) :=
  t.entries.mergeSort fun a b => decide (a.1 ≤ b.1)

def Scheduler.toValue (s : Scheduler) : Value :=
  .record
    [("running", .int s.running), ("unsafe", .bool s.exclusive), ("done", .bool s.done),
      ("next_id", .int s.lastId), ("in", Claim.sorted s.claimed.inputs),
      ("out", Claim.sorted s.claimed.outputs), ("procs", .ints (s.claims.byNumber.map (·.1))),
      ("map", .texts (s.processes.byNumber.map (·.2.display)))]

end ShellFlow
