import ShellFlow.Stream.Octets
import ShellFlow.Value.Sequence

/-!
# Connections of clients

Clients connect and send a command.  The server accepts them in turn and answers the one that it
accepted last.
-/

namespace ShellFlow

/-- Clients by number. -/
structure Connections where
  /-- What the clients have sent that wait to be accepted. -/
  waiting : List (Nat × Octets) := []
  /-- The clients whose connections are open, the last accepted first. -/
  opened : List Nat := []
  received : Table Nat String := .empty
  clients : Nat := 0

namespace Connections

/-- How many octets are read of a command. -/
def commandSize : Nat := 8192

variable (c : Connections)

def send (data : Octets) : Connections :=
  { c with waiting := c.waiting ++ [(c.clients, data)], clients := c.clients + 1 }

/-- The text of a command: nothing, or something that ends a line. -/
def commandText (data : Octets) : Except Fault String :=
  match Octets.toText? (data.take commandSize) with
  | none => .error .badText
  | some s => if s.isEmpty || s.endsWith "\n" then .ok s else .error .broken

/-- Accepts the next client and reads its command. -/
def accept : Except Fault (String × Connections) := do
  match c.waiting with
  | [] => .error .exhausted
  | (client, data) :: waiting =>
    return (← commandText data, { c with waiting, opened := client :: c.opened })

/-- Answers the client accepted last and closes its connection. -/
def respond (answer : String) : Except Fault Connections := do
  let _ ← Text.octets answer
  match c.opened with
  | [] => .error .outOfRange
  | client :: opened => return { c with opened, received := c.received.insert client answer }

def closeLast : Except Fault Connections :=
  match c.opened with
  | [] => .error .outOfRange
  | _ :: opened => .ok { c with opened }

/-- Gives a client what there is for it; clients below zero count from the last one. -/
def receive (client : Int) : Except Fault (String × Connections) := do
  let client ← Value.position c.clients client
  return ((c.received.get? client).getD "", { c with received := c.received.erase client })

end Connections

/-- What a client sends that expects no answer, and whether it could be sent and there was none. -/
def notify (message answer : String) : String × Except Fault Unit :=
  match Text.octets message with
  | .ok _ => (message ++ "\n", if answer.isEmpty then .ok () else .error .broken)
  | .error e => ("", .error e)

end ShellFlow
