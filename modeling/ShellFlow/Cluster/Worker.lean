import ShellFlow.Graph.Channel

/-!
# Workers

Machines that run parts of a graph.
-/

namespace ShellFlow

/-- A machine that runs parts of a graph. -/
structure Worker where
  host : String
  port : Value
  online : Bool := true
  running : Int := 0

namespace Worker

def display (w : Worker) : String := "Worker " ++ w.host ++ ":" ++ w.port.display

/-- Whether a worker can be given work on some channels. -/
def suits (cs : List (Channel Int)) (w : Worker) : Bool :=
    w.online && cs.all (·.isAvailableOn (.text w.host))

/-- The better of the best worker so far and another: the one that runs less, the earlier on a tie.
-/
def better (best : Option (Nat × Worker)) (w : Nat × Worker) : Option (Nat × Worker) :=
  match best with
  | none => some w
  | some b => if w.2.running < b.2.running then some w else some b

def bestFrom (cs : List (Channel Int)) (best : Option (Nat × Worker)) (position : Nat) :
    List Worker → Option (Nat × Worker)
  | [] => best
  | w :: ws =>
      bestFrom cs (if w.suits cs then better best (position, w) else best) (position + 1) ws

/-- The position of the worker to be given work on some channels, and the worker. -/
def choose (ws : List Worker) (cs : List (Channel Int)) : Except Fault (Nat × Worker) :=
  match bestFrom cs none 0 ws with
  | some b => .ok b
  | none => .error (.refused "no workers online where the date is stored")

/-- Adds to what the worker at a position runs. -/
def engage (ws : List Worker) (position : Nat) : List Worker :=
  ws.modify position fun w => { w with running := w.running + 1 }

/-- The workers chosen one after the other, each engaged before the next is chosen. -/
def chooseMany (ws : List Worker) (cs : List (Channel Int)) : Nat → Except Fault (List Worker)
  | 0 => .ok []
  | n + 1 => do
    let (i, w) ← choose ws cs
    return w :: (← chooseMany (engage ws i) cs n)

/-! ### Workers as documents -/

/-- A worker that is given as its host, its port, whether it is online, and how much it runs. -/
def ofValue (v : Value) : Except Fault Worker :=
  match v.items with
  | [host, port, online, running] => do
    return { host := ← host.asText, port, online := online.truthy, running := ← running.asInt }
  | _ => .error .malformed

def toValue (w : Worker) : Value := .list [.text w.display, .bool w.online, .int w.running]

end Worker

end ShellFlow
