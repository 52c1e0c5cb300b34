import ShellFlow.Fault
import ShellFlow.Text.Blank

/-!
# Reading commands from a pipe

Commands come as lines.  A pipe is opened for a session and read to its end, and what is behind the
first line is kept for the next command.
-/

namespace ShellFlow

/-- What has been read and not yet been handed out. -/
structure PipeReader where
  kept : String := ""

namespace PipeReader

/-- What the reads of a session bring together, each with unified line ends.  A read that brings
nothing is the last one. -/
def gather : List String → String
  | [] => ""
  | text :: reads => if text.isEmpty then "" else Text.unifyLines text ++ gather reads

def cutLine (cs : List Char) : List Char × List Char :=
  (cs.takeWhile (· != '\n'), (cs.dropWhile (· != '\n')).drop 1)

/-- The next command, without the blanks at its end.  The pipe is read only if nothing is kept. -/
def next (r : PipeReader) (pipe : Except Fault String) : Except Fault (String × PipeReader) := do
  let text ← if r.kept.isEmpty then pipe else pure r.kept
  let (line, rest) := cutLine text.toList
  return (Text.trimEnd (String.ofList line), { kept := String.ofList rest })

/-- A command that was handed out, and whether a session was opened for it. -/
structure Delivery where
  command : String
  opened : Bool
  deriving DecidableEq

/-- The next command among sessions that are to come, each with its reads, and what is left of all.
Without a session to open the call does not return. -/
def deliver (r : PipeReader) (sessions : List (List String)) :
    Except Fault (Delivery × PipeReader × List (List String)) := do
  let opened := r.kept.isEmpty
  let (command, reader) ← r.next (sessions.head?.elim (.error .exhausted) fun reads =>
    .ok (gather reads))
  return (⟨command, opened⟩, reader, if opened then sessions.tail else sessions)

/-- Several commands, one after the other. -/
def deliveries : Nat → PipeReader → List (List String) →
    Except Fault (List Delivery × PipeReader × List (List String))
  | 0, r, sessions => .ok ([], r, sessions)
  | n + 1, r, sessions => do
    let (d, r, sessions) ← r.deliver sessions
    let (ds, r, sessions) ← deliveries n r sessions
    return (d :: ds, r, sessions)

end PipeReader

end ShellFlow
