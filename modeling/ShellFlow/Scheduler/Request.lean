import ShellFlow.Fault
import ShellFlow.Text.Number

/-!
# Requests and responses

## Design Notes

A request to compile names its files between bars, each after a colon.  Words before a colon are not
looked at, and neither is what stands behind a second colon.
-/

namespace ShellFlow

def successText (s : String) : String := "OK: " ++ s ++ "\n"

def failureText (s : String) : String := "ERROR: " ++ s ++ "\n"

/-- A request to compile a region: where the script goes, where the variables are, and where the
region is. -/
structure CompileRequest where
  script : String
  declarations : String
  region : String
  deriving DecidableEq, Repr

/-- What stands between the first colon of a text and the next. -/
def afterColon? (s : String) : Option String := (Text.splitAt ':' s)[1]?

namespace CompileRequest

def parse? (text : String) : Option CompileRequest :=
  match Text.splitAt '|' (Text.trimEnd text) with
  | a :: b :: c :: _ =>
    match afterColon? a, afterColon? b, afterColon? c with
    | some script, some declarations, some region => some { script, declarations, region }
    | _, _, _ => none
  | _ => none

def refusal (text : String) : Fault := .refused ("Parsing failure for line: " ++ text)

/-- The three files of a request to compile, or a refusal that repeats the request. -/
def parse (text : String) : Except Fault CompileRequest :=
  match parse? text with
  | some r => .ok r
  | none => .error (refusal text)

end CompileRequest

/-- What can be asked of the scheduler. -/
inductive Request where
  | compile (r : CompileRequest)
  | exit (process : Int)
  | done
  /-- A client that only looks whether there is a scheduler. -/
  | hello
  deriving DecidableEq, Repr

namespace Request

/-- Whether a text is a report that a process has ended. -/
def isExit (text : String) : Bool := text.startsWith "Exit:"

/-- The process in a report that it has ended. -/
def parseExit (text : String) : Except Fault Int :=
  match (afterColon? text).bind Text.readInt with
  | some n => .ok n
  | none => .error .malformed

def parse (text : String) : Except Fault Request :=
  if text.startsWith "Compile" then do return .compile (← CompileRequest.parse text)
  else if isExit text then do return .exit (← parseExit text)
  else if text.startsWith "Done" then .ok .done
  else if text.startsWith "Daemon Start" ∨ text = "" then .ok .hello
  else .error (.refused ("Error: Unsupported command: " ++ text))

end Request

end ShellFlow
