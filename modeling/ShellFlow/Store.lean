import ShellFlow.Shell.Tree
import ShellFlow.Table
import ShellFlow.Text.Blank
import ShellFlow.Text.Path
import ShellFlow.Variables.Array

/-!
# Stored files

The files that the library writes and reads, by path.  A file holds text, or trees or a graph in
stored form.
-/

namespace ShellFlow

/-- What a file holds. -/
inductive Content where
  | text (s : String)
  | script (trees : List Tree)
  | region (trees : List Tree)
  /-- A graph and the number of variables that go with it. -/
  | graph (outline : Outline) (declared : Option Nat)

instance : Inhabited Content := ⟨.text ""⟩

abbrev Files := Table String Content

/-- The files in the order of their paths. -/
def Files.listing (s : Files) : List (String × Content) :=
  s.entries.mergeSort fun a b => Text.inOrder a.1 b.1

/-- Files, and the directories that were made. -/
structure Store where
  files : Files := .empty
  made : List String := []

/-- What is found at a path; `closed` if a slash follows it. -/
inductive Place where
  | directory (path : String)
  | file (path : String) (closed : Bool)
  /-- A name in a directory that is not in use. -/
  | free (path : String) (closed : Bool)
  deriving DecidableEq, Repr

namespace Store

def standardDirectories : List String :=
  ["", "pash_tmp", "pash_top", "pash_top/compiler", "/", "/tmp", "/dev", "/etc", "/usr",
    "/usr/bin", "/bin",
    "/var", "/home", "/root", "/proc", "/sys", "/lib", "/opt"]

/-- The file that is always empty. -/
def nothing : String := "/dev/null"

variable (s : Store)

def isDirectory (path : String) : Bool :=
  standardDirectories.contains path || s.made.contains path || Path.leadsUp path

def isFile (path : String) : Bool := path == nothing || s.files.contains path

/-- How many octets a code point takes in a name. -/
def nameSize (code : Nat) : Nat :=
  if code < 0x80 || Text.isHalf code then 1 else if code < 0x800 then 2 else if code <
    0x10000 then 3 else 4

def isLong (name : String) : Bool := ((Text.codes name).map nameSize).foldl (· + ·) 0 > 255

/-- Follows the parts of a path from a directory. -/
def follow (s : Store) : String → List String → Except Fault Place
  | here, [] => .ok (.directory here)
  | here, part :: rest =>
    if part = "" ∨ part = "." then s.follow here rest
    else if part = ".." then s.follow (Path.up here) rest
    else if isLong part then .error .longName
    else
      let next := Path.below here part
      if s.isDirectory next then s.follow next rest
      else if s.isFile next then
        if rest.all (· == "") then .ok (.file next (!rest.isEmpty)) else .error .notADirectory
      else if rest.all (· == "") then .ok (.free next (!rest.isEmpty))
      else .error .noFile

/-- Whether a half cannot stand in a path; some stand for octets that are no text. -/
def isForbiddenHalf (code : Nat) : Bool := Text.isHalf code && !(0xDC80 ≤ code && code ≤ 0xDCFF)

def checkPath (path : String) : Except Fault Unit :=
  let codes := Text.codes path
  if codes.any isForbiddenHalf then .error .unwritable
  else if codes.contains 0 then .error .malformed
  else if path = "" then .error .noFile
  else .ok ()

def locate (path : String) : Except Fault Place := do
  checkPath path
  s.follow (if path.startsWith "/" then "/" else "") (Text.splitAt '/' path)

def read (path : String) : Except Fault Content := do
  match ← s.locate path with
  | .directory _ => .error .notAFile
  | .free _ _ => .error .noFile
  | .file _ true => .error .notADirectory
  | .file p false => return (s.files.get? p).getD (.text "")

/-- What stands in the place of the text of a script that was made from trees. -/
def scriptSign : String := "<script>\n"

/-- The text of a file.  Trees and graphs in stored form are no text. -/
def readText (path : String) : Except Fault String := do
  match ← s.read path with
  | .text t => return t
  | .script _ => return scriptSign
  | .region _ | .graph _ _ => .error .badText

/-- The store with a file written, which must be in a directory. -/
def write (path : String) (c : Content) : Except Fault Store := do
  match ← s.locate path with
  | .directory _ | .file _ true | .free _ true => .error .notAFile
  | .file p false | .free p false =>
    return if p = nothing then s else { s with files := s.files.insert p c }

/-- The store with a directory made, which must be new and in a directory. -/
def makeDirectory (path : String) : Except Fault Store := do
  match ← s.locate path with
  | .free p _ => return { s with made := s.made ++ [p] }
  | _ => .error .broken

/-- Follows the parts of a path from a directory and makes the directories that are missing.
`fresh` says whether the directory is new. -/
def descend (s : Store) (here : String) (fresh : Bool) : List String → Except Fault Store
  | [] => if fresh then .ok s else .error .inUse
  | part :: rest =>
    if part = "" then s.descend here fresh rest
    else if part = "." then s.descend here true rest
    else if part = ".." then s.descend (Path.up here) false rest
    else if isLong part then .error .longName
    else
      let next := Path.below here part
      if s.isDirectory next then s.descend next false rest
      else if s.isFile next then .error (if rest.all (· == "") then .inUse else .notADirectory)
      else { s with made := s.made ++ [next] }.descend next true rest

/-- The store with a directory made that must be new, and the directories above it. -/
def makePath (path : String) : Except Fault Store := do
  let _ ← checkPath path
  s.descend (if path.startsWith "/" then "/" else "") false (Text.splitAt '/' path)

def addFiles (fs : Files) : Store := { s with files := s.files.merge fs }

def addDirectories (ds : List String) : Store := { s with made := s.made ++ ds }

end Store

/-!
### The surroundings of a run

What a run changes besides its result: the counters for fresh names, the files, the scripts written,
and the messages sent.  All of it stays changed when a step of the run fails.
-/

/-- The surroundings of a run. -/
structure World where
  supply : Supply := {}
  store : Store := {}
  /-- The scripts written, in order. -/
  scripts : List (List Tree) := []
  /-- The messages sent, in order. -/
  messages : List String := []
  /-- Where programs run. -/
  host : Host := {}

/-- Computations that change a world and may fail. -/
abbrev Run (α : Type) := ExceptT Fault (StateM World) α

namespace Run

def outcome {α : Type} (x : Run α) (w : World) : Except Fault α × World :=
  Id.run (StateT.run (ExceptT.run x) w)

/-- A computation that changes nothing. -/
def lift {α : Type} (x : Except Fault α) : Run α :=
  match x with
  | .ok a => pure a
  | .error e => throw e

/-- A computation that only draws fresh names. -/
def build {α : Type} (x : Build α) : Run α := do
  let w ← get
  let (r, supply) := x.outcome w.supply
  set { w with supply }
  lift r

/-- Writes a file.  A text that cannot be written leaves the file empty. -/
def writeFile (path : String) (c : Content) : Run Unit := do
  let w ← get
  match c with
  | .text s =>
    match Text.octets s with
    | .ok _ => set { w with store := ← lift (w.store.write path c) }
    | .error e =>
      set { w with store := ← lift (w.store.write path (.text "")) }
      throw e
  | c => set { w with store := ← lift (w.store.write path c) }

def readText (path : String) : Run String := do lift ((← get).store.readText path)

def addScript (trees : List Tree) : Run Unit :=
  modify fun w => { w with scripts := w.scripts ++ [trees] }

/-- The result of a computation, or nothing if it fails.  A request to end the program is no
failure. -/
def attempt {α : Type} (x : Run α) : Run (Option α) := do
  let (r, w) := x.outcome (← get)
  set w
  match r with
  | .ok a => return some a
  | .error (.exit code) => throw (.exit code)
  | .error _ => return none

end Run

end ShellFlow
