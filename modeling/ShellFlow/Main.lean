import ShellFlow.Document
import ShellFlow.Graph.Document
import ShellFlow.Program.Compile
import ShellFlow.Program.Launch
import ShellFlow.Program.Stream
import ShellFlow.Store.Document
import ShellFlow.Text.CharacterName

/-!
# The command line

The first word names a program, and the others are its command line.  The files that a command line
names are loaded, the program runs on them, and the files that it has made are written.
-/

namespace ShellFlow.Console

/-- Why a program failed, for the reader. -/
def faultText : Fault → String
  | .missing key => "missing: " ++ key
  | .refused message => message
  | .outOfRange => "out of range"
  | .malformed => "malformed"
  | .tooLarge => "too large"
  | .noRoom => "no room"
  | .wrongKind => "wrong kind of value"
  | .lacking => "a part is lacking"
  | .unsupported => "not supported"
  | .noFile => "no such file"
  | .notAFile => "not a file"
  | .notADirectory => "not a directory"
  | .inUse => "already in use"
  | .tooDeep => "too deep"
  | .longName => "a name is too long"
  | .badDocument => "not a document"
  | .badText => "not a text"
  | .unwritable => "cannot be written"
  | .unknownName => "unknown name"
  | .exhausted => "the input has ended"
  | .exit code => "ended with " ++ code
  | .broken | .unset | .stuck => "a requirement does not hold"

def faultStatus : Fault → UInt32
  | .exit code => UInt32.ofNat (code.toNat?.getD 1)
  | _ => 1

def nodeClassText : NodeClass → String
  | .plain => "command"
  | .roundSplit => "round-split"
  | .merge => "merge"
  | .unwrap => "unwrap"
  | .wrap => "wrap"
  | .split => "split"
  | .eager => "buffer"
  | .tee => "tee"

def contentText : Content → Except Fault String
  | .text s => .ok s
  | .script trees => scriptText trees
  | c => do return Document.print (← (c.toValue (Outline.toValue nodeClassText)).compact)

def load (words : List String) : IO Files := do
  let mut files : Files := .empty
  for word in words do
    try
      files := files.insert (Path.normal word) (.text (← IO.FS.readFile word))
    catch _ => pure ()
  return files

/-- Writes files that are not among those before. -/
def save (before after : Files) : IO Unit := do
  for (path, content) in after.entries do
    if !before.contains path then
      IO.FS.createDirAll (Path.parent path)
      match contentText content with
      | .ok text => IO.FS.writeFile path text
      | .error e => IO.eprintln (faultText e)

/-- Ends a program that has worked or failed. -/
def finish {α : Type} (r : Except Fault α) (report : α → IO Unit) : IO UInt32 := do
  match r with
  | .ok a => report a; return 0
  | .error e => IO.eprintln (faultText e); return faultStatus e

def runOnFiles {α : Type} (argv : List String) (program : Run α) (report : α → IO Unit) :
    IO UInt32 := do
  let files ← load argv
  let (r, w) := program.outcome { store := { files }, host := { codeNamed? := Text.codeNamed? } }
  save files w.store.files
  finish r report

def readOctets (path : String) : IO Octets := do return (← IO.FS.readBinFile path).toList

def putOctets (xs : Octets) : IO Unit := do (← IO.getStdout).write ⟨xs.toArray⟩

def writeOctets (path : String) (xs : Octets) : IO Unit := IO.FS.writeBinFile path ⟨xs.toArray⟩

def deal (argv : List String) : IO UInt32 := do
  match SplitCommand.parse argv with
  | .error e => finish (.error e : Except Fault Unit) pure
  | .ok c =>
    let input := c.input.getD ""
    let data ← readOctets input
    finish (Program.deal [(input, data)] argv) fun (c, outputs) => do
      for (name, blocks) in c.outputs.zip outputs do
        writeOctets name (c.written blocks)

/-- Cuts a stream into consecutive parts. -/
def cut : List String → IO UInt32
  | input :: batch :: names => do
    finish (Program.cut batch names.length (← readOctets input)) fun parts => do
      for (name, part) in names.zip parts do
        writeOctets name part
  | _ => finish (.error (.exit "1") : Except Fault Unit) pure

/-- Compares the letters of shell options. -/
def optionChanges (argv : List String) : IO UInt32 := do
  match Program.optionChanges argv with
  | .ok (known, text) =>
    putOctets text
    return if known then 0 else 1
  | .error e => finish (.error e : Except Fault Unit) pure

end ShellFlow.Console

open ShellFlow ShellFlow.Console in
/-- Runs the program that the first word names. -/
def main (args : List String) : IO UInt32 := do
  match args with
  | "launch" :: argv =>
    runOnFiles argv (Program.launch argv) fun start =>
      IO.println (" ".intercalate ((start.map ShellStart.words).getD []))
  | "compile" :: argv => runOnFiles argv (Program.compile argv) pure
  | "preprocess" :: argv => runOnFiles argv (Program.preprocess argv) pure
  | "deal" :: argv => deal argv
  | "merge" :: names => do finish (Program.merge (← names.mapM readOctets)) putOctets
  | "unwrap" :: names => do
    for name in names do
      putOctets (unwrap (← readOctets name))
    return 0
  | "cut" :: argv => cut argv
  | "option-changes" :: argv => optionChanges argv
  | _ =>
    IO.eprintln "programs: launch compile preprocess deal merge unwrap cut option-changes"
    return 2
