import ShellFlow.Shell.OptionLetters
import ShellFlow.Stream.Exchange
import ShellFlow.Stream.RoundRobin
import ShellFlow.Text.Number

/-!
# The programs on streams

Streams are dealt out in turn, cut into consecutive parts, merged, and run through filters.
-/

namespace ShellFlow

/-- What a command line asks of the program that deals out a stream. -/
structure SplitCommand where
  input : Option String := none
  batch : Int := 0
  outputs : List String := []
  /-- Blocks have one length. -/
  byLength : Bool := false
  /-- Blocks have no headers. -/
  raw : Bool := false

namespace SplitCommand

variable (c : SplitCommand)

def hasOption : Bool := c.byLength || c.raw

/-- Takes the word at a place: the input, the batch, or the first output. -/
def take (place : Nat) (word : String) (rest : List String) : SplitCommand :=
  match place with
  | 1 => { c with input := some word }
  | 2 => { c with batch := Text.leadingInt word }
  | 3 => { c with outputs := word :: rest }
  | _ => c

/-- Reads the words from a position on.  All options together take the room of one word. -/
def readFrom (c : SplitCommand) (position : Nat) : List String → SplitCommand
  | [] => c
  | word :: rest =>
    if word = "-b" then readFrom { c with byLength := true } (position + 1) rest
    else if word = "-r" then readFrom { c with raw := true } (position + 1) rest
    else
      let place := if c.hasOption then position - 1 else position
      readFrom (c.take place word rest) (position + 1) rest

def parse (argv : List String) : Except Fault SplitCommand :=
  if argv.length < 3 then .error (.exit "1")
  else
    let c := readFrom {} 1 argv
    let outs := argv.length - 2 - (if c.hasOption then 1 else 0)
    .ok { c with outputs := c.outputs.take outs }

/-- How much the first round of a dealing by lines takes: as many octets as a machine word tells. -/
def payload : Nat := ((c.batch * c.outputs.length) % Octets.range 32).toNat

/-- How the blocks of an input are dealt out.  A dealing by lines is described as far as it stays
inside its buffers; whether it does is told by `overreaches` and `unbuffered`. -/
def dealt (data : Octets) : Except Fault (List Dealt) :=
  let outs := c.outputs.length
  if c.byLength && !c.raw then
    let length :=
      if c.batch = 0 then RoundRobin.lengthFor data.length else RoundRobin.pieceLength c.batch
    .ok (RoundRobin.byLength length outs 0 data)
  else RoundRobin.byLines c.payload (c.batch % Octets.range 64).toNat outs data

/-- Whether a dealing by lines looks behind what it has read. -/
def overreaches (c : SplitCommand) (data : Octets) : Bool :=
  !(c.byLength && !c.raw) &&
    RoundRobin.overreaches c.payload (c.batch % Octets.range 64).toNat c.outputs.length data

/-- Whether a dealing by lines has to read pieces for which it has no buffer. -/
def unbuffered (c : SplitCommand) (data : Octets) : Bool :=
  !(c.byLength && !c.raw) && c.batch != 0 && RoundRobin.pieceLength c.batch == 0 &&
    decide (c.payload < data.length)

/-- What is written of some blocks. -/
def written (blocks : List Block) : Octets :=
  blocks.flatMap fun b => if c.raw then b.body else b.encode

end SplitCommand

namespace Program

/-- Deals out a stream as a command line says.  The input must be among the given files.  Gives the
command and the blocks of every output.  A dealing that would leave its buffers fails. -/
def deal (files : List (String × Octets)) (argv : List String) :
    Except Fault (SplitCommand × List (List Block)) := do
  let _ ← argv.mapM Octets.ofWord
  let c ← SplitCommand.parse argv
  match c.input.bind (List.lookup · files) with
  | none => .error (.exit "1")
  | some data =>
    if c.overreaches data || c.unbuffered data then .error .outOfRange
    else return (c, RoundRobin.outputs c.outputs.length (← c.dealt data))

/-- Cuts a stream into consecutive parts, of which there must be one. -/
def cut (batch : String) (outs : Nat) (data : Octets) : Except Fault (List Octets) := do
  let _ ← Octets.ofWord batch
  if outs = 0 then .error (.exit "1")
  else return Consecutive.outputs (Text.leadingInt batch) outs data

/-- Merges streams, of which there must be one. -/
def merge (streams : List Octets) : Except Fault Octets :=
  if streams.isEmpty then .error (.exit "1") else .ok (mergeStreams streams)

/-- Runs the filter of a command line on a stream of blocks.  The command line must not be empty.
What a command does to the octets it is given is told by `filterOf`. -/
def wrap (filterOf : List String → Octets → Octets) (argv : List String) (stream : Octets) :
    Except Fault (List Block) := do
  let _ ← argv.mapM Octets.ofWord
  if argv.isEmpty then .error (.exit "1") else return wrapStream (filterOf argv) stream

/-- Compares the letters of shell options.  There must be two words.  Gives the text and whether
there were. -/
def optionChanges (argv : List String) : Except Fault (Bool × Octets) := do
  match ← argv.mapM Octets.ofWord with
  | [old, new] => return (true, OptionLetters.changesText old new)
  | _ => return (false, .ofText "ERROR: wrong input!\n")

end Program

end ShellFlow
