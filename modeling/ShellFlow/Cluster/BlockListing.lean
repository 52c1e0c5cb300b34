import ShellFlow.Document
import ShellFlow.Graph.Channel

/-!
# Listings of the blocks of a distributed file

A listing has a line with the name and the size of the file.  After it, a line for every block has
the number of the block, its pool and its name, and the machines that keep it.
-/

namespace ShellFlow

/-- A block of a distributed file. -/
structure ListedBlock where
  name : String
  pool : String
  machines : List String

namespace ListedBlock

/-- The path of a block below the directory of the machine. -/
def path (b : ListedBlock) : String :=
  [b.pool, "current", "finalized", "subdir0", "subdir0", b.name].foldl Path.join "current"

def hosts (b : ListedBlock) : List String := b.machines.map hostOf

end ListedBlock

/-- What a listing says about a file. -/
structure BlockListing where
  size : Int
  blocks : List ListedBlock

/-- The text before the address of a machine. -/
def machineMark : List Char := "DatanodeInfoWithStorage".toList

/-- The addresses in a list of machines: in every part between blanks, what follows the mark and a
bracket, up to a comma. -/
def machineAddresses (text : List Char) : List String :=
  (Text.splitList ' ' text).map fun part =>
    String.ofList (Text.slice part (Text.find machineMark part + machineMark.length + 1)
      (Text.find [','] part))

def isListingBlank (c : Char) : Bool := c = ' ' || (9 ≤ c.toNat && c.toNat ≤ 13)

def listingWords (line : List Char) : List (List Char) :=
  (line.splitOnP isListingBlank).filter (!·.isEmpty)

def plainNumber (word : List Char) : Except Fault Int :=
  if word.all (·.toNat < 128) && (word.filter Char.isDigit).length ≤ Text.digitLimit then
    match Text.readSigned word with
    | some n => .ok n
    | none => .error .malformed
  else .error .malformed

/-- The number of a block, written before one more character; nothing if it is not all of plain
digits. -/
def blockNumber (word : List Char) : Except Fault (Option Int) :=
  let digits := word.dropLast
  if !digits.isEmpty && digits.all Char.isDigit && word.getLast?.any (·.toNat < 128) then do
    return some (← plainNumber digits)
  else .ok none

def secondWord (words : List (List Char)) : Except Fault (List Char) :=
  match words with
  | _ :: w :: _ => .ok w
  | _ => .error .outOfRange

/-- The block on a line.  Its name is what stands before the last underscore; a name without one
loses its last character. -/
def ListedBlock.read (line : List Char) (words : List (List Char)) : Except Fault ListedBlock := do
  match Text.splitList ':' (← secondWord words) with
  | pool :: name :: _ =>
    let machines := Text.sliceFrom line (Text.find machineMark line - 1)
    let name := String.ofList (Text.slice name 0 (Text.findLast '_' name))
    return { name, pool := String.ofList pool, machines := machineAddresses machines }
  | _ => .error .outOfRange

namespace BlockListing

/-- Reads the lines of blocks from a number on.  Lines that are not for the next block are passed
over. -/
def readBlocks (next : Int) : List (List Char) → Except Fault (List ListedBlock)
  | [] => .ok []
  | line :: lines => do
    let words := listingWords line
    let number ← match words with
      | [] => pure none
      | word :: _ => blockNumber word
    if number = some next then
      let block ← ListedBlock.read line words
      return block :: (← readBlocks (next + 1) lines)
    else readBlocks next lines

/-- Reads the lines up to the line of the file, and then those of its blocks. -/
def readLines (file : List Char) : List (List Char) → Except Fault BlockListing
  | [] => .ok { size := 0, blocks := [] }
  | line :: lines =>
    match listingWords line with
    | [] => readLines file lines
    | word :: words =>
      if word = file then do
        let size ← plainNumber (← secondWord (word :: words))
        return { size, blocks := ← readBlocks 0 lines }
      else readLines file lines

/-- Reads the listing of a file.  The file must have a size and blocks. -/
def read (file text : String) : Except Fault BlockListing := do
  let _ ← Text.octets text
  let lines := Text.splitList '\n' (Text.unifyLinesFrom text.toList)
  let listing ← readLines file.toList lines
  if listing.blocks.isEmpty || listing.size ≤ 0 then .error .broken else return listing

/-- The paths of the blocks and the hosts that keep them, as a document. -/
def layout (l : BlockListing) : Value :=
  let block (b : ListedBlock) : Value := .record [("path", .text b.path), ("hosts", .texts b.hosts)]
  .record [("blocks", .list (l.blocks.map block))]

def layoutText (l : BlockListing) : String := Document.print l.layout

/-- Whether two listings have the same layout. -/
def sameLayout (l l' : BlockListing) : Bool := l.layout == l'.layout

/-- What a listing says: the size of the file, and about its blocks their names, pools, machines and
paths, and the layout, with whether it is the same as itself and whether it is another. -/
def fields (l : BlockListing) : List (String × Value) :=
  let texts (f : ListedBlock → String) : Value := .texts (l.blocks.map f)
  [("size", .int l.size), ("blocks", texts ListedBlock.name), ("dnodes", texts ListedBlock.pool),
    ("machines", .list (l.blocks.map fun b => .texts b.machines)),
      ("paths", texts ListedBlock.path),
    ("dumps", .text l.layoutText), ("eq", .bool (l.sameLayout l)), ("neq", .bool !(l.sameLayout l))]

/-- The directory in which a machine keeps blocks.  What would ask for it has no name for the
program that tells. -/
def directory : Except Fault String := .error .unknownName

end BlockListing

end ShellFlow
