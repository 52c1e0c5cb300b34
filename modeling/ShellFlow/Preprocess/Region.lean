import ShellFlow.Settings
import ShellFlow.Store

/-!
# Regions and the state of a traversal

While a script is preprocessed, regions and loops are numbered in the order in which they are met.
For speculation, an order on the regions is recorded, and the loops around each.
-/

namespace ShellFlow

/-- Whether regions are run as they are reached, or ahead of time. -/
inductive Mode where
  | direct
  | speculative
  deriving DecidableEq, Repr, Inhabited

namespace Mode

def name : Mode → String
  | direct => "pash"
  | speculative => "spec"

def ofName : String → Except Fault Mode
  | "pash" => .ok direct
  | "spec" => .ok speculative
  | _ => .error .malformed

end Mode

/-- The state of a traversal. -/
structure Traversal where
  regions : Int := 0
  loops : Int := 0
  /-- The loops around the current place, innermost first. -/
  enclosing : List Int := []
  /-- Which region comes before which. -/
  edges : List (Int × Int) := []
  /-- The loops around each region. -/
  contexts : Table Int (List Int) := .empty
  files : Files := .empty

/-- Computations over a traversal that draw fresh names and may fail. -/
abbrev Preprocess := StateT Traversal Build

namespace Speculation

/-- The directory of the regions that are run ahead of time. -/
def directory : String := "pash_tmp//speculative/partial_order/"

def directories : List String := ["pash_tmp/speculative", "pash_tmp/speculative/partial_order"]

/-- The file of the recorded order, unless another is given. -/
def orderFile : String := "pash_tmp//speculative/partial_order_file"

def regionFile (region : Int) : String := "pash_tmp/speculative/partial_order/" ++ toString region

/-- One entry of the order, of the texts of two numbers. -/
def edgeText (before after : String) : String := before ++ " -> " ++ after ++ "\n"

def countText (regions : String) : String := regions ++ "\n"

/-- The loops around a region, all given by their texts. -/
def contextText (region : String) (loops : List String) : String :=
  region ++ "-loop_ctx-" ++ ",".intercalate loops ++ "\n"

def announcement (file : String) : String := "Init:" ++ file

end Speculation

namespace Traversal

variable (t : Traversal)

def nextRegion : Int × Traversal := (t.regions, { t with regions := t.regions + 1 })

def lastRegion : Int := t.regions - 1

def enterLoop : Int × Traversal :=
  (t.loops, { t with loops := t.loops + 1, enclosing := t.loops :: t.enclosing })

def exitLoop : Except Fault Traversal :=
  match t.enclosing with
  | [] => .error .outOfRange
  | _ :: outer => .ok { t with enclosing := outer }

def currentLoop : Option Int := t.enclosing.head?

/-- Records that one region comes before another. -/
def addEdge (before after : Int) : Traversal :=
  { t with edges := t.edges ++ [(before, after)] }

/-- Files a region, the loops around it, and what precedes it. -/
def record (text : String) (region : Int) (before : List Int) : Traversal :=
  let t :=
    { t with
      contexts := t.contexts.insert region t.enclosing
      files := t.files.insert (Speculation.regionFile region) (.text text) }
  before.foldl (fun t p => t.addEdge p region) t

/-- The recorded loops in the order of their regions. -/
def sortedContexts : List (Int × List Int) :=
  t.contexts.entries.mergeSort fun a b => decide (a.1 ≤ b.1)

/-- The recorded order as text: the directory, the number of regions, the loops around each region,
and which comes before which. -/
def orderText : String :=
  "# Partial order files path:\n" ++ Speculation.directory ++ "\n" ++ Speculation.countText
    (toString t.regions) ++
    String.join (t.sortedContexts.map fun (r, ls) =>
      Speculation.contextText (toString r) (ls.map toString)) ++
    String.join (t.edges.map fun (a, b) => Speculation.edgeText (toString a) (toString b))

end Traversal

/-!
### Regions

A region is a list of trees that is stored in files, with a call of the runtime in its place.
-/

/-- The command that hands some variables to the runtime. -/
def runtimeCall (assigned : List (String × String)) : Tree :=
  .command 0 (assigned.map fun (name, value) => .mk name (Word.ofString value))
    [Word.ofString "source",
      Word.ofString (Settings.standard.program Settings.standard.regionRuntime)] []

/-- The command that runs a region stored in a file, beside the script that does the same in
sequence. -/
def directCall (regionFile scriptFile : String) (inSequence : Bool) : Tree :=
  runtimeCall
    [("pash_disable_parallel_pipelines", if inSequence then "1" else "0"),
      ("pash_sequential_script_file", scriptFile), ("pash_input_ir_file", regionFile)]

/-- The command that waits for a region that is run ahead of time, and the loop around it, both
given by their texts. -/
def speculativeCall (region : String) (loop : Option String) : Tree :=
  runtimeCall [("pash_spec_command_id", region), ("pash_spec_loop_id", loop.getD "")]

/-- The script of a region: its text if that is known, else the text of its trees.  It must be
possible to write it. -/
def regionText (trees : List Tree) (text : Option String) : Except Fault String := do
  let text ← match text with
    | some text => pure text
    | none => scriptText trees
  let _ ← Text.octets text
  return text

def freshFile : Build String := do
  return Settings.standard.scratchPath ("tmp" ++ toString (← Build.freshScratch))

/-- Stores a region and gives the command that runs it. -/
def storeRegion (mode : Mode) (trees : List Tree) (text : Option String) (inSequence : Bool) :
    Preprocess Tree := do
  let script ← Build.lift (regionText trees text)
  match mode with
  | .direct =>
    let regionFile ← freshFile
    let scriptFile ← freshFile
    modify fun t =>
      { t with
        files := (t.files.insert regionFile (.region trees)).insert scriptFile (.text script) }
    return directCall regionFile scriptFile inSequence
  | .speculative =>
    let t ← get
    let (region, t) := t.nextRegion
    let before := if region = 0 then [] else [region - 1]
    set (t.record script region before)
    return speculativeCall (toString region) (t.currentLoop.map toString)

end ShellFlow
