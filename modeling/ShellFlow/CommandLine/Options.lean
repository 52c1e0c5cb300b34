import ShellFlow.CommandLine.Grammar

/-!
# The options of the programs

Programs share options, and pass them on to each other.
-/

namespace ShellFlow

/-- How wide to run: an eighth of many processors, two on few. -/
def defaultWidth (processors : Int) : Int := if processors ≥ 16 then processors / 8 else 2

/-- How wide to run on a number of processors that may have a point, or be too large to be divided.
-/
def widthOn (processors : Value) : Except Fault Value := do
  if ← processors.atLeast 16 then
    let eighth := match processors with
      | .int n => Decimal.ofQuotient (decide (n < 0)) n.natAbs 8
      | .decimal d => d.divide 8
      | _ => .undefined
    match eighth.floor? with
    | some n => return .int n
    | none => .error .tooLarge
  else return .int 2

def processors : Int := 4

/-- A switch that is off unless given. -/
def switch (names : List String) (key : String) : OptionRule := ⟨names, key, .set true, .bool false⟩

def textOption (names : List String) (key : String) (initial : Value) : OptionRule :=
  ⟨names, key, .text, initial⟩

def numberOption (names : List String) (key : String) (initial : Int) : OptionRule :=
  ⟨names, key, .number, .int initial⟩

/-- An option that takes one of some texts, the first unless given. -/
def choiceOption (name key first : String) (others : List String) : OptionRule :=
  ⟨[name], key, .choice (first :: others), .text first⟩

/-- The option that shows what a program accepts. -/
def helpRule : OptionRule := ⟨["-h", "--help"], "help", .stop, .null⟩

def generalRules : List OptionRule :=
  [switch ["-t", "--output_time"] "output_time",
    numberOption ["-d", "--debug"] "debug" 0,
    textOption ["--log_file"] "log_file" (.text "")]

def commonRules : List OptionRule :=
  generalRules ++
  [numberOption ["-w", "--width"] "width" (defaultWidth processors),
    switch ["--no_optimize"] "no_optimize",
    switch ["--dry_run_compiler"] "dry_run_compiler",
    switch ["--assert_compiler_success"] "assert_compiler_success",
    switch ["--avoid_pash_runtime_completion"] "avoid_pash_runtime_completion",
    switch ["--profile_driven"] "profile_driven",
    switch ["-p", "--output_optimized"] "output_optimized",
    choiceOption "--graphviz" "graphviz" "no" ["dot", "svg", "pdf", "png"],
    textOption ["--graphviz_dir"] "graphviz_dir" (.text "/tmp"),
    switch ["--no_eager"] "no_eager",
    switch ["--no_daemon"] "no_daemon",
    switch ["--parallel_pipelines"] "parallel_pipelines",
    numberOption ["--r_split_batch_size"] "r_split_batch_size" 1000000,
    switch ["--r_split"] "r_split",
    switch ["--dgsh_tee"] "dgsh_tee",
    switch ["--speculative"] "speculative",
    choiceOption "--speculation" "speculation" "no_spec" ["quick_abort"],
    choiceOption "--termination" "termination" "clean_up_graph" ["drain_stream"],
    switch ["--daemon_communicates_through_unix_pipes"] "daemon_communicates_through_unix_pipes",
    switch ["--distributed_exec"] "distributed_exec",
    textOption ["--config_path"] "config_path" (.text ""),
    ⟨["--version"], "version", .stop, .null⟩]

def commonGrammar : Grammar := { options := helpRule :: commonRules }

/-- The settings of the shared options.  An option that was given without a value has none. -/
structure Options where
  outputTime : Bool := false
  debug : Option Int := some 0
  logFile : Option String := some ""
  width : Option Int := some 2
  noOptimize : Bool := false
  dryRun : Bool := false
  assertSuccess : Bool := false
  avoidCompletion : Bool := false
  profileDriven : Bool := false
  outputOptimized : Bool := false
  drawing : Option String := some "no"
  drawingDir : Option String := some "/tmp"
  noBuffers : Bool := false
  parallelPipelines : Bool := false
  batchSize : Option Int := some 1000000
  speculative : Bool := false
  termination : Option String := some "clean_up_graph"
  throughPipes : Bool := false
  distributed : Bool := false
  configPath : Option String := some ""
  deriving Inhabited, Repr

namespace Options

def ofSettings (t : Table String Value) : Options :=
  let flag (key : String) : Bool := ((t.get? key).getD .null).truthy
  let number (key : String) : Option Int :=
    match t.get? key with
    | some (.int n) => some n
    | _ => none
  let text (key : String) : Option String :=
    match t.get? key with
    | some (.text s) => some s
    | _ => none
  { outputTime := flag "output_time"
    debug := number "debug"
    logFile := text "log_file"
    width := number "width"
    noOptimize := flag "no_optimize"
    dryRun := flag "dry_run_compiler"
    assertSuccess := flag "assert_compiler_success"
    avoidCompletion := flag "avoid_pash_runtime_completion"
    profileDriven := flag "profile_driven"
    outputOptimized := flag "output_optimized"
    drawing := text "graphviz"
    drawingDir := text "graphviz_dir"
    noBuffers := flag "no_eager"
    parallelPipelines := flag "parallel_pipelines"
    batchSize := number "r_split_batch_size"
    speculative := flag "speculative"
    termination := text "termination"
    throughPipes := flag "daemon_communicates_through_unix_pipes"
    distributed := flag "distributed_exec"
    configPath := text "config_path" }

/-- Reads the shared options from a command line; yields also the words that nothing accepts. -/
def parse (argv : List String) : Except Fault (Options × List String) := do
  let (settings, extras) ← commonGrammar.parse argv
  return (ofSettings settings, extras)

/-- Checks what decides about the log, which must have a value. -/
def check (o : Options) : Except Fault Unit :=
  if o.logFile.isNone || o.debug.isNone then .error .wrongKind else .ok ()

def whenOn (on : Bool) (word : String) : List String := if on then [word] else []

/-- A word that is passed on if a switch is on. -/
def passOn (on : Bool) (word : String) : List Value := (whenOn on word).map .text

def passText (name : String) (text : Option String) : List Value :=
    [.text name, .ofSetting .text text]

def passNumber (name : String) (n : Option Int) : List Value :=
  [.text name, .text (Value.ofSetting .int n).display]

def whenGiven (name : String) (text : Option String) : List Value :=
  if text = some "" then [] else passText name text

/-- The words that pass the settings on to another program. -/
def pass (o : Options) : List Value :=
  passOn o.noOptimize "--no_optimize" ++
  passOn o.dryRun "--dry_run_compiler" ++
  passOn o.assertSuccess "--assert_compiler_success" ++
  passOn o.avoidCompletion "--avoid_pash_runtime_completion" ++
  passOn o.profileDriven "--profile_driven" ++
  passOn o.outputTime "--output_time" ++
  passOn o.outputOptimized "--output_optimized" ++
  passText "--graphviz" o.drawing ++
  passText "--graphviz_dir" o.drawingDir ++
  whenGiven "--log_file" o.logFile ++
  passOn o.noBuffers "--no_eager" ++
  passOn o.distributed "--distributed_exec" ++
  passOn o.speculative "--speculative" ++
  passOn o.parallelPipelines "--parallel_pipelines" ++
  passOn o.throughPipes "--daemon_communicates_through_unix_pipes" ++
  passNumber "--r_split_batch_size" o.batchSize ++
  passNumber "--debug" o.debug ++
  passText "--termination" o.termination ++
  passNumber "--width" o.width ++
  whenGiven "--config_path" o.configPath

end Options

end ShellFlow
