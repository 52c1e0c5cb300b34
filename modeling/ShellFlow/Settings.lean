import ShellFlow.Text.Path

/-!
# Settings

Where the programs that a graph starts are found, and where channels and intermediate files live.
-/

namespace ShellFlow

/-- Directories and helper programs. -/
structure Settings where
  top : String := "pash_top"
  scratch : String := "pash_tmp/"
  autoSplit : String := "runtime/auto-split.sh"
  roundSplit : String := "runtime/r_split"
  roundMerge : String := "runtime/r_merge"
  roundWrap : String := "runtime/r_wrap"
  roundUnwrap : String := "runtime/r_unwrap"
  tee : String := "runtime/dgsh-tee"
  cleanUp : String := "runtime/wait_for_output_and_sigpipe_rest.sh"
  redirectInput : String := "runtime/redirect_stdin_to.sh"
  regionRuntime : String := "compiler/pash_runtime.sh"
  teeBuffer : String := "5M"
  optimizedScript : String := "pash_tmp/optimized_script.sh"
  drawings : String := "pash_graphviz_bench"
  deriving Repr

instance : Inhabited Settings := ⟨{}⟩

namespace Settings

def program (s : Settings) (name : String) : String := Path.join s.top name

def scratchPath (s : Settings) (name : String) : String := Path.join s.scratch name

def standard : Settings := {}

end Settings

end ShellFlow
