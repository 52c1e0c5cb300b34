import Mathlib.Data.List.Basic
import ShellFlow.Proofs.Preprocess.Reaching
import ShellFlow.Proofs.Table
import ShellFlow.Proofs.Words

/-!
# Restoring preprocessed scripts

A preprocessed script stands for the script that it was made from: a call of the runtime stands for
the trees of its region, a kept text for the tree whose text it is, and the commands that keep the
counters of loops stand for nothing.
-/

namespace ShellFlow

open List

variable {known : Regions} {path : String}

/-- The trees of known regions, by the paths of their files. -/
abbrev Regions := Table String (List Tree)

/-- Whether a word begins as the variables do that count the rounds of loops. -/
def Word.namesCounter (w : Word) : Bool := Word.same (Word.ofString "pash_loop_") (w.take 10)

namespace Tree

/-- Whether a tree is a command that keeps the counters of loops: it exports one or is an assignment
to one. -/
def keepsCount : Tree → Bool
  | .command _ [] [first, second] _ =>
      Word.same (Word.ofString "export") first && Word.namesCounter second
  | .command _ [.mk name _] [] _ => Word.namesCounter (Word.ofString name)
  | _ => false

/-- The file of the region that a call of the runtime runs. -/
def regionFile? : Tree → Option String
  | .command _ assignments [first, second] _ =>
    if Word.same (Word.ofString "source") first &&
        Word.same (Word.ofString (Settings.standard.program Settings.standard.regionRuntime))
          second then
      assignments.findSome? fun
        | .mk name value =>
            if name = "pash_input_ir_file" then (Word.format value).toOption else none
    else none
  | _ => none

mutual

/-- Whether no call of the runtime and no command on the counters of loops is in a tree. -/
def plain : Tree → Bool
  | .command line assignments words redirections =>
    (regionFile? (.command line assignments words redirections)).isNone &&
      !keepsCount (.command line assignments words redirections)
  | .pipe _ items => plainAll items
  | .join _ left right => plain left && plain right
  | .negate body => plain body
  | .scope _ _ body _ => plain body
  | .define _ _ body => plain body
  | .forEach _ _ body _ => plain body
  | .whileDo test body => plain test && plain body
  | .branch test yes no => plain test && plain yes && plain no
  | .select arms => plainArms arms
  | .generic _ _ | .verbatim _ | .graph _ => true

def plainAll : List Tree → Bool
  | [] => true
  | tree :: trees => plain tree && plainAll trees

def plainArms : List Arm → Bool
  | [] => true
  | .mk _ body :: arms => plain body && plainArms arms

end

variable (regions : Regions)

mutual

/-- A tree with the regions in the place of their calls, and without the commands on the counters of
loops. -/
def expand : Tree → Tree
  | .command line assignments words redirections =>
    match (regionFile? (.command line assignments words redirections)).bind regions.get? with
    | some trees => sequence trees
    | none => .command line assignments words redirections
  | .pipe background items => .pipe background (expandAll items)
  | .join op left right =>
    if op = .semi ∧ left.keepsCount then expand right
    else if op = .semi ∧ right.keepsCount then expand left
    else .join op (expand left) (expand right)
  | .negate body => .negate (expand body)
  | .scope kind line body redirections => .scope kind line (expand body) redirections
  | .define line name body => .define line name (expand body)
  | .forEach line range body name => .forEach line range (expand body) name
  | .whileDo test body => .whileDo (expand test) (expand body)
  | .branch test yes no => .branch (expand test) (expand yes) (expand no)
  | .select arms => .select (expandArms arms)
  | .generic tag payload => .generic tag payload
  | .verbatim text => .verbatim text
  | .graph outline => .graph outline

def expandAll : List Tree → List Tree
  | [] => []
  | tree :: trees => expand tree :: expandAll trees

def expandArms : List Arm → List Arm
  | [] => []
  | .mk fields body :: arms => .mk fields (expand body) :: expandArms arms

end

/-- The trees that a tree of a list stands for: a call stands for all trees of its region. -/
def splice (tree : Tree) : List Tree :=
  match tree.regionFile?.bind regions.get? with
  | some trees => trees
  | none => [expand regions tree]

end Tree

/-- The known regions and the region of one more file, in which the known ones are put in the place
of their calls. -/
def addRegion (known : Regions) (file : String × Content) : Regions :=
  match file.2 with
  | .region trees => known.insert file.1 (trees.flatMap (Tree.splice known))
  | _ => known

/-- The regions in files, in the order in which they were stored: a region calls only regions that
were stored before it. -/
def Files.regions (files : Files) : Regions := files.entries.foldl addRegion .empty

/-- The trees that a tree of the new script stands for, where some items of the script are left: a
kept text stands for the next of them, whose text it is. -/
def restoreTree (regions : Regions) (items : List ScriptItem) : Tree → List Tree
  | .verbatim text =>
    match items with
    | item :: _ => if item.text = some text then [item.tree] else [.verbatim text]
    | [] => [.verbatim text]
  | tree => tree.splice regions

/-- The trees that the trees of a new script stand for. -/
def restoreTrees (regions : Regions) : List ScriptItem → List Tree → List Tree
  | _, [] => []
  | items, tree :: trees =>
    let restored := restoreTree regions items tree
    restored ++ restoreTrees regions (items.drop restored.length) trees

/-- The trees that a script was made of. -/
def PreprocessedScript.restore (script : PreprocessedScript) (items : List ScriptItem) :
    List Tree :=
  restoreTrees script.files.regions items script.trees

/-! ## Plain trees -/

namespace Tree

variable {regions : Regions} {tree : Tree}

theorem keepsCount_of_plain (h : tree.plain) : tree.keepsCount = false := by
  cases tree with
  | command =>
    simp only [plain, Bool.and_eq_true, Bool.not_eq_true'] at h
    exact h.2
  | _ => rfl

theorem regionFile?_of_plain (h : tree.plain) : tree.regionFile? = none := by
  cases tree with
  | command =>
    simp only [plain, Bool.and_eq_true, Option.isNone_iff_eq_none] at h
    exact h.1
  | _ => rfl

mutual

theorem expand_of_plain (tree : Tree) (h : tree.plain) : tree.expand regions = tree := by
  cases tree with
  | command => simp [expand, regionFile?_of_plain h]
  | pipe _ items => rw [expand, expandAll_of_plain items (by simpa only [plain] using h)]
  | join _ left right =>
    obtain ⟨hleft, hright⟩ : left.plain ∧ right.plain := by simpa [plain] using h
    rw [expand, keepsCount_of_plain hleft, keepsCount_of_plain hright, expand_of_plain left hleft,
      expand_of_plain right hright]
    simp
  | negate body | scope _ _ body =>
    rw [expand, expand_of_plain body (by simpa only [plain] using h)]
  | define _ _ body | forEach _ _ body =>
    rw [expand, expand_of_plain body (by simpa only [plain] using h)]
  | whileDo test body =>
    obtain ⟨htest, hbody⟩ : test.plain ∧ body.plain := by simpa [plain] using h
    rw [expand, expand_of_plain test htest, expand_of_plain body hbody]
  | branch test yes no =>
    obtain ⟨⟨htest, hyes⟩, hno⟩ : (test.plain ∧ yes.plain) ∧ no.plain := by simpa [plain] using h
    rw [expand, expand_of_plain test htest, expand_of_plain yes hyes, expand_of_plain no hno]
  | select arms => rw [expand, expandArms_of_plain arms (by simpa only [plain] using h)]
  | generic => rfl
  | verbatim => rfl
  | graph => rfl

theorem expandAll_of_plain (trees : List Tree) (h : plainAll trees) :
    expandAll regions trees = trees := by
  match trees with
  | [] => rfl
  | tree :: trees =>
    obtain ⟨htree, htrees⟩ : tree.plain ∧ plainAll trees := by simpa [plainAll] using h
    rw [expandAll, expand_of_plain tree htree, expandAll_of_plain trees htrees]

theorem expandArms_of_plain (arms : List Arm) (h : plainArms arms) :
    expandArms regions arms = arms := by
  match arms with
  | [] => rfl
  | .mk fields body :: arms =>
    obtain ⟨hbody, harms⟩ : body.plain ∧ plainArms arms := by simpa [plainArms] using h
    rw [expandArms, expand_of_plain body hbody, expandArms_of_plain arms harms]

end

end Tree

/-! ## Counters of loops -/

theorem Word.namesCounter_ofString (s : String) (w : Word) :
    namesCounter (ofString ("pash_loop_" ++ s) ++ w) := by
  rw [namesCounter, ofString_append (by decide), List.append_assoc, take_left' (by decide),
    same_ofString]

namespace Tree

variable {regions : Regions} {left right : Tree}

theorem keepsCount_exportWord (rest : String) (value : Word) :
    (exportWord ("pash_loop_" ++ rest) value).keepsCount := by
  show (Word.same (Word.ofString "export") (Word.ofString "export") &&
    Word.namesCounter (Word.ofString ("pash_loop_" ++ rest ++ "=") ++ value)) = true
  rw [Word.same_ofString, String.append_assoc, Word.namesCounter_ofString, Bool.and_self]

theorem keepsCount_exportLoops (loops : List Int) : (exportLoops loops).keepsCount :=
  keepsCount_exportWord "iters" _

theorem keepsCount_increment (rest : String) : (increment ("pash_loop_" ++ rest)).keepsCount := by
  have h := Word.namesCounter_ofString rest []
  rwa [append_nil] at h

theorem expand_join_of_left (h : left.keepsCount) :
    (join .semi left right).expand regions = right.expand regions := by
  rw [expand, if_pos ⟨rfl, h⟩]

theorem expand_join_of_right (hleft : left.keepsCount = false) (h : right.keepsCount) :
    (join .semi left right).expand regions = left.expand regions := by
  rw [expand, if_neg (by simp [hleft]), if_pos ⟨rfl, h⟩]

theorem expand_join {op : Connective} (hleft : left.keepsCount = false)
    (hright : right.keepsCount = false) : (join op left right).expand regions =
      .join op (left.expand regions) (right.expand regions) := by
  rw [expand, if_neg (by simp [hleft]), if_neg (by simp [hright])]

/-- **A loop that counts its rounds stands for the loop.** -/
theorem expand_countedLoop (loop : Int) (inside outside : List Int) (line : Value) (range : Word)
    (body : Tree) (name : Value) :
    (countedLoop loop inside outside line range body name).expand regions =
      .forEach line range (body.expand regions) name := by
  have hstart : (exportWord (loopVariable (toString loop)) (Word.ofString "0")).keepsCount =
      true := by
    rw [loopVariable, String.append_assoc, keepsCount_exportWord]
  have hround : (increment (loopVariable (toString loop))).keepsCount = true := by
    rw [loopVariable, String.append_assoc, keepsCount_increment]
  have hinner : (sequence [increment (loopVariable (toString loop)), exportLoops inside,
      body]).expand regions =
      body.expand regions := by
    rw [sequence, expand_join_of_left hround, sequence,
      expand_join_of_left (keepsCount_exportLoops inside), sequence]
    · simp
    · simp
  rw [countedLoop, sequence, expand_join_of_left hstart, sequence, sequence,
    expand_join_of_right rfl (keepsCount_exportLoops outside), expand, hinner]
  · simp
  · simp

theorem regionFile?_runtimeCall (assigned : List (String × String)) :
    (runtimeCall assigned).regionFile? =
      assigned.findSome? fun e =>
        if e.1 = "pash_input_ir_file" then (Word.format
          (Word.ofString e.2)).toOption else none := by
  rw [runtimeCall, regionFile?, if_pos (Word.same_both _ _), findSome?_map]
  rfl

theorem regionFile?_directCall {regionFile : String} (h : Text.mark ∉ regionFile.toList)
    (scriptFile : String) (inSequence : Bool) :
    (directCall regionFile scriptFile inSequence).regionFile? = some regionFile := by
  have hother : "pash_disable_parallel_pipelines" ≠ "pash_input_ir_file" := by decide
  have hscript : "pash_sequential_script_file" ≠ "pash_input_ir_file" := by decide
  rw [directCall, regionFile?_runtimeCall, findSome?_cons, if_neg hother, findSome?_cons,
    if_neg hscript, findSome?_cons, if_pos rfl, Word.format_ofString h]
  rfl

end Tree

/-! ## Scratch files -/

theorem scratchFile_eq (number : Nat) : scratchFile number = "pash_tmp/tmp" ++ toString number := by
  have hstart : ("tmp" ++ toString number).startsWith "/" = false := by
    rw [String.startsWith_string_eq_false_iff, String.toList_append]
    simp
  have hend : "pash_tmp/".endsWith "/" = true := by decide +kernel
  show Path.join "pash_tmp/" ("tmp" ++ toString number) = _
  rw [Path.join, hstart, if_neg Bool.false_ne_true, if_pos (.inr hend), ← String.append_assoc]
  rfl

theorem scratchFile_inj {m n : Nat} (h : scratchFile m = scratchFile n) : m = n := by
  rw [scratchFile_eq, scratchFile_eq] at h
  have hdigits := congrArg String.toList ((String.append_right_inj _).1 h)
  have hnumber := congrArg (Nat.ofDigitChars 10 · 0) hdigits
  simpa using hnumber

theorem mark_notMem_scratchFile (number : Nat) : Text.mark ∉ (scratchFile number).toList := by
  rw [scratchFile_eq, String.toList_append, mem_append, not_or]
  refine ⟨by decide, fun hmem => ?_⟩
  have hdigits : Text.mark ∈ Nat.toDigits 10 number := by simpa using hmem
  exact absurd (Nat.isDigit_of_mem_toDigits (by decide) (by decide) hdigits) (by decide)

/-! ## Stored regions -/

theorem get?_addRegion_of_ne {file : String × Content} (h : path ≠ file.1) :
    (addRegion known file).get? path = known.get? path := by
  unfold addRegion
  split
  · exact Table.get?_insert_of_ne _ h _
  · rfl

theorem get?_foldl_addRegion {files : List (String × Content)} (h : path ∉ files.map (·.1)) :
    (files.foldl addRegion known).get? path = known.get? path := by
  induction files generalizing known with
  | nil => rfl
  | cons _ _ ih =>
    rw [map_cons, mem_cons, not_or] at h
    rw [foldl_cons, ih h.2, get?_addRegion_of_ne h.1]

/-- **A stored region is found again**, with the regions stored before it in place, whatever is
stored after it. -/
theorem Files.get?_regions {files : Files} {before after : List (String × Content)}
    {trees : List Tree} (hentries : files.entries = before ++ (path, .region trees) :: after)
    (hnodup : files.keys.Nodup) :
    files.regions.get? path = some (trees.flatMap (Tree.splice (Files.regions ⟨before⟩))) := by
  have hafter : path ∉ after.map (·.1) := by
    rw [Table.keys, hentries, map_append, map_cons, nodup_append] at hnodup
    exact (nodup_cons.1 hnodup.2.1).1
  rw [Files.regions, hentries, foldl_append, foldl_cons, get?_foldl_addRegion hafter]
  exact Table.get?_insert_self _ _ _

end ShellFlow
