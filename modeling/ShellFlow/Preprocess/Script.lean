import ShellFlow.Preprocess.Region

/-!
# Preprocessing trees and scripts

Commands, pipelines and trees in the background can become regions.  Other constructs stay, and each
part of theirs that can become a region becomes one by itself.
-/

namespace ShellFlow

/-- A tree after preprocessing. -/
structure Preprocessed where
  tree : Tree
  /-- Whether the tree is to become a region as a whole. -/
  whole : Bool := false
  /-- Whether the region goes on with the next tree. -/
  extends? : Bool := false
  /-- Whether anything in it has become, or will become, a region. -/
  replaced : Bool := true

instance : Inhabited Preprocessed := ⟨{ tree := default }⟩

def leaveLoop : Preprocess Unit := do
  match (← get).exitLoop with
  | .ok t => set t
  | .error e => throw e

/-- Makes a tree a region if it is to become one. -/
def Preprocessed.close (p : Preprocessed) (mode : Mode) (last : Bool) :
    Preprocess (Tree × Bool) := do
  if p.whole then return (← storeRegion mode [p.tree] none last, true)
  else return (p.tree, p.replaced)

variable (mode : Mode)

/-- Makes what a computation gives a region if it is to become one. -/
def closing (last : Bool) (x : Preprocess Preprocessed) : Preprocess (Tree × Bool) := do
  (← x).close mode last

/-- A loop over words that counts its rounds: the counter starts before it, grows with every round,
and the counters of the loops around are announced. -/
def countedLoop (loop : Int) (inside outside : List Int) (line : Value) (range : Word) (body : Tree)
    (name : Value) : Tree :=
  let counter := Tree.loopVariable (toString loop)
  Tree.sequence
    [Tree.exportWord counter (Word.ofString "0"),
      .forEach line range (Tree.sequence [Tree.increment counter, Tree.exportLoops inside, body])
        name,
      Tree.exportLoops outside]

mutual

/-- Preprocesses a tree.  `last` says whether the exit status of the tree is that of the script. -/
def preprocessTree (mode : Mode) (last : Bool) : Tree → Preprocess Preprocessed
  | .command line assignments words redirections =>
    let candidate := !words.isEmpty
    return { tree := .command line assignments words redirections, whole := candidate,
             replaced := candidate }
  | .pipe background items =>
    return { tree := .pipe background items, whole := true, extends? := background.truthy }
  | .scope .background line body redirections =>
    return { tree := .scope .background line body redirections, whole := true, extends? := true }
  | .scope kind line body redirections => do
    let (body, replaced) ← closing mode last (preprocessTree mode last body)
    return { tree := .scope kind line body redirections, replaced }
  | .forEach line range body name => do
    let (loop, t) := (← get).enterLoop
    set t
    let (body, replaced) ← closing mode last (preprocessTree mode last body)
    let inside := (← get).enclosing
    leaveLoop
    let outside := (← get).enclosing
    return { tree := countedLoop loop inside outside line range body name, replaced }
  | .whileDo test body => do
    modify fun t => t.enterLoop.2
    let (test, a) ← closing mode last (preprocessTree mode last test)
    let (body, b) ← closing mode last (preprocessTree mode last body)
    leaveLoop
    return { tree := .whileDo test body, replaced := a || b }
  | .define line name body => return { tree := .define line name body, replaced := false }
  | .join op left right => do
    let (left, a) ← closing mode (last && op != .semi)
      (preprocessTree mode (last && op != .semi) left)
    let (right, b) ← closing mode last (preprocessTree mode last right)
    return { tree := .join op left right, replaced := a || b }
  | .negate body => do
    let (body, replaced) ← closing mode last (preprocessTree mode last body)
    return { tree := .negate body, replaced }
  | .branch test yes no => do
    let (test, a) ← closing mode last (preprocessTree mode last test)
    let (yes, b) ← closing mode last (preprocessTree mode last yes)
    let (no, c) ← closing mode last (preprocessTree mode last no)
    return { tree := .branch test yes no, replaced := a || b || c }
  | .select arms => do
    let (arms, replaced) ← preprocessArms mode last arms
    if arms.isEmpty then throw .malformed
    return { tree := .select arms, replaced }
  | .generic _ _ | .verbatim _ | .graph _ => throw (.missing "AstNode")

def preprocessArms (mode : Mode) (last : Bool) : List Arm → Preprocess (List Arm × Bool)
  | [] => return ([], false)
  | .mk fields body :: rest => do
    let (body, a) ← closing mode last (preprocessTree mode last body)
    let (rest, b) ← preprocessArms mode last rest
    return (.mk fields body :: rest, a || b)

end

/-!
### Scripts

The trees of a script are taken in order.  A tree that is to become a region as a whole becomes one,
with its text if that is known.  Trees in the background are held back and become one region with
the first tree that follows and is not in the background.  A tree without any region keeps its text.
-/

/-- A tree of a script and its text, if known. -/
structure ScriptItem where
  tree : Tree
  text : Option String

/-- The texts of several items, one per line, if all are known. -/
def joinTexts (texts : List (Option String)) : Option String :=
  (texts.mapM id).map "\n".intercalate

def storeItems (items : List ScriptItem) (inSequence : Bool) : Preprocess Tree :=
  storeRegion mode (items.map (·.tree)) (joinTexts (items.map (·.text))) inSequence

/-- Preprocesses one tree of a script after the items that are held back.  Gives the tree for the
new script, if there is one yet, and the items that are held back now. -/
def preprocessItem (last : Bool) (held : List ScriptItem) (item : ScriptItem) :
    Preprocess (Option Tree × List ScriptItem) := do
  let p ← preprocessTree mode last item.tree
  let next : ScriptItem := { item with tree := p.tree }
  if (p.extends? && !p.whole) || (p.whole && !p.replaced) then throw .broken
  if p.extends? then return (none, held ++ [next])
  else if !held.isEmpty then return (some (← storeItems mode (held ++ [next]) last), [])
  else if p.whole then return (some (← storeRegion mode [p.tree] item.text last), [])
  else
    match item.text with
    | some text => return (some (if p.replaced then p.tree else .verbatim text), [])
    | none => return (some p.tree, [])

/-- Preprocesses the trees of a script after the items that are held back. -/
def preprocessItems (mode : Mode) (held : List ScriptItem) :
    List ScriptItem → Preprocess (List Tree)
  | [] => do
    if held.isEmpty then return []
    else return [← storeItems mode held true]
  | item :: rest => do
    let (tree, held) ← preprocessItem mode rest.isEmpty held item
    let trees ← preprocessItems mode held rest
    return tree.toList ++ trees

/-- A preprocessed script: its trees, the files of its regions, and for speculation the recorded
order. -/
structure PreprocessedScript where
  trees : List Tree
  files : Files
  order : Option String

def preprocessScript (items : List ScriptItem) : Build PreprocessedScript := do
  let (trees, t) ← (preprocessItems mode [] items).run {}
  let order := if mode = .speculative then some t.orderText else none
  return { trees, files := t.files, order }

end ShellFlow
