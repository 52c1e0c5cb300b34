import ShellFlow.Graph.Basic
import ShellFlow.Store

/-!
# Drawings of graphs

The text of a graph in the DOT language: an oval for each node, a box for each file at an open end,
an arrow for each edge.

## Design Notes

A quote inside quotes needs a backslash in front, but one that already has an odd number of
backslashes in front is escaped already and stays as it is.
-/

namespace ShellFlow

namespace Dot

def isLetter (c : Char) : Bool := c.isAlpha || c == '_'

/-- Whether only an optional line end is left. -/
def atEnd : List Char → Bool
  | [] => true
  | ['\n'] => true
  | _ => false

def isName : List Char → Bool
  | [] => false
  | c :: cs => isLetter c && atEnd (cs.dropWhile fun d => isLetter d || d.isDigit)

/-- Whether a text is a number without sign. -/
def isUnsigned (cs : List Char) : Bool :=
  let whole := cs.takeWhile Char.isDigit
  match cs.dropWhile Char.isDigit with
  | '.' :: rest =>
    let fraction := rest.takeWhile Char.isDigit
    !(whole.isEmpty && fraction.isEmpty) && atEnd (rest.dropWhile Char.isDigit)
  | rest => !whole.isEmpty && atEnd rest

def isNumber : List Char → Bool
  | '-' :: cs => isUnsigned cs
  | cs => isUnsigned cs

/-- Whether a text stands for itself without quotes. -/
def isIdentifier (s : String) : Bool := isName s.toList || isNumber s.toList

/-- Whether the last character, a final line end apart, closes a tag. -/
def closesTag (cs : List Char) : Bool :=
  match cs.reverse with
  | '>' :: _ => true
  | '\n' :: '>' :: _ => true
  | _ => false

/-- Whether a text is markup, which has its own delimiters. -/
def isMarkup (s : String) : Bool :=
  match s.toList with
  | '<' :: cs => closesTag cs
  | _ => false

/-- Whether a text is a reserved word. -/
def isKeyword (s : String) : Bool :=
  ["node", "edge", "graph", "digraph", "subgraph", "strict"].contains s.toLower

/-- Puts a backslash in front of each quote that has none; `escaped` says whether an odd number of
backslashes has just gone by. -/
def escapeQuotes (escaped : Bool) : List Char → List Char
  | [] => []
  | '\\' :: cs => '\\' :: escapeQuotes (!escaped) cs
  | '"' :: cs =>
      if escaped then '"' :: escapeQuotes false cs else '\\' :: '"' :: escapeQuotes false cs
  | c :: cs => c :: escapeQuotes false cs

/-- A text as DOT reads it. -/
def quote (s : String) : String :=
  if isMarkup s then s
  else if !isIdentifier s || isKeyword s then
    "\"" ++ String.ofList (escapeQuotes false s.toList) ++ "\""
  else s

def nodeLine (name label : String) : String :=
  "\t" ++ quote name ++ " [label=" ++ quote label ++ "]\n"

def arrowLine (tail head : String) : String := "\t" ++ quote tail ++ " -> " ++ quote head ++ "\n"

end Dot

namespace Graph

/-- The lines of an edge: an arrow between two nodes, or between a node and a file.  Open ends that
are no files are not drawn. -/
def edgeLines (e : Edge) : Except Fault String :=
  match e.source, e.target with
  | some a, some b => .ok (Dot.arrowLine (toString a) (toString b))
  | a, b =>
    if e.channel.isFile then do
      let name := "file-" ++ toString e.channel.ident
      let arrow :=
        match a with
        | none => Dot.arrowLine name (idText b)
        | some a => Dot.arrowLine (toString a) name
      return Dot.nodeLine name (← e.channel.serialize) ++ arrow
    else .ok ""

def drawing (g : Graph) : Except Fault String := do
  let edges ← g.edges.values.mapM edgeLines
  return "digraph \x7b\n" ++
    String.join (g.nodes.entries.map fun (id, n) => Dot.nodeLine (toString id) n.label) ++
    "\tnode [shape=box]\n" ++ String.join edges ++ "\x7d\n"

end Graph

/-- Where drawings go: the format, and the directory below which a directory for them is made.  A
format of `no` asks for none; settings that were given without a value have none. -/
structure DrawingPlan where
  format : Option String
  parent : Option String
  name : String := "dfg"

structure Rendering where
  format : String
  directory : String
  name : String
  text : String

namespace DrawingPlan

variable (p : DrawingPlan)

def directory : Except Fault String :=
  match p.parent with
  | some parent => .ok (Path.join parent Settings.standard.drawings)
  | none => .error .wrongKind

def isWanted : Bool := p.format != some "no"

/-- Makes the directory for drawings, which must be new and in a directory. -/
def prepare (s : Store) : Except Fault Store := do
  if !p.isWanted then return s
  match s.makeDirectory (← p.directory) with
  | .ok s => return s
  | .error _ => .error (.exit "1")

def render (g : Graph) : Except Fault (List Rendering) := do
  if !p.isWanted then return []
  let text ← g.drawing
  match p.format with
  | some format => return [⟨format, ← p.directory, p.name, text⟩]
  | none => .error .lacking

end DrawingPlan

end ShellFlow
