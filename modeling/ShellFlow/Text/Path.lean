/-!
# Paths

Paths are texts.  An absolute path below a directory stands alone.
-/

namespace ShellFlow.Path

/-- `b` below the directory `a`. -/
def join (a b : String) : String :=
  if b.startsWith "/" then b
  else if a = "" ∨ a.endsWith "/" then a ++ b
  else a ++ "/" ++ b

/-- The characters after the last slash, if any. -/
def afterSlash : List Char → List Char
  | [] => []
  | c :: cs => if cs.contains '/' then afterSlash cs else if c = '/' then cs else c :: cs

def base (p : String) : String := String.ofList (afterSlash p.toList)

/-- The characters before the last slash, if any. -/
def beforeSlash (cs : List Char) : List Char := ((cs.reverse.dropWhile (· != '/')).drop 1).reverse

/-- What is before the last slash of a path; the top directory for a path right below it. -/
def parent (p : String) : String :=
  match beforeSlash p.toList with
  | [] => if p.startsWith "/" then "/" else ""
  | cs => String.ofList cs

/-- The parts of a path between slashes, those left out that lead to the same place. -/
def partsFrom (current : List Char) : List Char → List (List Char)
  | [] => if current = [] ∨ current = ['.'] then [] else [current.reverse]
  | c :: cs =>
    if c = '/' then
      if current = [] ∨ current = ['.'] then partsFrom [] cs else current.reverse :: partsFrom [] cs
    else partsFrom (c :: current) cs

/-- A path without repeated slashes and without steps to the same place. -/
def normal (p : String) : String :=
  (if p.startsWith "/" then "/" else "") ++
    "/".intercalate ((partsFrom [] p.toList).map String.ofList)

/-- A name right below a directory in normal form; the empty path is the current directory. -/
def below (directory name : String) : String :=
  if directory = "" ∨ directory = "/" then directory ++ name else directory ++ "/" ++ name

/-- Whether a path in normal form only leads up from the current directory. -/
def leadsUp (p : String) : Bool := p = ".." ∨ p.endsWith "/.."

/-- The directory above one in normal form; nothing is above the top. -/
def up (directory : String) : String :=
  if directory = "" ∨ leadsUp directory then below directory ".." else parent directory

end ShellFlow.Path
