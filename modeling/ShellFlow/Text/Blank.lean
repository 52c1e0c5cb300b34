/-!
# Blanks, lines and parts of texts

Which characters separate words and which end lines, and cutting texts at them.

Positions in a sequence may be counted from the end, as negative numbers, and a position outside the
sequence is its nearest end.
-/

namespace ShellFlow.Text

/-- Whether a character separates words. -/
def isBlank (c : Char) : Bool :=
  let n := c.toNat
  (9 ≤ n && n ≤ 13) || (0x1C ≤ n && n ≤ 0x20) || n == 0x85 || n == 0xA0 || n == 0x1680 ||
    (0x2000 ≤ n && n ≤ 0x200A) || n == 0x2028 || n == 0x2029 || n == 0x202F || n == 0x205F ||
    n == 0x3000

def isLineEnd (c : Char) : Bool :=
  let n := c.toNat
  (10 ≤ n && n ≤ 13) || (0x1C ≤ n && n ≤ 0x1E) || n == 0x85 || n == 0x2028 || n == 0x2029

/-- Runs without blanks; `current` is the run so far, in reverse. -/
def wordsFrom (current : List Char) : List Char → List (List Char)
  | [] => if current.isEmpty then [] else [current.reverse]
  | c :: cs =>
    if isBlank c then
      if current.isEmpty then wordsFrom [] cs else current.reverse :: wordsFrom [] cs
    else wordsFrom (c :: current) cs

def words (s : String) : List String := (wordsFrom [] s.toList).map String.ofList

/-- Lines without their ends; `current` is the line so far, in reverse. -/
def linesFrom (current : List Char) : List Char → List (List Char)
  | [] => if current.isEmpty then [] else [current.reverse]
  | '\r' :: '\n' :: cs => current.reverse :: linesFrom [] cs
  | c :: cs =>
    if isLineEnd c then current.reverse :: linesFrom [] cs else linesFrom (c :: current) cs

def lines (s : String) : List String := (linesFrom [] s.toList).map String.ofList

/-- Writes carriage returns, with or without a line feed behind, as line feeds. -/
def unifyLinesFrom : List Char → List Char
  | [] => []
  | '\r' :: '\n' :: cs => '\n' :: unifyLinesFrom cs
  | '\r' :: cs => '\n' :: unifyLinesFrom cs
  | c :: cs => c :: unifyLinesFrom cs

/-- A text with line feeds for all usual line ends. -/
def unifyLines (s : String) : String := String.ofList (unifyLinesFrom s.toList)

def dropTrailing (cs : List Char) : List Char := (cs.reverse.dropWhile isBlank).reverse

def trimEnd (s : String) : String := String.ofList (dropTrailing s.toList)

def trim (s : String) : String := String.ofList (dropTrailing (s.toList.dropWhile isBlank))

/-- The pieces of a list between the places that hold `sep`. -/
def splitList {α : Type} [DecidableEq α] (sep : α) : List α → List (List α)
  | [] => [[]]
  | a :: as =>
    if a = sep then [] :: splitList sep as
    else
      match splitList sep as with
      | [] => [[a]]
      | w :: ws => (a :: w) :: ws

/-- The pieces of a text between the places that hold a character. -/
def splitAt (sep : Char) (s : String) : List String := (splitList sep s.toList).map String.ofList

/-- A text without another at its start, if it starts with it. -/
def without (start s : String) : String :=
  if start.toList.isPrefixOf s.toList then String.ofList (s.toList.drop start.length) else s

/-! ### Positions in a sequence -/

/-- A position in a sequence of some length, as a count from the start. -/
def position (length : Nat) (i : Int) : Nat :=
  if i < 0 then (i + length).toNat else min i.toNat length

/-- The part of a sequence between two positions. -/
def slice {α : Type} (xs : List α) (start stop : Int) : List α :=
  (xs.take (position xs.length stop)).drop (position xs.length start)

def sliceFrom {α : Type} (xs : List α) (start : Int) : List α := xs.drop (position xs.length start)

/-- Where a sequence first occurs in another. -/
def find? {α : Type} [BEq α] (sought : List α) : List α → Option Nat
  | [] => if sought.isEmpty then some 0 else none
  | x :: xs => if sought.isPrefixOf (x :: xs) then some 0 else (find? sought xs).map (· + 1)

/-- Where a sequence first occurs in another, or the position before the start. -/
def find {α : Type} [BEq α] (sought xs : List α) : Int :=
  match find? sought xs with
  | some n => n
  | none => -1

/-- Where a sequence last contains an item, or the position before the start. -/
def findLast {α : Type} [BEq α] (x : α) (xs : List α) : Int :=
  match xs.reverse.findIdx? (· == x) with
  | some n => (xs.length : Int) - 1 - n
  | none => -1

end ShellFlow.Text
