import ShellFlow.Fault

/-!
# Texts by code points

A text is a sequence of code points.  Most of them are characters; the halves of a pair of units
have code points too, and are no characters.  A text is kept as a string, in which a half is a mark
with a stand-in behind it, and the mark itself is written twice.
-/

namespace ShellFlow.Text

/-- The mark in front of a stand-in, a code point that is set aside for use inside programs. -/
def mark : Char := '\uFDD0'

/-- How far a stand-in is from its half. -/
def standInOffset : Nat := 0x800

/-- Whether a code point is half of a pair of units. -/
def isHalf (code : Nat) : Bool := 0xD800 ≤ code && code < 0xE000

/-- The characters by which a code point is kept. -/
def ofCode (code : Nat) : List Char :=
  if isHalf code then [mark, Char.ofNat (code + standInOffset)]
  else if code = mark.toNat then [mark, mark]
  else [Char.ofNat code]

def ofCodes (codes : List Nat) : String := String.ofList (codes.flatMap ofCode)

def codesOf : List Char → List Nat
  | [] => []
  | [c] => [c.toNat]
  | a :: b :: rest =>
    if a = mark then (if b = mark then mark.toNat else b.toNat - standInOffset) :: codesOf rest
    else a.toNat :: codesOf (b :: rest)

def codes (s : String) : List Nat := codesOf s.toList

/-- Whether some numbers come before others or are the same, where the first difference decides. -/
def codesInOrder : List Nat → List Nat → Bool
  | [], _ => true
  | _ :: _, [] => false
  | a :: as, b :: bs => a < b || a == b && codesInOrder as bs

/-- Whether a text comes before another or is the same, in the order of their code points. -/
def inOrder (s t : String) : Bool := codesInOrder (codes s) (codes t)

/-- The characters of a text, each as a text. -/
def characters (s : String) : List String := (codes s).map fun c => ofCodes [c]

/-- Numbers of this size and above are not even looked at. -/
def codeBound : Int := 0x80000000

def codePoint (n : Int) : Except Fault Nat :=
  if n < -codeBound ∨ codeBound ≤ n then .error .tooLarge
  else if 0 ≤ n ∧ n < 0x110000 then .ok n.toNat
  else .error .malformed

def ofNumbers (ns : List Int) : Except Fault String := do return ofCodes (← ns.mapM codePoint)

def octets (s : String) : Except Fault (List UInt8) :=
  let cs := codes s
  if cs.any isHalf then .error .unwritable
  else .ok (String.ofList (cs.map Char.ofNat)).toUTF8.toList

end ShellFlow.Text
