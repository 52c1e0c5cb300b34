import ShellFlow.Table
import ShellFlow.Text.Code

/-!
# Octets

Sequences of octets: text, hexadecimal notation, numbers of a fixed width, and lines.
-/

namespace ShellFlow

/-- A sequence of octets. -/
abbrev Octets := List UInt8

namespace Octets

def ofText (s : String) : Octets := s.toUTF8.toList

/-- The octets of one code point in a word of a command line.  The last halves stand for single
octets. -/
def ofWordCode (code : Nat) : Except Fault Octets :=
  if code = 0 then .error .malformed
  else if 0xDC80 ≤ code ∧ code < 0xDD00 then .ok [UInt8.ofNat (code - 0xDC00)]
  else Text.octets (Text.ofCodes [code])

/-- The octets of a word of a command line, which cannot hold the octet zero. -/
def ofWord (s : String) :
    Except Fault Octets := do return (← (Text.codes s).mapM ofWordCode).flatten

/-- The text of octets, if they are one. -/
def toText? (xs : Octets) : Option String :=
  (String.fromUTF8? ⟨xs.toArray⟩).map fun s => Text.ofCodes (s.toList.map Char.toNat)

/-- The digit of a number below sixteen. -/
def hexDigit (n : Nat) : Char := if n < 10 then Char.ofNat (48 + n) else Char.ofNat (87 + n)

/-- Two hexadecimal digits for each octet. -/
def hex (xs : Octets) : String :=
  String.ofList (xs.flatMap fun x => [hexDigit (x.toNat / 16), hexDigit (x.toNat % 16)])

def hexValue? (c : Char) : Option Nat :=
  if '0' ≤ c ∧ c ≤ '9' then some (c.toNat - 48)
  else if 'a' ≤ c ∧ c ≤ 'f' then some (c.toNat - 87)
  else if 'A' ≤ c ∧ c ≤ 'F' then some (c.toNat - 55)
  else none

/-- Whether a character may stand between two octets in hexadecimal notation. -/
def isHexBlank (c : Char) : Bool := c = ' ' || (9 ≤ c.toNat && c.toNat ≤ 13)

/-- The octets of pairs of hexadecimal digits, with blanks between pairs. -/
def ofHexDigits? : List Char → Option Octets
  | [] => some []
  | [a] => if isHexBlank a then some [] else none
  | a :: b :: rest =>
    if isHexBlank a then ofHexDigits? (b :: rest)
    else do
      let x ← hexValue? a
      let y ← hexValue? b
      return UInt8.ofNat (16 * x + y) :: (← ofHexDigits? rest)

/-- The octets of a text in hexadecimal notation. -/
def ofHex? (s : String) : Option Octets := ofHexDigits? s.toList

/-- A number in some octets, the least significant first. -/
def little : (width : Nat) → Nat → Octets
  | 0, _ => []
  | width + 1, n => UInt8.ofNat n :: little width (n / 256)

/-- The number of octets of which the least significant is the first. -/
def ofLittle : Octets → Nat
  | [] => 0
  | x :: xs => x.toNat + 256 * ofLittle xs

/-- A number in some octets, the most significant first. -/
def big (width n : Nat) : Octets := (little width n).reverse

/-- The number of octets of which the most significant is the first. -/
def ofBig (xs : Octets) : Nat := ofLittle xs.reverse

def range (bits : Nat) : Nat := Nat.pow 2 bits

def newline : UInt8 := 10

/-- The lines of octets, each with its line end, which only the last can lack. -/
def lines : Octets → List Octets
  | [] => []
  | x :: xs =>
    if x = newline then [x] :: lines xs
    else
      match lines xs with
      | [] => [[x]]
      | l :: ls => (x :: l) :: ls

/-- How many octets there are up to the last occurrence of an octet, with it; none if there is no
occurrence. -/
def behindLast (x : UInt8) (xs : Octets) : Nat := (xs.reverse.dropWhile (· != x)).length

end Octets

end ShellFlow
