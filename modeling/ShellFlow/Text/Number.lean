import ShellFlow.Text.Blank

/-!
# Whole numbers as text

Reading a whole number: blanks around it, a sign, decimal digits of any script, and single
underscores between digits.
-/

namespace ShellFlow.Text

/-- The zeros of all scripts with decimal digits; nine more digits follow each. -/
def digitZeros : List Nat :=
  [0x30, 0x660, 0x6F0, 0x7C0, 0x966, 0x9E6, 0xA66, 0xAE6, 0xB66, 0xBE6, 0xC66, 0xCE6, 0xD66, 0xDE6,
    0xE50, 0xED0, 0xF20, 0x1040, 0x1090, 0x17E0, 0x1810, 0x1946, 0x19D0, 0x1A80, 0x1A90, 0x1B50,
    0x1BB0, 0x1C40, 0x1C50, 0xA620, 0xA8D0, 0xA900, 0xA9D0, 0xA9F0, 0xAA50, 0xABF0, 0xFF10, 0x104A0,
    0x10D30, 0x11066, 0x110F0, 0x11136, 0x111D0, 0x112F0, 0x11450, 0x114D0, 0x11650, 0x116C0,
    0x11730, 0x118E0, 0x11950, 0x11C50, 0x11D50, 0x11DA0, 0x16A60, 0x16AC0, 0x16B50, 0x1D7CE,
    0x1D7D8, 0x1D7E2, 0x1D7EC, 0x1D7F6, 0x1E140, 0x1E2F0, 0x1E950, 0x1FBF0]

def digit? (c : Char) : Option Nat :=
  (digitZeros.find? fun z => z ≤ c.toNat && c.toNat < z + 10).map (c.toNat - ·)

/-- The number of digits with single underscores between them; `seen` is the number so far, if a
digit has just been read. -/
def readDigits (sofar : Nat) (afterDigit : Bool) : List Char → Option Nat
  | [] => if afterDigit then some sofar else none
  | c :: cs =>
    if c = '_' then if afterDigit then readDigits sofar false cs else none
    else
      match digit? c with
      | some d => readDigits (10 * sofar + d) true cs
      | none => none

def readSigned : List Char → Option Int
  | '-' :: cs => (readDigits 0 false cs).map fun n => -(n : Int)
  | '+' :: cs => (readDigits 0 false cs).map Int.ofNat
  | cs => (readDigits 0 false cs).map Int.ofNat

/-- How many digits a number may have at most. -/
def digitLimit : Nat := 4300

/-- The number of a text; it must not have too many digits. -/
def readInt (s : String) : Option Int :=
  let cs := (trim s).toList
  if (cs.filter fun c => (digit? c).isSome).length > digitLimit then none else readSigned cs

/-- The number at the start of characters: blanks, a sign, and digits, of which there may be none.
-/
def leadingNumber (cs : List Char) : Int :=
  let cs := cs.dropWhile fun c => c = ' ' || (9 ≤ c.toNat && c.toNat ≤ 13)
  let digits (cs : List Char) : Int :=
    (cs.takeWhile Char.isDigit).foldl (fun n c => 10 * n + (c.toNat - 48 : Nat)) 0
  match cs with
  | '-' :: cs => - digits cs
  | '+' :: cs => digits cs
  | cs => digits cs

/-- The number at the start of a text as a machine word of 32 bits.  It is first bounded to a word
of 64 bits, of which the lower half is taken. -/
def leadingInt (s : String) : Int :=
  let most : Int := Nat.pow 2 63 - 1
  Int.bmod (max (-most - 1) (min most (leadingNumber s.toList))) (Nat.pow 2 32)

end ShellFlow.Text
