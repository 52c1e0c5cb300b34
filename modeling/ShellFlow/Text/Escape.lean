import ShellFlow.Fault

/-!
# Backslash escapes

Reading octets in which a backslash starts an escape.  Every other octet stands for the code point
of the same number.

## Design Notes

Octal escapes have one to three digits, and may exceed an octet.  Escapes `x`, `u` and `U` have
exactly two, four and eight hexadecimal digits.  Code points between the planes of a pair of units
are allowed, so the result is a list of numbers.  An escape `N` has the name of a character in
braces; which character has a name is told by a lookup.  A backslash before any other octet stands
for itself.
-/

namespace ShellFlow.Text

/-- What has been read of an escape. -/
inductive EscapeState where
  | plain
  | backslash
  /-- An octal escape, and how many more digits it may have. -/
  | octal (left value : Nat)
  /-- A hexadecimal escape, and how many more digits it must have. -/
  | hex (left value : Nat)
  /-- A name must begin. -/
  | nameStart
  /-- A name, its last octet first. -/
  | name (octets : List Nat)

def octalDigit? (b : Nat) : Option Nat := if 48 ≤ b ∧ b ≤ 55 then some (b - 48) else none

/-- The value of a hexadecimal digit. -/
def hexOctet? (b : Nat) : Option Nat :=
  if 48 ≤ b ∧ b ≤ 57 then some (b - 48)
  else if 97 ≤ b ∧ b ≤ 102 then some (b - 87)
  else if 65 ≤ b ∧ b ≤ 70 then some (b - 55)
  else none

/-- The code point of an escape that is one octet after the backslash. -/
def simpleEscape? (b : Nat) : Option Nat :=
  match Char.ofNat b with
  | '\\' => some 92
  | '\'' => some 39
  | '"' => some 34
  | 'a' => some 7
  | 'b' => some 8
  | 'f' => some 12
  | 'n' => some 10
  | 'r' => some 13
  | 't' => some 9
  | 'v' => some 11
  | _ => none

/-- How many hexadecimal digits follow the letter of an escape. -/
def hexLength? (b : Nat) : Option Nat :=
  match Char.ofNat b with
  | 'x' => some 2
  | 'u' => some 4
  | 'U' => some 8
  | _ => none

section

variable (codeNamed? : List Char → Option Nat)

/-- The code points of octets, in the middle of an escape. -/
def unescapeFrom : EscapeState → List Nat → Except Fault (List Nat)
  | .plain, [] => .ok []
  | .octal _ v, [] => .ok [v]
  | .backslash, [] => .error .badText
  | .hex _ _, [] => .error .badText
  | .nameStart, [] => .error .badText
  | .name _, [] => .error .badText
  | .plain, b :: bs =>
    if b = 92 then unescapeFrom .backslash bs else do return b :: (← unescapeFrom .plain bs)
  | .backslash, b :: bs =>
    if b = 10 then unescapeFrom .plain bs
    else if Char.ofNat b = 'N' then unescapeFrom .nameStart bs
    else
      match simpleEscape? b, octalDigit? b, hexLength? b with
      | some c, _, _ => do return c :: (← unescapeFrom .plain bs)
      | none, some d, _ => unescapeFrom (.octal 2 d) bs
      | none, none, some n => unescapeFrom (.hex n 0) bs
      | none, none, none => do return 92 :: b :: (← unescapeFrom .plain bs)
  | .octal left v, b :: bs =>
    match left, octalDigit? b with
    | left + 1, some d => unescapeFrom (.octal left (8 * v + d)) bs
    | _, _ =>
      if b = 92 then do return v :: (← unescapeFrom .backslash bs)
      else do return v :: b :: (← unescapeFrom .plain bs)
  | .hex left v, b :: bs =>
    match hexOctet? b with
    | none => .error .badText
    | some d =>
      let v := 16 * v + d
      if left ≤ 1 then
        if v ≤ 0x10FFFF then do return v :: (← unescapeFrom .plain bs) else .error .badText
      else unescapeFrom (.hex (left - 1) v) bs
  | .nameStart, b :: bs => if b = 123 then unescapeFrom (.name []) bs else .error .badText
  | .name octets, b :: bs =>
    if b = 125 then
      match codeNamed? (octets.reverse.map Char.ofNat) with
      | some c => do return c :: (← unescapeFrom .plain bs)
      | none => .error .badText
    else unescapeFrom (.name (b :: octets)) bs

/-- The code points of octets with escapes. -/
def unescape (octets : List Nat) : Except Fault (List Nat) := unescapeFrom codeNamed? .plain octets

end

end ShellFlow.Text
