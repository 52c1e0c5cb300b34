import ShellFlow.Text.Blank

/-!
# Names of characters

The code of a character, from its name.  A name has capital letters, digits, hyphens and single
blanks.

The names of the syllables of Hangul are put together from the names of their letters, and those of
the unified ideographs hold the code.  All others stand in a table: that of this module has the
plain characters, the letters of some alphabets and a few signs.

## Design Notes

Nothing in the library looks up a name by itself.  Whatever reads an escape with a name takes the
lookup as an argument, and `codeNamed?` is the one that the program is run with; a larger table can
be put in its place.

A name in the table is found whatever the case of its letters.  The rules ask for capital letters,
and a name that begins as they say is not looked for in the table.
-/

namespace ShellFlow.Text

/-! ### Names in a table -/

def latinLetters : String := "A,B,C,D,E,F,G,H,I,J,K,L,M,N,O,P,Q,R,S,T,U,V,W,X,Y,Z"

/-- The letters with marks, in front of the sign for a product and behind it. -/
def markedLetters : String :=
  "A WITH GRAVE,A WITH ACUTE,A WITH CIRCUMFLEX,A WITH TILDE,A WITH DIAERESIS," ++
  "A WITH RING ABOVE,AE,C WITH CEDILLA,E WITH GRAVE,E WITH ACUTE,E WITH CIRCUMFLEX," ++
  "E WITH DIAERESIS,I WITH GRAVE,I WITH ACUTE,I WITH CIRCUMFLEX,I WITH DIAERESIS,ETH," ++
  "N WITH TILDE,O WITH GRAVE,O WITH ACUTE,O WITH CIRCUMFLEX,O WITH TILDE," ++
  "O WITH DIAERESIS"

@[inherit_doc markedLetters]
def furtherLetters : String :=
  "O WITH STROKE,U WITH GRAVE,U WITH ACUTE,U WITH CIRCUMFLEX,U WITH DIAERESIS," ++
  "Y WITH ACUTE,THORN"

/-- The letters up to the place where two small ones stand for one capital. -/
def greekLetters : String :=
  "ALPHA,BETA,GAMMA,DELTA,EPSILON,ZETA,ETA,THETA,IOTA,KAPPA,LAMDA,MU,NU,XI,OMICRON,PI,RHO"

def cyrillicLetters : String :=
  "A,BE,VE,GHE,DE,IE,ZHE,ZE,I,SHORT I,KA,EL,EM,EN,O,PE,ER,ES,TE,U,EF,HA,TSE,CHE,SHA," ++
  "SHCHA,HARD SIGN,YERU,SOFT SIGN,E,YU,YA"

/-- Characters that follow one another: the code of the first, what all their names begin with, and
how each goes on, with commas between them. -/
def nameBlocks : List (Nat × String × String) :=
  [(0x20, "",
      "SPACE,EXCLAMATION MARK,QUOTATION MARK,NUMBER SIGN,DOLLAR SIGN,PERCENT SIGN," ++
      "AMPERSAND,APOSTROPHE,LEFT PARENTHESIS,RIGHT PARENTHESIS,ASTERISK,PLUS SIGN,COMMA," ++
      "HYPHEN-MINUS,FULL STOP,SOLIDUS"),
    (0x30, "DIGIT ", "ZERO,ONE,TWO,THREE,FOUR,FIVE,SIX,SEVEN,EIGHT,NINE"),
    (0x3A, "",
      "COLON,SEMICOLON,LESS-THAN SIGN,EQUALS SIGN,GREATER-THAN SIGN,QUESTION MARK," ++
      "COMMERCIAL AT"),
    (0x41, "LATIN CAPITAL LETTER ", latinLetters),
    (0x5B, "",
      "LEFT SQUARE BRACKET,REVERSE SOLIDUS,RIGHT SQUARE BRACKET,CIRCUMFLEX ACCENT,LOW LINE," ++
      "GRAVE ACCENT"),
    (0x61, "LATIN SMALL LETTER ", latinLetters),
    (0x7B, "", "LEFT CURLY BRACKET,VERTICAL LINE,RIGHT CURLY BRACKET,TILDE"),
    (0xA0, "", "NO-BREAK SPACE"),
    (0xC0, "LATIN CAPITAL LETTER ", markedLetters),
    (0xD7, "", "MULTIPLICATION SIGN"),
    (0xD8, "LATIN CAPITAL LETTER ", furtherLetters),
    (0xDF, "LATIN SMALL LETTER ", "SHARP S"),
    (0xE0, "LATIN SMALL LETTER ", markedLetters),
    (0xF7, "", "DIVISION SIGN"),
    (0xF8, "LATIN SMALL LETTER ", furtherLetters ++ ",Y WITH DIAERESIS"),
    (0x391, "GREEK CAPITAL LETTER ", greekLetters),
    (0x3A3, "GREEK CAPITAL LETTER ", "SIGMA,TAU,UPSILON,PHI,CHI,PSI,OMEGA"),
    (0x3B1, "GREEK SMALL LETTER ",
      greekLetters ++ ",FINAL SIGMA,SIGMA,TAU,UPSILON,PHI,CHI,PSI,OMEGA"),
    (0x410, "CYRILLIC CAPITAL LETTER ", cyrillicLetters),
    (0x430, "CYRILLIC SMALL LETTER ", cyrillicLetters),
    (0x2013, "", "EN DASH,EM DASH"),
    (0x2022, "", "BULLET"),
    (0x20AC, "", "EURO SIGN"),
    (0x2122, "", "TRADE MARK SIGN"),
    (0x2190, "", "LEFTWARDS ARROW,UPWARDS ARROW,RIGHTWARDS ARROW,DOWNWARDS ARROW"),
    (0x221E, "", "INFINITY"),
    (0x2603, "", "SNOWMAN"),
    (0x2605, "", "BLACK STAR"),
    (0x2665, "", "BLACK HEART SUIT"),
    (0x2713, "", "CHECK MARK"),
    (0x2764, "", "HEAVY BLACK HEART"),
    (0xFEFF, "", "ZERO WIDTH NO-BREAK SPACE"),
    (0xFFFD, "", "REPLACEMENT CHARACTER"),
    (0x1F600, "", "GRINNING FACE"),
    (0x1F602, "", "FACE WITH TEARS OF JOY"),
    (0x1F4A9, "", "PILE OF POO"),
    (0x1F40D, "", "SNAKE"),
    (0x1F680, "", "ROCKET")]

/-- The code of a character of a block, from how its name goes on. -/
def codeInBlock? (block : Nat × String × String) (name : List Char) : Option Nat :=
  let (first, start, endings) := block
  if start.toList.isPrefixOf name then
    ((splitList ',' endings.toList).findIdx? (· == name.drop start.length)).map (first + ·)
  else none

/-! ### Names that follow a rule -/

/-- The number that capital hexadecimal digits stand for. -/
def hexValue (cs : List Char) : Nat :=
  cs.foldl (fun n c => 16 * n + if c.isDigit then c.toNat - 48 else c.toNat - 55) 0

/-- The names of the letters that begin a syllable. -/
def leadingLetters : List String :=
  ["G", "GG", "N", "D", "DD", "R", "M", "B", "BB", "S", "SS", "", "J", "JJ", "C", "K",
    "T", "P", "H"]

def vowelLetters : List String :=
  ["A", "AE", "YA", "YAE", "EO", "E", "YEO", "YE", "O", "WA", "WAE", "OE", "YO", "U", "WEO", "WE",
    "WI", "YU",
    "EU", "YI", "I"]

/-- The names of the letters that end a syllable; there may be none. -/
def trailingLetters : List String :=
  ["", "G", "GG", "GS", "N", "NJ", "NH", "D", "L", "LG", "LM", "LB", "LS", "LT", "LP", "LH", "M",
    "B", "BS",
    "S", "SS", "NG", "J", "C", "K", "T", "P", "H"]

/-- The longest of some letters that begins a text, as its place among them, and what follows it. -/
def longestLetter? (letters : List String) (cs : List Char) : Option (Nat × List Char) :=
  let found := (letters.zipIdx.filter fun l => l.1.toList.isPrefixOf cs).foldl
    (fun best l =>
      match best with
      | some b => if b.1.length < l.1.length then some l else some b
      | none => some l) none
  found.map fun l => (l.2, cs.drop l.1.length)

/-- The code of the syllable that some letters make. -/
def syllableNamed? (cs : List Char) : Option Nat := do
  let (lead, cs) ← longestLetter? leadingLetters cs
  let (vowel, cs) ← longestLetter? vowelLetters cs
  let (trail, cs) ← longestLetter? trailingLetters cs
  if cs.isEmpty then some (0xAC00 + (lead * 21 + vowel) * 28 + trail) else none

def ideographRanges : List (Nat × Nat) :=
  [(0x3400, 0x4DBF), (0x4E00, 0x9FFF), (0x20000, 0x2A6DF), (0x2A700, 0x2B738), (0x2B740, 0x2B81D),
    (0x2B820, 0x2CEA1), (0x2CEB0, 0x2EBE0), (0x30000, 0x3134A)]

/-- The code that four or five digits are, if it is that of a unified ideograph. -/
def ideographNamed? (cs : List Char) : Option Nat :=
  let isDigit (c : Char) : Bool := c.isDigit || ('A' ≤ c && c ≤ 'F')
  let code := hexValue cs
  if (cs.length = 4 ∨ cs.length = 5) ∧ cs.all isDigit ∧
      ideographRanges.any (fun r => r.1 ≤ code && code ≤ r.2) then some code
  else none

def after? (start : String) (cs : List Char) : Option (List Char) :=
  if start.toList.isPrefixOf cs then some (cs.drop start.length) else none

/-- The code of the character with a name. -/
def codeNamed? (name : List Char) : Option Nat :=
  match after? "HANGUL SYLLABLE " name, after? "CJK UNIFIED IDEOGRAPH-" name with
  | some letters, _ => syllableNamed? letters
  | none, some digits => ideographNamed? digits
  | none, none => nameBlocks.findSome? (codeInBlock? · (name.map Char.toUpper))

end ShellFlow.Text
