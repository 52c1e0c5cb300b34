/-!
# Numbers with a point

A number with a point has 53 binary digits.  It is kept by its exact value in decimal digits, so
that two numbers are the same exactly if their values are.
-/

namespace ShellFlow

/-- A number with a point: `digits / 10 ^ places` with a sign, an infinite one, or no number. -/
inductive Decimal where
  | finite (negative : Bool) (digits places : Nat)
  | infinite (negative : Bool)
  | undefined
  deriving DecidableEq, Inhabited, Repr

namespace Decimal

def powerOfTen (exponent : Nat) : Nat := Nat.pow 10 exponent

def powerOfTwo (exponent : Nat) : Nat := Nat.pow 2 exponent

/-- A quotient rounded to the nearest number, a half to the even one. -/
def roundDiv (n d : Nat) : Nat :=
  let q := n / d
  let r := n % d
  if 2 * r > d ∨ (2 * r = d ∧ q % 2 = 1) then q + 1 else q

/-! ### Binary numbers -/

/-- The magnitude `significand * 2 ^ exponent`. -/
structure Binary where
  significand : Nat
  exponent : Int
  deriving DecidableEq, Inhabited, Repr

/-- How many binary digits a significand has. -/
def precision : Nat := 53

def leastExponent : Int := -1074

/-- A fraction over a power of two, as numerator and denominator. -/
def scaled (n d : Nat) (exponent : Int) : Nat × Nat :=
  if 0 ≤ exponent then (n, d * powerOfTwo exponent.toNat) else (n * powerOfTwo (-exponent).toNat, d)

/-- The binary number nearest to `n / d`, which is not zero. -/
def nearest (n d : Nat) : Binary :=
  let low : Int := (n.log2 : Int) - d.log2 - precision
  let (a, b) := scaled n d low
  let exponent := max leastExponent (if a / b ≥ powerOfTwo precision then low + 1 else low)
  let (a, b) := scaled n d exponent
  let significand := roundDiv a b
  if significand = powerOfTwo precision then ⟨powerOfTwo (precision - 1), exponent + 1⟩
  else ⟨significand, exponent⟩

/-- A fraction over a power of two without common factors. -/
def reduced : Nat → Nat → Nat × Nat
  | n, 0 => (n, 0)
  | n, k + 1 => if n % 2 = 0 then reduced (n / 2) k else (n, k + 1)

/-- The exact value of a binary number; too large ones are infinite. -/
def ofBinary (negative : Bool) (b : Binary) : Decimal :=
  if b.exponent > 1023 - (precision - 1 : Nat) then .infinite negative
  else if 0 ≤ b.exponent then .finite negative (b.significand * powerOfTwo b.exponent.toNat) 0
  else
    let (n, k) := reduced b.significand (-b.exponent).toNat
    .finite negative (n * Nat.pow 5 k) k

/-- The number nearest to a quotient with a sign. -/
def ofQuotient (negative : Bool) (n d : Nat) : Decimal :=
  if n = 0 then .finite negative 0 0 else ofBinary negative (nearest n d)

def digitCount (n : Nat) : Nat := (Nat.toDigits 10 n).length

/-- The number nearest to `n * 10 ^ exponent` with a sign.  Exponents far outside the range are not
computed with. -/
def ofScientific (negative : Bool) (n : Nat) (exponent : Int) : Decimal :=
  let size := (digitCount n : Int) + exponent
  if n = 0 ∨ size < -400 then .finite negative 0 0
  else if size > 400 then .infinite negative
  else if 0 ≤ exponent then ofQuotient negative (n * powerOfTen exponent.toNat) 1
  else ofQuotient negative n (powerOfTen (-exponent).toNat)

/-! ### Values -/

def signed (negative : Bool) (digits : Nat) : Int := if negative then -(digits : Int) else digits

/-- The exact value; numbers that are not finite count as zero. -/
def toRat : Decimal → Rat
  | finite negative digits places => mkRat (signed negative digits) (powerOfTen places)
  | infinite _ | undefined => 0

/-- The number nearest to an exact value. -/
def ofRat (q : Rat) : Decimal := ofQuotient (decide (q.num < 0)) q.num.natAbs q.den

/-- The number nearest to a whole number. -/
def ofInt (n : Int) : Decimal := ofQuotient (decide (n < 0)) n.natAbs 1

/-- A whole number with all its digits. -/
def exact (n : Int) : Decimal := finite (decide (n < 0)) n.natAbs 0

/-- The sum of two numbers, rounded. -/
def add : Decimal → Decimal → Decimal
  | infinite s, infinite t => if s = t then infinite s else undefined
  | undefined, _ | _, undefined => undefined
  | infinite s, _ | _, infinite s => infinite s
  | a, b => ofRat (a.toRat + b.toRat)

def divide (d : Decimal) (parts : Nat) : Decimal :=
  match d with
  | finite negative digits places => ofQuotient negative digits (powerOfTen places * parts)
  | d => d

/-- The greatest whole number that is not above a number. -/
def floor? : Decimal → Option Int
  | finite negative digits places => some (signed negative digits / (powerOfTen places : Int))
  | infinite _ | undefined => none

/-- Whether a number is less than another. -/
def less : Decimal → Decimal → Bool
  | undefined, _ | _, undefined => false
  | infinite s, infinite t => s && !t
  | infinite s, _ => s
  | _, infinite t => !t
  | a, b => decide (a.toRat < b.toRat)

def isZero : Decimal → Bool
  | finite _ digits _ => digits == 0
  | infinite _ | undefined => false

/-- Whether two numbers have the same value. -/
def same : Decimal → Decimal → Bool
  | finite s a m, finite t b n =>
    decide (signed s a * (powerOfTen n : Int) = signed t b * (powerOfTen m : Int))
  | infinite s, infinite t => s == t
  | _, _ => false

/-- Whether a number has the value of a whole number. -/
def sameInt : Decimal → Int → Bool
  | finite s a m, n => decide (signed s a = n * (powerOfTen m : Int))
  | _, _ => false

/-! ### Text -/

def infinityText (negative : Bool) : String := if negative then "-inf" else "inf"

def undefinedText : String := "nan"

/-- Digits with zeros in front, at least so many. -/
def padded (width n : Nat) : List Char :=
  let ds := Nat.toDigits 10 n
  List.replicate (width - ds.length) '0' ++ ds

/-- The text with a fixed number of places, a half rounded to the even digit. -/
def fixedText (width : Nat) : Decimal → String
  | infinite negative => infinityText negative
  | undefined => undefinedText
  | finite negative digits places =>
    let q := roundDiv (digits * powerOfTen width) (powerOfTen places)
    (if negative then "-" else "") ++ toString (q / powerOfTen width) ++ "." ++
      String.ofList (padded width (q % powerOfTen width))

end Decimal

end ShellFlow

/-!
### The shortest text of a number

Of all texts that read back as a number, one with the fewest digits is taken, and of those the one
nearest to the number.  Everything is computed in whole numbers.
-/

namespace ShellFlow.Decimal

/-- The numbers that read back as one binary number, as multiples of a common unit: the least, the
number itself, and the greatest, and whether the ends belong to them. -/
structure Interval where
  low : Nat
  middle : Nat
  high : Nat
  closed : Bool

/-- The interval of a binary number in units of a quarter of its last place.  Below a power of two
the numbers lie closer together. -/
def Binary.interval (b : Binary) : Interval where
  low :=
    4 * b.significand -
      (if b.significand = powerOfTwo (precision - 1) ∧ b.exponent > leastExponent then 1 else 2)
  middle := 4 * b.significand
  high := 4 * b.significand + 2
  closed := b.significand % 2 == 0

def Interval.contains (i : Interval) (n : Nat) : Bool :=
  if i.closed then i.low ≤ n && n ≤ i.high else i.low < n && n < i.high

def Interval.scale (i : Interval) (k : Nat) : Interval :=
  { i with low := k * i.low, middle := k * i.middle, high := k * i.high }

/-- The nearer of two multiples of a step to the middle of an interval, of those that belong to it;
the even one if both are as near. -/
def Interval.choose? (i : Interval) (step : Nat) : Option Nat :=
  let a := i.middle / step
  match i.contains (a * step), i.contains ((a + 1) * step) with
  | false, false => none
  | true, false => some a
  | false, true => some (a + 1)
  | true, true =>
    let below := i.middle - a * step
    let above := (a + 1) * step - i.middle
    some (if below < above ∨ (below = above ∧ a % 2 = 0) then a else a + 1)

/-- The multiple of `10 ^ exponent` that reads back as a binary number, if there is one. -/
def Binary.multiple? (b : Binary) (exponent : Int) : Option Nat :=
  let unit := b.exponent - 2
  let finer := powerOfTwo unit.toNat * powerOfTen (-exponent).toNat
  (b.interval.scale finer).choose? (powerOfTen exponent.toNat * powerOfTwo (-unit).toNat)

/-- The multiple of the greatest power of ten that reads back as a binary number, and the exponent
of that power.  The exponents are tried from one downward. -/
def Binary.coarsest (b : Binary) (exponent : Int) : Nat → Nat × Int
  | 0 => (0, exponent)
  | k + 1 =>
    match b.multiple? exponent with
    | some n => (n, exponent)
    | none => b.coarsest (exponent - 1) k

/-- Digits without the zeros at their end. -/
def trimZeros (ds : List Char) : List Char := (ds.reverse.dropWhile (· == '0')).reverse

/-- The shortest digits of `digits / 10 ^ places`, which is not zero, and how many of them stand
before the point. -/
def shortest (digits places : Nat) : List Char × Int :=
  let (n, exponent) :=
    (nearest digits (powerOfTen places)).coarsest ((digitCount digits : Int) - places - 1) 20
  let ds := Nat.toDigits 10 n
  (trimZeros ds, exponent + ds.length)

/-- Digits with a point among them, in front of them, or behind them; there is always a digit on
either side. -/
def positional (ds : List Char) (before : Int) : String :=
  if before ≤ 0 then "0." ++ String.ofList (List.replicate (-before).toNat '0' ++ ds)
  else
    let k := before.toNat
    let whole := ds.take k ++ List.replicate (k - ds.length) '0'
    String.ofList whole ++ "." ++ (if ds.length ≤ k then "0" else String.ofList (ds.drop k))

/-- Digits with a point behind the first, if there are more, and an exponent of two digits or more.
-/
def exponential (ds : List Char) (before : Int) : String :=
  let exponent := before - 1
  String.ofList (ds.take 1) ++ (if ds.length > 1 then "." ++ String.ofList (ds.drop 1) else "") ++
    "e" ++
    (if exponent < 0 then "-" else "+") ++ String.ofList (padded 2 exponent.natAbs)

/-- The text of a number.  Numbers from `0.0001` on and below `10 ^ 16` are written without an
exponent. -/
def text : Decimal → String
  | infinite negative => infinityText negative
  | undefined => undefinedText
  | finite negative digits places =>
    let sign := if negative then "-" else ""
    if digits = 0 then sign ++ "0.0"
    else
      let (ds, before) := shortest digits places
      sign ++ (if -4 < before ∧ before ≤ 16 then positional ds before else exponential ds before)

end ShellFlow.Decimal
