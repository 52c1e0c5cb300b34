import ShellFlow.Stream.Octets

/-!
# Letters of shell options

The options of a shell are letters.  To get from some options to others, some letters are turned off
and some are turned on.

## Design Notes

Letters are sorted as signed octets.  The letters `c` and `s` say how a shell was started and cannot
be changed, so the comparison passes over them.
-/

namespace ShellFlow.OptionLetters

/-- The order of signed octets. -/
def before (a b : UInt8) : Bool := a.toInt8 < b.toInt8

def changeable (a : UInt8) : Bool := a != 99 && a != 115

/-- Letters in order. -/
def sorted (letters : Octets) : Octets := letters.mergeSort fun a b => !before b a

/-- What only the first and what only the second of two sorted lists has, of the letters that can be
changed. -/
def difference : Octets → Octets → Octets × Octets
  | [], bs => ([], bs.filter changeable)
  | as, [] => (as.filter changeable, [])
  | a :: as, b :: bs =>
    if !changeable a then difference as (b :: bs)
    else if !changeable b then difference (a :: as) bs
    else if before a b then
      let (off, on) := difference as (b :: bs)
      (a :: off, on)
    else if a = b then difference as bs
    else
      let (off, on) := difference (a :: as) bs
      (off, b :: on)

/-- The letters to turn off and those to turn on. -/
def changes (old new : Octets) : Octets × Octets := difference (sorted old) (sorted new)

/-- The changes as text: the letters to turn off, a comma, the letters to turn on, and a line end.
-/
def changesText (old new : Octets) : Octets :=
  let (off, on) := changes old new
  off ++ Octets.ofText "," ++ on ++ [Octets.newline]

end ShellFlow.OptionLetters
