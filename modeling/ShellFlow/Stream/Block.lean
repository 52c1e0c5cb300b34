import ShellFlow.Stream.Octets

/-!
# Streams of blocks

A stream of blocks is octets in which every block has a header: its number, the length of its body,
and whether it is the last of those that belong together.

## Design Notes

A body comes through a buffer, and a stream that ends inside a body has given whole buffers only.
-/

namespace ShellFlow

/-- What stands before the body of a block. -/
structure Header where
  id : Int
  size : Nat
  last : Bool

/-- A block: its number, whether it is the last of those that belong together, and its body. -/
structure Block where
  id : Int
  last : Bool
  body : Octets
deriving DecidableEq

namespace Header

/-- How many octets a header has. -/
def width : Nat := 24

/-- The octets of a header: two numbers of eight octets, the mark of a last block, and padding. -/
def encode (h : Header) : Octets :=
  Octets.little 8 (h.id % Octets.range 64).toNat ++ Octets.little 8 h.size ++
    (if h.last then 1 else 0) :: List.replicate 7 0

/-- The header in octets, of which there are enough.  Every mark but zero marks a last block. -/
def decode (xs : Octets) : Header where
  id := Int.bmod (Octets.ofLittle (xs.take 8)) (Octets.range 64)
  size := Octets.ofLittle ((xs.drop 8).take 8)
  last := (xs.drop 16).head? != some 0

end Header

namespace Block

def header (b : Block) : Header := { id := b.id, size := b.body.length, last := b.last }

def encode (b : Block) : Octets := b.header.encode ++ b.body

end Block

/-- What a stream starts with. -/
inductive Reading where
  | block (b : Block) (rest : Octets)
  /-- Less than a header: the stream has ended. -/
  | ended
  /-- A header and less than its body: the part of the body that has come through. -/
  | cut (body : Octets)

/-- How many octets a buffer holds. -/
def bufferSize : Nat := 32768

def readHeader (stream : Octets) : Option (Header × Octets) :=
  if stream.length < Header.width then none
  else some (Header.decode (stream.take Header.width), stream.drop Header.width)

def readBlock (stream : Octets) : Reading :=
  match readHeader stream with
  | none => .ended
  | some (h, rest) =>
    if rest.length < h.size then .cut (rest.take (rest.length / bufferSize * bufferSize))
    else .block ⟨h.id, h.last, rest.take h.size⟩ (rest.drop h.size)

/-!
### Termination

Reading makes a stream shorter.
-/

theorem length_lt_of_readHeader {stream rest : Octets} {h : Header}
    (hr : readHeader stream = some (h, rest)) : rest.length < stream.length := by
  simp only [readHeader] at hr
  split at hr
  · cases hr
  · rename_i hn
    simp only [Option.some.injEq, Prod.mk.injEq] at hr
    simp only [Header.width] at hn hr
    rw [← hr.2, List.length_drop]
    omega

/-- Reading a block takes at least its header. -/
theorem length_lt_of_readBlock {stream rest : Octets} {b : Block}
    (h : readBlock stream = .block b rest) : rest.length < stream.length := by
  simp only [readBlock] at h
  split at h
  · cases h
  · rename_i hr
    split at h
    · cases h
    · injection h with _ hrest
      have := length_lt_of_readHeader hr
      rw [← hrest, List.length_drop]
      omega

end ShellFlow
