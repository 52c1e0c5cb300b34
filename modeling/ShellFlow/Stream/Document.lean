import ShellFlow.Stream.Block
import ShellFlow.Value

/-!
# Streams as documents

Octets are written in hexadecimal notation.  A block is a list of its number, the length of its
body, its mark and its body.
-/

namespace ShellFlow

namespace Octets

def toValue (xs : Octets) : Value := .text xs.hex

def ofValue (v : Value) : Except Fault Octets := do
  match ofHex? (← v.asText) with
  | some xs => return xs
  | none => .error .malformed

/-- Octets that are given as text, which may be repeated, or in hexadecimal notation. -/
def dataOfValue (v : Value) : Except Fault Octets := do
  match v.get "text" with
  | .text s => return (List.replicate ((v.get "repeat").intD 1).toNat (← Text.octets s)).flatten
  | _ => ofValue (v.get "hex")

def blockOfValue : Value → Except Fault Octets
  | .list [id, last, body] => do
    return Block.encode ⟨← id.asInt, (← last.asInt) != 0, ← ofValue body⟩
  | .list [id, size, last, body] => do
    let header : Header := ⟨← id.asInt, ((← size.asInt) % range 64).toNat, (← last.asInt) != 0⟩
    return Header.encode header ++ (← ofValue body)
  | _ => .error .malformed

/-- The octets of a stream that is given as a list of blocks or in hexadecimal notation. -/
def streamOfValue : Value → Except Fault Octets
  | .list blocks => do return (← blocks.mapM blockOfValue).flatten
  | v => ofValue v

end Octets

def Block.toValue (b : Block) : Value :=
  .list [.int b.id, .int b.body.length, .int (if b.last then 1 else 0), b.body.toValue]

end ShellFlow
