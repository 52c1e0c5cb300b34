import ShellFlow.Stream.Octets

/-!
# Messages over a transport

A message travels as its length in four octets and its body.  The transport hands out octets in
packets of any size.
-/

namespace ShellFlow

def Message.encode (body : Octets) : Octets := Octets.big 4 body.length ++ body

/-- Whether a message announces the length of its body. -/
def Message.announced (message : Octets) : Bool :=
    Octets.ofBig (message.take 4) == (message.drop 4).length

/-- Octets on their way.  The packet with the number `n` has at most `sizes n` octets. -/
structure Transport where
  pending : Octets
  sizes : Nat → Nat
  received : Nat := 0

namespace Transport

/-- The next packet, of at most some octets.  It is empty if the octets have ended. -/
def receive (t : Transport) (most : Nat) : Octets × Transport :=
  let n := min most (t.sizes t.received)
  (t.pending.take n, { t with pending := t.pending.drop n, received := t.received + 1 })

/-- As many octets as asked for, or nothing if they end before. -/
def receiveAll (t : Transport) (count : Nat) : Option Octets × Transport :=
  if count = 0 then (some [], t)
  else
    let (packet, rest) := t.receive count
    if packet.isEmpty then (none, rest)
    else
      let (more, rest) := rest.receiveAll (count - packet.length)
      (more.map (packet ++ ·), rest)
termination_by count
decreasing_by
  rename_i hp
  have : packet ≠ [] := by simpa using hp
  have := List.length_pos_iff.mpr this
  omega

/-- The next message, or nothing once the octets have ended. -/
def receiveMessage (t : Transport) : Option Octets × Transport :=
  match t.receiveAll 4 with
  | (none, t) => (none, t)
  | (some length, t) => t.receiveAll (Octets.ofBig length)

/-- What comes of asking for a message some number of times. -/
def receiveMessages (t : Transport) : Nat → List (Option Octets)
  | 0 => []
  | n + 1 =>
    let (message, t) := t.receiveMessage
    message :: t.receiveMessages n

end Transport

end ShellFlow
