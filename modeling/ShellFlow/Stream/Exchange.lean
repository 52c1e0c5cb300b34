import ShellFlow.Stream.Block

/-!
# Running a filter on a stream of blocks

A filter is started for every group of blocks that belong together.  It gets their bodies, and its
reply becomes a group of blocks again.

## Design Notes

Both pipes to a filter may stop at any octet, so a write takes some part of what is pending, at
least one octet, and a read brings some part of the reply.  The pace is a parameter for this reason.
A reply that has grown long is handed on before the filter has ended, in a block that is not the
last of its group.  Where one read ends and the next begins leaves no trace, so a pace counts octets
only.
-/

namespace ShellFlow

/-- How long a reply grows before it is handed on. -/
def replyLimit : Nat := 1024 * 1024

/-- What happens at one look at the input: how much of the reply is read, and how much the filter
takes at most. -/
structure Pace where
  taken : Nat
  given : Nat

/-- A filter that is running. -/
structure Exchange where
  /-- The number of the block that is being read. -/
  id : Int
  /-- Whether it is the last of those that belong together. -/
  last : Bool
  /-- How much of its body is to come. -/
  left : Nat
  /-- What was read and not yet taken by the filter. -/
  pending : Octets := []
  /-- What the filter has taken. -/
  given : Octets := []
  /-- How much of the reply was read and not handed on. -/
  held : Nat := 0
  /-- The blocks of the reply that were handed on: their numbers and lengths. -/
  early : List (Int × Nat) := []

namespace Exchange

/-- A filter that has not been given anything. -/
def idle : Exchange := { id := 0, last := false, left := 0 }

variable (e : Exchange)

/-- The filter goes on with the next block of its group. -/
def goOn (h : Header) : Exchange := { e with id := h.id, last := h.last, left := h.size }

/-- Whether the filter has taken all that was read, and the block is at its end. -/
def drained : Bool := e.left == 0 && e.pending.isEmpty

/-- How much is read at one look at the input. -/
def request : Nat := min bufferSize e.left

/-- One look at the input, which brings `piece`. -/
def advance (p : Pace) (piece : Octets) : Exchange :=
  let pending := e.pending ++ piece
  let most := max 1 p.given
  let held := e.held + p.taken
  let long := decide (held > replyLimit)
  { e with
    left := e.left - piece.length
    pending := pending.drop most
    given := e.given ++ pending.take most
    held := if long then 0 else held
    early := if long then e.early ++ [(e.id, held)] else e.early }

/-!
### Termination

What is pending gets shorter, or a header is read.
-/

theorem length_advance_pending (p : Pace) (piece : Octets) :
    (e.advance p piece).pending.length = e.pending.length + piece.length - max 1 p.given := by
  simp [advance]

/-- A look at the input makes what is pending shorter than what was there, unless the next header is
due. -/
theorem length_advance_pending_lt (p : Pace) {piece : Octets}
    (hpiece : piece.length = e.request) (hopen : ¬ (e.drained ∧ e.last))
    (hmore : ¬ ((e.advance p piece).drained ∧ ¬ (e.advance p piece).last)) :
    (e.advance p piece).pending.length < e.pending.length + piece.length := by
  rw [length_advance_pending]
  by_cases hz : e.pending.length + piece.length = 0
  · have hp : e.pending = [] := List.eq_nil_of_length_eq_zero (by omega)
    have hleft : e.left = 0 := by
      have : min bufferSize e.left = 0 := by rw [← request, ← hpiece]; omega
      simp only [bufferSize] at this
      omega
    have hpiece' : piece = [] := List.eq_nil_of_length_eq_zero (by omega)
    have hlast : e.last = false := by simpa [drained, hp, hleft] using hopen
    exact absurd ⟨by simp [drained, advance, hp, hleft, hpiece'], by simp [advance, hlast]⟩ hmore
  · omega

end Exchange

/-! ### Replies -/

/-- A reply as blocks: those that were handed on early, by number and length, and the last. -/
def replyBlocks (id : Int) : (early : List (Int × Nat)) → Octets → List Block
  | [], reply => [⟨id, true, reply⟩]
  | (number, n) :: early, reply =>
      ⟨number, false, reply.take n⟩ :: replyBlocks id early (reply.drop n)

/-- The replies of a filter that is running, and those to all groups behind.  The pace at the `n`-th
look at the input is `pace n`.  A stream that ends inside a group gets no reply to it. -/
def exchangeFrom (filter : Octets → Octets) (pace : Nat → Pace) (n : Nat) (e : Exchange)
    (stream : Octets) : List Block :=
  if _ : e.drained ∧ e.last then
    replyBlocks e.id e.early (filter e.given) ++
      match _ : readHeader stream with
      | none => []
      | some (h, rest) => exchangeFrom filter pace n (Exchange.idle.goOn h) rest
  else if _ : stream.length < e.request then []
  else
    let advanced := e.advance (pace n) (stream.take e.request)
    if _ : advanced.drained ∧ ¬ advanced.last then
      match _ : readHeader (stream.drop e.request) with
      | none => []
      | some (h, rest) => exchangeFrom filter pace (n + 1) (advanced.goOn h) rest
    else exchangeFrom filter pace (n + 1) advanced (stream.drop e.request)
termination_by 2 * stream.length + e.pending.length
decreasing_by
  · have hlt := length_lt_of_readHeader ‹_›
    simp only [Exchange.idle, Exchange.goOn, List.length_nil]
    omega
  · have hlt := length_lt_of_readHeader ‹_›
    have hp : (e.advance (pace n) (stream.take e.request)).pending.length = 0 := by
      have hd := And.left ‹(e.advance (pace n) (stream.take e.request)).drained ∧ _›
      simp only [Exchange.drained, Bool.and_eq_true, List.isEmpty_iff] at hd
      rw [hd.2, List.length_nil]
    simp only [Exchange.goOn, List.length_drop] at hlt ⊢
    omega
  · have hl : (stream.take e.request).length = e.request := by simp; omega
    have hlt := e.length_advance_pending_lt (pace n) hl ‹_› ‹_›
    simp only [List.length_drop]
    omega

/-- The replies of a filter that waits for the next header of a stream, and those to all groups
behind. -/
def resume (filter : Octets → Octets) (pace : Nat → Pace) (n : Nat) (e : Exchange)
    (stream : Octets) : List Block :=
  match readHeader stream with
  | none => []
  | some (h, rest) => exchangeFrom filter pace n (e.goOn h) rest

def exchange (filter : Octets → Octets) (pace : Nat → Pace) (stream : Octets) : List Block :=
  resume filter pace 0 .idle stream

/-- Runs a filter on a stream of blocks at one pace: the filter takes all that is there, and its
reply is read at its end. -/
def wrapStream (filter : Octets → Octets) (stream : Octets) : List Block :=
  exchange filter (fun _ => { taken := 0, given := bufferSize }) stream

end ShellFlow
