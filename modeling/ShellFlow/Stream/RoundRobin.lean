import ShellFlow.Stream.Block

/-!
# Dealing out a stream

The octets of an input are cut into blocks, and the outputs get them in turn.  Or the lines of an
input go to the first output, then to the second, and so on.

## Design Notes

By lines, the first round shares what is there equally among the outputs, so that a small input
reaches all of them.  After it the input comes in pieces.  A piece is cut behind the last line end
of its later half, and what is behind the cut is carried over to the next block.  A piece without
such a line end is a block that is continued on the same output.  What is carried over at the end
goes to the output of the block before it.

Positions are machine words.  In a piece of one or two octets the later half starts at the first,
and a search that finds no line end leaves the piece.  The first round takes as many octets as a
machine word tells, so shares of a length that does not fit may end behind them.

For consecutive parts a line is counted before its output is chosen.  The line that completes a
batch opens the next output, and counting starts again behind it.  So the first output gets one line
less than a batch.  The last output gets all that is left.  The number of lines in a batch is a
machine word.
-/

namespace ShellFlow

/-- A block and the output it goes to. -/
structure Dealt where
  output : Nat
  block : Block
deriving DecidableEq

namespace RoundRobin

/-- How long the blocks of an input are if nothing else is asked: a twelfth of it, but no more than
a mebibyte. -/
def lengthFor (size : Nat) : Nat := min (size / 12) (1024 * 1024)

/-- How many octets are read at once into a buffer that has one place more than a batch.  The number
of places is a signed machine word of 32 bits.  A batch for which it is none has no buffer, and
nothing is read. -/
def pieceLength (batch : Int) : Nat := if 0 ≤ batch ∧ batch + 1 < 0x80000000 then batch.toNat else 0

/-- Blocks of one length from a number on, dealt out in turn. -/
def byLength (length outs id : Nat) (data : Octets) : List Dealt :=
  if data.length = 0 ∨ length = 0 then []
  else
    ⟨id % outs, ⟨id, true, data.take length⟩⟩ :: byLength length outs (id + 1) (data.drop length)
termination_by data.length
decreasing_by simp only [List.length_drop]; omega

/-- A position as a signed machine word of 32 bits. -/
def signed (n : Nat) : Int :=
  let word := n % 0x100000000
  if word < 0x80000000 then word else word - 0x100000000

/-- How much an output gets in the first round: what there is up to the last line end within its
share.  Before it, `start` octets have been dealt out. -/
def shareCut (share output start : Nat) (rest : Octets) : Nat :=
  Octets.behindLast Octets.newline (rest.take (signed ((output + 1) * share) + 1 - start).toNat)

/-- The blocks of the first round.  Every output but the last gets its share; the last gets the
rest.  Before the output `output`, `start` octets have been dealt out. -/
def firstRound (share : Nat) (closed : Bool) (output start : Nat) (rest : Octets) :
    (left : Nat) → List Dealt
  | 0 => [⟨output, ⟨output, closed, rest⟩⟩]
  | left + 1 =>
    let n := shareCut share output start rest
    ⟨output, ⟨output, true, rest.take n⟩⟩ ::
      firstRound share closed (output + 1) (start + n) (rest.drop n) left

/-- Where a piece is cut: behind the last line end of its later half. -/
def lateLineEnd (piece : Octets) : Except Fault (Option Nat) :=
  let middle := (piece.length - 1) / 2
  let n := Octets.behindLast Octets.newline (piece.drop middle)
  if 0 < n then .ok (some (middle + n))
  else if middle = 0 then .error .outOfRange
  else .ok none

/-- Whose turn it is, and what is carried over. -/
structure Turn where
  output : Nat
  /-- The number of the next block. -/
  id : Nat
  /-- What is carried over to the next block. -/
  carried : Octets := []
  /-- The output of the block before. -/
  previous : Nat := 0

/-- The blocks after the first round. -/
def laterRounds (batch outs : Nat) (t : Turn) (data : Octets) : Except Fault (List Dealt) :=
  if data.length = 0 ∨ batch = 0 then
    if t.carried.isEmpty then .ok [] else .ok [⟨t.previous, ⟨t.id, true, t.carried⟩⟩]
  else do
    let piece := data.take batch
    match ← lateLineEnd piece with
    | none =>
      let block : Block := ⟨t.id, decide (piece.length < batch), t.carried ++ piece⟩
      let turn : Turn := { output := t.output, id := t.id, previous := t.output }
      return ⟨t.output, block⟩ :: (← laterRounds batch outs turn (data.drop batch))
    | some n =>
      let block : Block := ⟨t.id, true, t.carried ++ piece.take n⟩
      let turn : Turn :=
        { output := (t.output + 1) % outs, id := t.id + 1, carried := piece.drop n,
          previous := t.output }
      return ⟨t.output, block⟩ :: (← laterRounds batch outs turn (data.drop batch))
termination_by data.length
decreasing_by all_goals (simp only [List.length_drop]; omega)

/-- Blocks that end at line ends where they can.  The first round takes `payload` octets, and the
pieces after it have the length `batch`. -/
def byLines (payload batch outs : Nat) (data : Octets) : Except Fault (List Dealt) := do
  let start := data.take payload
  if start.isEmpty then laterRounds batch outs { output := 0, id := 0 } data
  else
    let short := decide (start.length < payload)
    let share := if short then start.length / outs else batch
    let closed := short || start.getLast? == some Octets.newline
    let turn : Turn :=
      if closed then { output := 0, id := outs } else { output := outs - 1, id := outs - 1 }
    let later ← laterRounds batch outs turn (data.drop payload)
    return firstRound share closed 0 0 start (outs - 1) ++ later

/-- Whether the share of an output ends behind the octets of the first round. -/
def overreaches (payload batch outs : Nat) (data : Octets) : Bool :=
  let start := data.take payload
  let share := if start.length < payload then start.length / outs else batch
  !start.isEmpty && (List.range (outs - 1)).any fun i =>
    decide (start.length ≤ signed ((i + 1) * share))

def outputs (outs : Nat) (dealt : List Dealt) : List (List Block) :=
  (List.range outs).map fun i => (dealt.filter (·.output == i)).map (·.block)

end RoundRobin

/-! ### The bodies of one stream of blocks, or of several in turn -/

def unwrap (stream : Octets) : Octets :=
  match _ : readBlock stream with
  | .block b rest => b.body ++ unwrap rest
  | .ended => []
  | .cut body => body
termination_by stream.length
decreasing_by exact length_lt_of_readBlock ‹_›

/-- How many items some lists have together. -/
def totalLength {α : Type} : List (List α) → Nat
  | [] => 0
  | xs :: xss => xs.length + totalLength xss

/-- There are fewer items together when a list becomes shorter. -/
theorem totalLength_set_lt {α : Type} {xss : List (List α)} {i : Nat} {xs ys : List α}
    (hi : xss[i]? = some xs) (h : ys.length < xs.length) :
    totalLength (xss.set i ys) < totalLength xss := by
  induction xss generalizing i with
  | nil => simp at hi
  | cons zs xss ih =>
    cases i with
    | zero =>
      simp only [List.getElem?_cons_zero, Option.some.injEq] at hi
      subst hi
      simpa [totalLength] using h
    | succ i =>
      simp only [List.getElem?_cons_succ] at hi
      simpa [totalLength] using ih hi

/-- The bodies of several streams.  From the stream whose turn it is come blocks up to a last one,
then it is the turn of the next stream.  The first stream that has ended ends it all. -/
def mergeFrom (streams : List Octets) (turn : Nat) : Octets :=
  match _ : streams[turn]? with
  | none => []
  | some stream =>
    match _ : readBlock stream with
    | .block b rest =>
      let next := if b.last then (turn + 1) % streams.length else turn
      b.body ++ mergeFrom (streams.set turn rest) next
    | .ended => []
    | .cut body => body
termination_by totalLength streams
decreasing_by exact totalLength_set_lt ‹_› (length_lt_of_readBlock ‹_›)

/-- The bodies of several streams, from the first stream on. -/
def mergeStreams (streams : List Octets) : Octets := mergeFrom streams 0

/-! ### Consecutive parts -/

namespace Consecutive

/-- The lines with their outputs.  `count` lines have been counted for the output `current`. -/
def assign (batch : UInt32) (last : Nat) (current : Nat) (count : UInt32) :
    List Octets → List (Nat × Octets)
  | [] => []
  | line :: lines =>
    if count + 1 = batch ∧ current < last then
      (current + 1, line) :: assign batch last (current + 1) 0 lines
    else (current, line) :: assign batch last current (count + 1) lines

/-- What is written of a line: it ends before an octet zero. -/
def written (line : Octets) : Octets := line.takeWhile (· != 0)

/-- What every output gets of an input. -/
def outputs (batch : Int) (outs : Nat) (data : Octets) : List Octets :=
  let assigned := assign (UInt32.ofInt batch) (outs - 1) 0 0 (Octets.lines data)
  (List.range outs).map fun i => (assigned.filter (·.1 == i)).flatMap fun p => written p.2

end Consecutive

end ShellFlow
