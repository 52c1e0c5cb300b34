import ShellFlow.Proofs.Text
import ShellFlow.Stream.RoundRobin

/-!
# Reading back what was dealt out

A dealing writes blocks to several outputs, and a merge reads them back in turn.  The two agree as
long as every block was written to the output from which the merge reads next.
-/

namespace ShellFlow

open List

variable {ds es : List Dealt} {outs turn : Nat} {rest stream : Octets} {streams : List Octets}
  (b : Block) (behind : Nat → Octets) (d : Dealt)

/-! ### Blocks read back -/

/-- The length of the body is a machine word. -/
def Block.Fits : Prop := b.body.length < Octets.range 64

/-- What a reader gets of a block: its number is a machine word with a sign. -/
def Block.asRead : Block := { b with id := Int.bmod b.id (Octets.range 64) }

@[simp] theorem Block.asRead_body : b.asRead.body = b.body := rfl

@[simp] theorem Block.asRead_last : b.asRead.last = b.last := rfl

@[simp] theorem Header.length_encode (h : Header) : h.encode.length = Header.width := by
  simp [Header.encode, Header.width]

/-- A header whose length is a machine word reads back. -/
theorem Header.decode_encode (h : Header) (hsize : h.size < Octets.range 64) :
    Header.decode h.encode = { h with id := Int.bmod h.id (Octets.range 64) } := by
  have hpos : (0 : Int) < Octets.range 64 := by decide
  have hnonneg := Int.emod_nonneg h.id (Int.ne_of_gt hpos)
  have hid : (h.id % Octets.range 64).toNat < Octets.range 64 := by
    have hlt := Int.emod_lt_of_pos h.id hpos
    omega
  have hbmod : Int.bmod (h.id % Octets.range 64).toNat (Octets.range 64) =
      Int.bmod h.id (Octets.range 64) := by
    rw [Int.toNat_of_nonneg hnonneg, Int.emod_bmod]
  have hlast : (some (if h.last then (1 : UInt8) else 0) != some 0) = h.last := by
    cases h.last <;> rfl
  have hpow : Octets.range 64 = Nat.pow 256 8 := rfl
  simp only [Header.decode, Header.encode, List.append_assoc]
  rw [take_left' (Octets.length_little 8 _), drop_left' (Octets.length_little 8 _),
    take_left' (Octets.length_little 8 _), Octets.ofLittle_little 8 _ (hpow ▸ hid),
    Octets.ofLittle_little 8 _ (hpow ▸ hsize), hbmod]
  simp [hlast]

theorem readHeader_encode_append (h : Header) (rest : Octets) (hsize : h.size < Octets.range 64) :
    readHeader (h.encode ++ rest) =
      some ({ h with id := Int.bmod h.id (Octets.range 64) }, rest) := by
  have hlen : ¬ (h.encode ++ rest).length < Header.width := by simp
  rw [readHeader, if_neg hlen, take_left' h.length_encode, drop_left' h.length_encode,
    h.decode_encode hsize]

theorem readBlock_of_readHeader {h : Header} (hr : readHeader stream = some (h, rest))
    (hsize : h.size ≤ rest.length) :
    readBlock stream = .block ⟨h.id, h.last, rest.take h.size⟩ (rest.drop h.size) := by
  simp only [readBlock, hr]
  rw [if_neg (by omega)]

/-- **A block reads back, whatever is behind it.** -/
theorem readBlock_encode_append (rest : Octets) (hb : b.Fits) :
    readBlock (b.encode ++ rest) = .block b.asRead rest := by
  have hread := readHeader_encode_append b.header (b.body ++ rest) hb
  rw [Block.encode, List.append_assoc, readBlock_of_readHeader hread (by simp [Block.header])]
  simp [Block.header, Block.asRead]

@[simp] theorem readBlock_nil : readBlock [] = .ended := rfl

/-! ### Whose turn it is -/

/-- Whose turn it is behind a block. -/
def nextTurn (outs turn : Nat) (last : Bool) : Nat := if last then (turn + 1) % outs else turn

theorem nextTurn_lt (h : turn < outs) (last : Bool) : nextTurn outs turn last < outs := by
  cases last
  · exact h
  · exact Nat.mod_lt _ (by omega)

/-- Every block goes to the output whose turn it is. -/
def InTurn (outs : Nat) : Nat → List Dealt → Prop
  | _, [] => True
  | turn, d :: ds => d.output = turn ∧ InTurn outs (nextTurn outs turn d.block.last) ds

/-- Whose turn it is behind some blocks. -/
def turnAfter (outs : Nat) : Nat → List Dealt → Nat
  | turn, [] => turn
  | turn, d :: ds => turnAfter outs (nextTurn outs turn d.block.last) ds

theorem inTurn_append :
    InTurn outs turn (ds ++ es) ↔ InTurn outs turn ds ∧
    InTurn outs (turnAfter outs turn ds) es := by
  induction ds generalizing turn with
  | nil => simp [InTurn, turnAfter]
  | cons _ _ ih => simp [InTurn, turnAfter, ih, and_assoc]

theorem turnAfter_append :
    turnAfter outs turn (ds ++ es) = turnAfter outs (turnAfter outs turn ds) es := by
  induction ds generalizing turn with
  | nil => rfl
  | cons _ _ ih => exact ih

theorem turnAfter_lt (h : turn < outs) (ds : List Dealt) : turnAfter outs turn ds < outs := by
  induction ds generalizing turn with
  | nil => exact h
  | cons _ _ ih => exact ih (nextTurn_lt h _)

/-! ### The outputs of a dealing -/

/-- All that was dealt out. -/
def bodies (ds : List Dealt) : Octets := ds.flatMap (·.block.body)

@[simp] theorem bodies_nil : bodies [] = [] := rfl

@[simp] theorem bodies_cons (ds : List Dealt) : bodies (d :: ds) = d.block.body ++ bodies ds := rfl

@[simp] theorem bodies_append (ds es : List Dealt) :
    bodies (ds ++ es) = bodies ds ++ bodies es := by
  simp [bodies]

/-- The blocks of an output. -/
def blocksOf (ds : List Dealt) (i : Nat) : List Block := (ds.filter (·.output == i)).map (·.block)

@[simp] theorem blocksOf_nil (i : Nat) : blocksOf [] i = [] := rfl

theorem blocksOf_cons (ds : List Dealt) (i : Nat) :
    blocksOf (d :: ds) i = if d.output = i then d.block :: blocksOf ds i else blocksOf ds i := by
  by_cases h : d.output = i <;> simp [blocksOf, h]

theorem blocksOf_append (ds es : List Dealt) (i : Nat) :
    blocksOf (ds ++ es) i = blocksOf ds i ++ blocksOf es i := by
  simp [blocksOf]

/-- What holds of every block that is dealt out holds of the blocks of every output. -/
theorem forall_mem_outputs {P : Block → Prop} (h : ∀ d ∈ ds, P d.block) :
    ∀ blocks ∈ RoundRobin.outputs outs ds, ∀ b ∈ blocks, P b := by
  intro blocks hblocks b hb
  obtain ⟨i, -, rfl⟩ := mem_map.1 hblocks
  obtain ⟨d, hd, rfl⟩ := mem_map.1 hb
  exact h d (mem_filter.1 hd).1

def fileOf (ds : List Dealt) (i : Nat) : Octets := (blocksOf ds i).flatMap Block.encode

@[simp] theorem fileOf_nil (i : Nat) : fileOf [] i = [] := rfl

theorem fileOf_cons (ds : List Dealt) (i : Nat) :
    fileOf (d :: ds) i = (if d.output = i then d.block.encode else []) ++ fileOf ds i := by
  by_cases h : d.output = i <;> simp [fileOf, blocksOf_cons, h]

theorem fileOf_append (ds es : List Dealt) (i : Nat) :
    fileOf (ds ++ es) i = fileOf ds i ++ fileOf es i := by
  simp [fileOf, blocksOf_append]

/-- What is written to the outputs. -/
def files (outs : Nat) (ds : List Dealt) : List Octets :=
  (RoundRobin.outputs outs ds).map (·.flatMap Block.encode)

theorem files_eq_map_fileOf (outs : Nat) (ds : List Dealt) :
    files outs ds = (List.range outs).map (fileOf ds) := by
  simp [files, RoundRobin.outputs, fileOf, blocksOf, Function.comp_def]

/-! ### Merging -/

theorem mergeFrom_of_block {b : Block} (hi : streams[turn]? = some stream)
    (h : readBlock stream = .block b rest) : mergeFrom streams turn =
      b.body ++ mergeFrom (streams.set turn rest) (nextTurn streams.length turn b.last) := by
  rw [mergeFrom]
  split
  · rename_i hn
    rw [hi] at hn
    cases hn
  · rename_i stream' hs
    obtain rfl : stream' = stream := by simpa [hs] using hi
    split <;> simp_all [nextTurn]

theorem mergeFrom_of_ended (hi : streams[turn]? = some stream) (h : readBlock stream = .ended) :
    mergeFrom streams turn = [] := by
  rw [mergeFrom]
  split
  · rfl
  · rename_i stream' hs
    obtain rfl : stream' = stream := by simpa [hs] using hi
    split <;> simp_all

/-- Taking the front of one of several streams that are given by their number. -/
theorem map_range_set (f : Nat → Octets) (rest : Octets) : ((List.range outs).map f).set turn rest =
      (List.range outs).map fun i => if i = turn then rest else f i := by
  apply ext_getElem
  · simp
  · intro i hi _
    by_cases h : turn = i
    · simp [h]
    · simp [h, Ne.symm h]

/-- The first block of a dealing is the first of its output, and behind it are the other blocks. -/
theorem readBlock_fileOf_cons {d : Dealt} (ds : List Dealt) (hout : d.output = turn)
    (hfit : d.block.Fits) : readBlock (fileOf (d :: ds) turn ++ behind turn) =
      .block d.block.asRead (fileOf ds turn ++ behind turn) ∧
      ((List.range outs).map fun i => fileOf (d :: ds) i ++ behind i).set turn
      (fileOf ds turn ++ behind turn) =
        (List.range outs).map fun i => fileOf ds i ++ behind i := by
  constructor
  · rw [fileOf_cons, if_pos hout, List.append_assoc, readBlock_encode_append _ _ hfit]
  · rw [map_range_set]
    refine map_congr_left fun i _ => ?_
    by_cases hi : i = turn
    · simp [hi]
    · have hne : d.output ≠ i := by rw [hout]; exact Ne.symm hi
      simp [hi, fileOf_cons, hne]

/-- **A merge gives what was dealt in turn, in its order, and goes on with what is behind it.** -/
theorem mergeFrom_files (ds : List Dealt) (turn : Nat) (hturn : turn < outs)
    (hin : InTurn outs turn ds) (hfit : ∀ d ∈ ds, d.block.Fits) :
    mergeFrom ((List.range outs).map fun i => fileOf ds i ++ behind i) turn =
      bodies ds ++ mergeFrom ((List.range outs).map behind) (turnAfter outs turn ds) := by
  induction ds generalizing turn with
  | nil => simp [turnAfter]
  | cons d ds ih =>
    obtain ⟨hout, hin⟩ := hin
    obtain ⟨hread, hset⟩ := @readBlock_fileOf_cons outs turn behind d ds hout (hfit d (by simp))
    rw [mergeFrom_of_block (by simp [hturn]) hread, hset, length_map, length_range,
      Block.asRead_body, Block.asRead_last,
      ih _ (nextTurn_lt hturn _) hin (fun e he => hfit e (by simp [he])), bodies_cons, turnAfter,
      List.append_assoc]

/-- Streams without octets merge to nothing. -/
theorem mergeFrom_of_nil (hi : streams[turn]? = some []) : mergeFrom streams turn = [] :=
  mergeFrom_of_ended hi readBlock_nil

end ShellFlow
