import ShellFlow.Proofs.Stream.Filtering
import ShellFlow.Proofs.Stream.Looking

/-!
# The programs on streams together

A stream is dealt out by lines, a filter runs on every output at a pace of its own, and the replies
are merged.  If the filter works line by line, that is the reply to the stream as a whole.

## Contents

* **The command line** (`SplitCommand.parse_plain`, `SplitCommand.parse_raw`): what the words of a
  command line ask for.  Options may stand in front, and the words behind them are the input, the
  batch and the outputs.
* **Staying inside** (`SplitCommand.PiecesFit`, `SplitCommand.inside_iff`): the program deals with a
  command line only as far as it stays inside its buffers.  `SplitCommand.SharesFit` is about the
  first round, and `PiecesFit` about the pieces behind it.
* **The program** (`Program.deal_eq_ok`, `Program.deal_eq_error`): when a dealing succeeds, and when
  it fails.
* **The programs together** (`Program.merge_exchange_deal`).

## Design Notes

The number of octets in a first round is a machine word of 32 bits, and so is the number of places
in a buffer.  A batch and a number of outputs may be so large that neither is what was meant.  The
main result does not exclude them: it says that the program fails there, and that it does so nowhere
else.
-/

namespace ShellFlow

open List

/-! ### The command line -/

namespace SplitCommand

variable {batch input output : String} {c : SplitCommand} {outputs : List String}

/-- A command line without options. -/
def Plain (argv : List String) : Prop := ∀ word ∈ argv, word ≠ "-b" ∧ word ≠ "-r"

def placeAt (c : SplitCommand) (position : Nat) : Nat :=
    if c.hasOption then position - 1 else position

theorem placeAt_succ {position place : Nat} (h : c.placeAt position = place + 1) :
    c.placeAt (position + 1) = place + 2 := by
  rw [placeAt] at h ⊢
  split at h
  · next hoption =>
    rw [if_pos hoption]
    omega
  · next hoption =>
    rw [if_neg hoption, h]

theorem placeAt_take (c : SplitCommand) (place : Nat) (word : String) (rest : List String)
    (position : Nat) : (c.take place word rest).placeAt position = c.placeAt position := by
  unfold take
  split <;> rfl

section Words

variable {position : Nat}

theorem readFrom_cons {word : String} {rest : List String} (h : word ≠ "-b" ∧ word ≠ "-r") :
    readFrom c position (word :: rest) =
      readFrom (c.take (c.placeAt position) word rest) (position + 1) rest := by
  rw [readFrom, if_neg h.1, if_neg h.2, placeAt]

/-- Behind the first output no word is looked at. -/
theorem readFrom_behind {argv : List String} (hplain : Plain argv) {place : Nat}
    (hplace : c.placeAt position = place + 4) : readFrom c position argv = c := by
  induction argv generalizing position place with
  | nil => rfl
  | cons _ _ ih =>
    obtain ⟨hword, hrest⟩ := forall_mem_cons.1 hplain
    rw [readFrom_cons hword, hplace]
    exact ih hrest (placeAt_succ hplace)

/-- The words of a command line without options are the input, the batch and the outputs. -/
theorem readFrom_words
    (hplain : Plain (input :: batch :: output :: outputs)) (hplace : c.placeAt position = 1) :
    readFrom c position (input :: batch :: output :: outputs) =
      { c with
        input := some input, batch := Text.leadingInt batch, outputs := output :: outputs } := by
  simp only [Plain, forall_mem_cons] at hplain
  obtain ⟨hinput, hbatch, houtput, houtputs⟩ := hplain
  have hsecond := placeAt_succ hplace
  have hthird := placeAt_succ hsecond
  have hfourth := placeAt_succ hthird
  rw [readFrom_cons hinput, readFrom_cons hbatch, readFrom_cons houtput]
  simp only [placeAt_take, hplace, hsecond, hthird]
  refine @readFrom_behind _ _ _ houtputs 0 ?_
  simp only [placeAt_take]
  exact hfourth

end Words

theorem parse_plain (hplain : Plain (input :: batch :: output :: outputs)) :
    parse (input :: batch :: output :: outputs) = .ok
      { input := some input, batch := Text.leadingInt batch, outputs := output :: outputs } := by
  rw [parse, if_neg (by simp), readFrom_words hplain rfl]
  simp [hasOption]

theorem parse_raw (hplain : Plain (input :: batch :: output :: outputs)) :
    parse ("-r" :: input :: batch :: output :: outputs) = .ok
      { input := some input, batch := Text.leadingInt batch, outputs := output :: outputs
        raw := true } := by
  have hread : readFrom {} 1 ("-r" :: input :: batch :: output :: outputs) =
      readFrom { raw := true } 2 (input :: batch :: output :: outputs) := by
    rw [readFrom, if_neg (by decide), if_pos rfl]
  rw [parse, if_neg (by simp), hread, readFrom_words hplain rfl]
  simp [hasOption]

theorem written_headers (hraw : c.raw = false) (blocks : List Block) :
    c.written blocks = blocks.flatMap Block.encode := by
  rw [written, hraw]
  rfl

end SplitCommand

theorem Text.leadingInt_lt (s : String) : Text.leadingInt s < Octets.range 31 :=
  Int.bmod_lt (by decide)

namespace Program

variable {files : List (String × Octets)} {argv : List String} {c : SplitCommand} {data : Octets}

/-- A dealing succeeds exactly if its words can be written, its command line and its input can be
read, and it stays inside its buffers. -/
theorem deal_eq_ok {outputs : List (List Block)} : deal files argv = .ok (c, outputs) ↔
      (∃ words, argv.mapM Octets.ofWord = .ok words) ∧ SplitCommand.parse argv = .ok c ∧
      ∃ data ds, c.input.bind (List.lookup · files) = some data ∧
        (c.overreaches data || c.unbuffered data) = false ∧ c.dealt data = .ok ds ∧
        outputs = RoundRobin.outputs c.outputs.length ds := by
  constructor
  · intro h
    obtain ⟨words, hwords, h⟩ := bind_eq_ok.1 h
    obtain ⟨c', hparse, h⟩ := bind_eq_ok.1 h
    split at h
    · cases h
    · next data hdata =>
      split at h
      · cases h
      · next hinside =>
        obtain ⟨ds, hds, h⟩ := bind_eq_ok.1 h
        cases h
        exact ⟨⟨words, hwords⟩, hparse, data, ds, hdata, Bool.eq_false_iff.2 hinside, hds, rfl⟩
  · rintro ⟨⟨words, hwords⟩, hparse, data, ds, hdata, hinside, hds, rfl⟩
    refine bind_eq_ok.2 ⟨words, hwords, bind_eq_ok.2 ⟨c, hparse, ?_⟩⟩
    simp only [hdata, hinside]
    exact bind_eq_ok.2 ⟨ds, hds, rfl⟩

/-- A dealing that would leave its buffers fails. -/
theorem deal_eq_error (hwords : ∃ words, argv.mapM Octets.ofWord = .ok words)
    (hparse : SplitCommand.parse argv = .ok c)
    (hinput : c.input.bind (List.lookup · files) = some data)
    (hleaves : (c.overreaches data || c.unbuffered data) = true) :
    deal files argv = .error .outOfRange := by
  obtain ⟨words, hwords⟩ := hwords
  rw [deal, hwords, hparse]
  simp only [bind, Except.bind, hinput, hleaves, if_true]

/-- A command line that can be read has an input, a batch and outputs. -/
theorem exists_words_of_parse (h : SplitCommand.parse argv = .ok c) :
    ∃ input batch output outputs, argv = input :: batch :: output :: outputs := by
  rw [SplitCommand.parse] at h
  split at h
  · cases h
  · next hlen =>
    match argv, hlen with
    | input :: batch :: output :: outputs, _ => exact ⟨input, batch, output, outputs, rfl⟩
    | [], hlen | [_], hlen | [_, _], hlen => simp at hlen

/-- A command line without options asks for blocks of lines with headers.  An option in front of it
leaves the headers out. -/
theorem plain_parse (hplain : SplitCommand.Plain argv) (h : SplitCommand.parse argv = .ok c) :
    c.byLength = false ∧ c.raw = false ∧ c.batch < Octets.range 31 ∧ 0 < c.outputs.length ∧
      SplitCommand.parse ("-r" :: argv) = .ok { c with raw := true } := by
  obtain ⟨input, batch, output, rest, rfl⟩ := exists_words_of_parse h
  obtain rfl := Except.ok.inj ((SplitCommand.parse_plain hplain).symm.trans h)
  exact ⟨rfl, rfl, Text.leadingInt_lt batch, Nat.succ_pos _, SplitCommand.parse_raw hplain⟩

end Program

/-! ### Staying inside -/

namespace SplitCommand

variable {c : SplitCommand} {data : Octets}

/-- The pieces behind the first round, if there are any, have a buffer. -/
def PiecesFit (c : SplitCommand) (data : Octets) : Prop :=
  c.payload < data.length → c.batch + 1 < Octets.range 31

theorem unbuffered_eq_false_iff (hlines : c.byLength = false) (hpos : 0 < c.batch) :
    c.unbuffered data = false ↔ c.PiecesFit data := by
  have hrange : Octets.range 31 = 2147483648 := rfl
  have hpiece : RoundRobin.pieceLength c.batch = 0 ↔ ¬ c.batch + 1 < Octets.range 31 := by
    rw [RoundRobin.pieceLength]
    split <;> omega
  have hne : c.batch ≠ 0 := by omega
  simp only [unbuffered, hlines, PiecesFit, Bool.false_and, Bool.not_false, Bool.true_and,
    Bool.and_eq_false_iff, bne_eq_false_iff_eq, hne, false_or, beq_eq_false_iff_ne, Ne, hpiece,
    not_not, decide_eq_false_iff_not]
  omega

/-- **A dealing by lines stays inside its buffers exactly if the shares of the first round end
inside it and the pieces behind it have a buffer.** -/
theorem inside_iff (hlines : c.byLength = false) (hpos : 0 < c.batch)
    (hlt : c.batch < Octets.range 31) : (c.overreaches data || c.unbuffered data) = false ↔
    c.SharesFit data ∧ c.PiecesFit data := by
  rw [Bool.or_eq_false_iff, overreaches_eq_false_iff_sharesFit hlines hpos hlt,
    unbuffered_eq_false_iff hlines hpos]

end SplitCommand

/-! ### The programs together -/

namespace Program

/-- **A filter on the outputs of a dealing is the filter on its input, if the dealing stays inside
its buffers.**  Whole lines are dealt out by lines, a filter that works line by line runs on every
output at a pace of its own, and its replies are merged: that is the reply to the input, if the
length of that reply is a machine word.  What the filter gets at once is whole lines.  A dealing
that does not stay inside fails.  All stay inside whose batches together, and whose buffers, are
machine words. -/
theorem merge_exchange_deal {files : List (String × Octets)} {argv : List String} {c : SplitCommand}
    {data : Octets} (hplain : SplitCommand.Plain argv)
    (hwords : ∃ words, argv.mapM Octets.ofWord = .ok words)
    (hparse : SplitCommand.parse argv = .ok c)
    (hinput : c.input.bind (List.lookup · files) = some data)
    (hbatch : 3 ≤ c.batch) (hdata : WholeLines data) :
    (c.SharesFit data ∧ c.PiecesFit data → ∃ outputs, deal files argv = .ok (c, outputs) ∧
      (∀ blocks ∈ outputs, ∀ g ∈ groups [] blocks, WholeLines g) ∧
      ∀ filter, LineByLine filter → (filter data).length < Octets.range 64 →
        ∀ pace : Nat → Nat → Pace, mergeStreams (outputs.mapIdx fun i blocks =>
          (exchange filter (pace i) (c.written blocks)).flatMap Block.encode) = filter data) ∧
    (¬ (c.SharesFit data ∧ c.PiecesFit data) → deal files argv = .error .outOfRange) ∧
    (c.batch * c.outputs.length < Octets.range 32 → c.batch + 1 < Octets.range 31 →
      c.SharesFit data ∧ c.PiecesFit data) := by
  obtain ⟨hlines, hraw, hlt, houts, -⟩ := plain_parse hplain hparse
  have hpos : 0 < c.batch := by omega
  have hinside := @SplitCommand.inside_iff c data hlines hpos hlt
  refine ⟨fun hfit => ?_, fun hleaves => ?_, fun hproduct hbuffer => ?_⟩
  · obtain ⟨ds, hds⟩ :=
      @RoundRobin.exists_byLines c.payload c.batch.toNat c.outputs.length (by omega) data hdata
    have hdealt : c.dealt data = .ok ds := by
      rw [SplitCommand.dealt_eq_byLines hlines hpos hlt, hds]
    obtain ⟨hin, hbodies, hlined⟩ := RoundRobin.byLines_of_wholeLines (by omega) houts hdata hds
    refine ⟨_, deal_eq_ok.2 ⟨hwords, hparse, data, ds, hinput, hinside.2 hfit, hdealt, rfl⟩, ?_, ?_⟩
    · intro blocks hblocks
      obtain ⟨i, -, rfl⟩ := mem_map.1 hblocks
      have hgroups := wholeLines_of_mem_groups hin hlined i
      rwa [ite_self] at hgroups
    · intro filter hfilter hlength pace
      have hfits := SplitCommand.fits_of_dealt hlines hpos hlt houts hdealt
      have hfiles : (RoundRobin.outputs c.outputs.length ds).mapIdx (fun i blocks =>
          (exchange filter (pace i) (c.written blocks)).flatMap Block.encode) =
          (ShellFlow.files c.outputs.length ds).mapIdx fun i file =>
            (exchange filter (pace i) file).flatMap Block.encode := by
        refine List.ext_getElem? fun i => ?_
        simp only [SplitCommand.written_headers hraw]
        rw [getElem?_mapIdx, getElem?_mapIdx, ShellFlow.files, getElem?_map, Option.map_map]
        rfl
      rw [hfiles, ← hbodies]
      exact mergeStreams_replies hfilter pace houts hin hfits hlined (hbodies ▸ hlength)
  · refine deal_eq_error hwords hparse hinput ?_
    rw [← Bool.not_eq_false, hinside]
    exact hleaves
  · exact ⟨SplitCommand.sharesFit_of_lt hpos hproduct data, fun _ => hbuffer⟩

/-- A filter that makes letters capital. -/
def capitals : Octets → Octets := List.map fun x => if 97 ≤ x ∧ x ≤ 122 then x - 32 else x

theorem merge_exchange_deal_capitals :
    LineByLine capitals ∧ WholeLines (.ofText "ab\ncd\na\nb\n") ∧
    ∃ c outputs, deal [("in", .ofText "ab\ncd\na\nb\n")] ["in", "3", "f", "g"] = .ok (c, outputs) ∧
      mergeStreams (outputs.mapIdx fun i blocks =>
        (exchange capitals (fun n => ⟨i, n⟩) (c.written blocks)).flatMap Block.encode) =
          .ofText "AB\nCD\nA\nB\n" := by
  have hfilter : LineByLine capitals := fun u v _ => List.map_append
  have hdata : WholeLines (.ofText "ab\ncd\na\nb\n") := Or.inr (by decide +kernel)
  have hplain : SplitCommand.Plain ["in", "3", "f", "g"] := by simp [SplitCommand.Plain]
  have hwords : ["in", "3", "f", "g"].mapM Octets.ofWord =
    .ok [[105, 110], [51], [102], [103]] := by decide +kernel
  have hnumber : Text.leadingInt "3" = 3 := by
    have hdigits : Text.leadingNumber "3".toList = 3 := by decide +kernel
    rw [Text.leadingInt, hdigits]
    decide
  have hparse := SplitCommand.parse_plain hplain
  rw [hnumber] at hparse
  have hreply : capitals (.ofText "ab\ncd\na\nb\n") = .ofText "AB\nCD\nA\nB\n" := by decide +kernel
  have hlength : (capitals (.ofText "ab\ncd\na\nb\n")).length < Octets.range 64 := by
    have hten : (capitals (.ofText "ab\ncd\na\nb\n")).length = 10 := by decide +kernel
    rw [hten]
    decide
  have hmain := @merge_exchange_deal [("in", .ofText "ab\ncd\na\nb\n")] _ _ _ hplain
    ⟨_, hwords⟩ hparse rfl
    (by decide) hdata
  obtain ⟨outputs, hdeal, -, hmerge⟩ := hmain.1 (hmain.2.2 (by decide) (by decide))
  exact ⟨hfilter, hdata, _, outputs, hdeal, (hmerge capitals hfilter hlength _).trans hreply⟩

/-- Four outputs, and a batch that is the fourth part of a machine word and one octet more: the
first round takes four octets, and the share of the first output ends behind them. -/
theorem deal_overreaches :
    SplitCommand.Plain ["in", "1073741825", "f", "g", "h", "i"] ∧ WholeLines (.ofText "ab\ncd\n") ∧
    deal [("in", .ofText "ab\ncd\n")] ["in", "1073741825", "f", "g", "h", "i"] =
      .error .outOfRange := by
  have hplain : SplitCommand.Plain ["in", "1073741825", "f", "g", "h", "i"] := by
    simp [SplitCommand.Plain]
  have hwords : ∃ words, ["in", "1073741825", "f", "g", "h", "i"].mapM Octets.ofWord = .ok words :=
    ⟨[[105, 110], [49, 48, 55, 51, 55, 52, 49, 56, 50, 53], [102], [103], [104],
      [105]], by decide +kernel⟩
  have hnumber : Text.leadingInt "1073741825" = 1073741825 := by
    have hdigits : Text.leadingNumber "1073741825".toList = 1073741825 := by decide +kernel
    rw [Text.leadingInt, hdigits]
    decide
  have hparse := SplitCommand.parse_plain hplain
  rw [hnumber] at hparse
  have hoverreaches : RoundRobin.overreaches 4 1073741825 4 (.ofText "ab\ncd\n") = true := by
    decide +kernel
  exact ⟨hplain, Or.inr (by decide +kernel),
    deal_eq_error hwords hparse rfl (Bool.or_eq_true _ _ ▸ Or.inl hoverreaches)⟩

end Program

end ShellFlow
