import ShellFlow.Proofs.Lists
import ShellFlow.Proofs.Stream.Programs

/-!
# Dealing out without headers

A dealing without headers writes the bodies of the blocks, one behind the other.  That is what
taking the headers away leaves of the same dealing with headers.

Of whole lines every group is whole lines.  So although a group may be cut into blocks anywhere, no
line of the input is cut: every output is whole lines, and the lines of all outputs together are the
lines of the input, each as often as it was there.
-/

namespace ShellFlow

open List

variable {outs turn : Nat} {ds : List Dealt}

/-! ### Taking headers away -/

theorem unwrap_nil : unwrap [] = [] := by
  rw [unwrap]
  split <;> simp_all

theorem unwrap_encode_append {b : Block} (hb : b.Fits) (rest : Octets) :
    unwrap (b.encode ++ rest) = b.body ++ unwrap rest := by
  rw [unwrap, readBlock_encode_append b rest hb]
  rfl

/-- **Taking the headers away leaves the bodies.** -/
theorem unwrap_encode {blocks : List Block} (hfit : ∀ b ∈ blocks, b.Fits) :
    unwrap (blocks.flatMap Block.encode) = blocks.flatMap Block.body := by
  induction blocks with
  | nil => exact unwrap_nil
  | cons _ _ ih =>
    obtain ⟨hb, hblocks⟩ := forall_mem_cons.1 hfit
    rw [flatMap_cons, unwrap_encode_append hb, ih hblocks, flatMap_cons]

/-! ### The lines of a dealing -/

theorem WholeLines.append {u v : Octets} (hu : WholeLines u) (hv : WholeLines v) :
    WholeLines (u ++ v) := by
  rcases hv with rfl | hv
  · rwa [append_nil]
  · exact .inr (hv.append u)

/-- The lines of whole lines do not depend on what is behind them. -/
theorem Octets.lines_append {u : Octets} (hu : WholeLines u) (v : Octets) :
    Octets.lines (u ++ v) = Octets.lines u ++ Octets.lines v := by
  induction u with
  | nil => rfl
  | cons x u ih =>
    have hrest : WholeLines u := hu.drop 1
    rw [cons_append, lines, lines, ih hrest]
    split
    · rfl
    · next hx =>
      -- the line of `x` goes on, so it ends in `u`
      cases hlines : lines u with
      | nil =>
        have hnil : u = [] := by rw [← flatten_lines u, hlines, flatten_nil]
        subst hnil
        have hend : EndsLine [x] := hu.resolve_left (cons_ne_nil x [])
        exact absurd (Option.some.inj hend) hx
      | cons => rfl

/-- What one output of a dealing without headers holds. -/
def rawOf (ds : List Dealt) (i : Nat) : Octets := (blocksOf ds i).flatMap Block.body

@[simp] theorem rawOf_nil (i : Nat) : rawOf [] i = [] := rfl

theorem rawOf_cons (d : Dealt) (ds : List Dealt) (i : Nat) :
    rawOf (d :: ds) i = (if i = d.output then d.block.body else []) ++ rawOf ds i := by
  by_cases h : i = d.output
  · rw [rawOf, blocksOf_cons, if_pos h.symm, if_pos h, flatMap_cons, rawOf]
  · rw [rawOf, blocksOf_cons, if_neg (Ne.symm h), if_neg h, nil_append, rawOf]

/-- A block that leaves its group open only makes the group under way longer. -/
theorem append_rawOf_cons (gathered : Octets) (d : Dealt) (ds : List Dealt) (i : Nat) :
    (if i = d.output then gathered else []) ++ rawOf (d :: ds) i =
      (if i = d.output then gathered ++ d.block.body else []) ++ rawOf ds i := by
  rw [rawOf_cons]
  split
  · rw [List.append_assoc]
  · rfl

section Lined

variable {gathered : Octets}

/-- Every output of a dealing of groups that are whole lines is whole lines.  The output whose turn
it is may have a group under way. -/
theorem Lined.wholeLines_rawOf (hin : InTurn outs turn ds) (hlined : Lined gathered ds) (i : Nat) :
    WholeLines ((if i = turn then gathered else []) ++ rawOf ds i) := by
  induction ds generalizing turn gathered with
  | nil =>
    obtain rfl : gathered = [] := hlined
    exact .inl (by simp)
  | cons d _ ih =>
    obtain ⟨rfl, hin⟩ := hin
    rw [append_rawOf_cons]
    rw [Lined] at hlined
    cases hlast : d.block.last with
    | true =>
      rw [if_pos hlast] at hlined
      have hrest := ih hin hlined.2
      rw [ite_self, nil_append] at hrest
      refine WholeLines.append ?_ hrest
      split
      · exact hlined.1
      · exact .inl rfl
    | false =>
      rw [hlast] at hin
      rw [if_neg (by simp [hlast])] at hlined
      exact ih hin hlined

/-- **The lines of the outputs of a dealing are the lines of what was dealt.**  The induction is on
the blocks; a line end of the input is one of the output that gets it, since the group in front of
it is whole lines. -/
theorem Lined.lines_rawOf (hturn : turn < outs) (hin : InTurn outs turn ds)
    (hlined : Lined gathered ds) : ((List.range outs).flatMap fun i =>
      Octets.lines ((if i = turn then gathered else []) ++ rawOf ds i)).Perm
        (Octets.lines (gathered ++ bodies ds)) := by
  induction ds generalizing turn gathered with
  | nil =>
    obtain rfl : gathered = [] := hlined
    simp [Octets.lines]
  | cons d ds ih =>
    obtain ⟨rfl, hin⟩ := hin
    simp only [append_rawOf_cons]
    rw [Lined] at hlined
    rw [bodies_cons, ← List.append_assoc]
    cases hlast : d.block.last with
    | true =>
      rw [if_pos hlast] at hlined
      have hrest := ih (nextTurn_lt hturn _) hin hlined.2
      simp only [ite_self, nil_append] at hrest
      have hsplit : ∀ i,
          Octets.lines ((if i = d.output then gathered ++ d.block.body else []) ++ rawOf ds i) =
          (if i = d.output then Octets.lines (gathered ++ d.block.body) else []) ++
            Octets.lines (rawOf ds i) := by
        intro i
        split
        · exact Octets.lines_append hlined.1 _
        · rfl
      simp only [hsplit]
      rw [Octets.lines_append hlined.1]
      exact (flatMap_range_append_perm hturn _ _).trans (hrest.append_left _)
    | false =>
      rw [hlast] at hin
      rw [if_neg (by simp [hlast])] at hlined
      exact ih hturn hin hlined

end Lined

theorem map_outputs_eq_rawOf (outs : Nat) (ds : List Dealt) :
    (RoundRobin.outputs outs ds).map (·.flatMap Block.body) = (List.range outs).map (rawOf ds) :=
  map_map

/-! ### The program -/

namespace Program

/-- **A dealing without headers is the dealing with headers, with the headers taken away.**  Of
whole lines every output is whole lines, and the lines of all outputs are the lines of the input. -/
theorem deal_raw {files : List (String × Octets)} {argv : List String}
    (hplain : SplitCommand.Plain argv) {c : SplitCommand} {outputs : List (List Block)}
    (h : deal files argv = .ok (c, outputs)) (hbatch : 1 ≤ c.batch) :
    ∃ r, deal files ("-r" :: argv) = .ok (r, outputs) ∧ r.outputs = c.outputs ∧
      outputs.map r.written = (outputs.map c.written).map unwrap ∧
      ∀ data, c.input.bind (List.lookup · files) = some data → WholeLines data →
        (∀ file ∈ outputs.map r.written, WholeLines file) ∧
        ((outputs.map r.written).flatMap Octets.lines).Perm (Octets.lines data) := by
  obtain ⟨⟨words, hwords⟩, hparse, data, ds, hdata, hinside, hds, rfl⟩ := deal_eq_ok.1 h
  obtain ⟨hlines, hraw, hlt, houts, hparseRaw⟩ := plain_parse hplain hparse
  have hfits : ∀ blocks ∈ RoundRobin.outputs c.outputs.length ds, ∀ b ∈ blocks, b.Fits :=
    forall_mem_outputs (SplitCommand.fits_of_dealt hlines hbatch hlt houts hds)
  have hbodies : ∀ blocks, SplitCommand.written { c with raw := true } blocks =
    blocks.flatMap Block.body :=
    fun _ => rfl
  have hoption : Octets.ofWord "-r" = .ok [45, 114] := by decide +kernel
  refine ⟨{ c with raw := true },
    deal_eq_ok.2 ⟨⟨[45, 114] :: words, ?_⟩, hparseRaw, data, ds, hdata, ?_, ?_, rfl⟩, rfl, ?_,
    fun data' hdata' hwhole => ?_⟩
  · rw [List.mapM_cons, hoption, hwords]
    rfl
  · exact (@SplitCommand.inside_iff { c with raw := true } data hlines hbatch hlt).2
      ((SplitCommand.inside_iff hlines hbatch hlt).1 hinside)
  · rw [SplitCommand.dealt_eq_byLines hlines hbatch hlt] at hds
    rw [← hds]
    exact @SplitCommand.dealt_eq_byLines { c with raw := true } hlines hbatch hlt data
  · rw [List.map_map]
    refine List.map_congr_left fun blocks hblocks => ?_
    rw [hbodies, Function.comp_apply, SplitCommand.written_headers hraw,
      unwrap_encode (hfits blocks hblocks)]
  · obtain rfl : data = data' := Option.some.inj (hdata.symm.trans hdata')
    rw [SplitCommand.dealt_eq_byLines hlines hbatch hlt] at hds
    obtain ⟨hin, rfl, hlined⟩ := RoundRobin.byLines_of_wholeLines (by omega) houts hwhole hds
    rw [funext hbodies, map_outputs_eq_rawOf, List.forall_mem_map, List.flatMap_map]
    constructor
    · intro i _
      simpa only [ite_self, List.nil_append] using hlined.wholeLines_rawOf hin i
    · simpa only [ite_self, List.nil_append] using hlined.lines_rawOf houts hin

theorem deal_raw_shortLines :
    SplitCommand.Plain ["in", "2", "f", "g"] ∧
    ∃ c outputs, deal [("in", .ofText "a\nb\nc\n")] ["in", "2", "f", "g"] = .ok (c, outputs) ∧
      1 ≤ c.batch ∧ ∃ r, deal [("in", .ofText "a\nb\nc\n")] ["-r", "in", "2", "f", "g"] =
        .ok (r, outputs) ∧ outputs.map r.written = (outputs.map c.written).map unwrap ∧
        ((outputs.map r.written).flatMap Octets.lines).Perm
        (Octets.lines (.ofText "a\nb\nc\n")) := by
  have hplain : SplitCommand.Plain ["in", "2", "f", "g"] := by simp [SplitCommand.Plain]
  have hwords : ["in", "2", "f", "g"].mapM Octets.ofWord =
    .ok [[105, 110], [50], [102], [103]] := by decide +kernel
  have hbatch : Text.leadingInt "2" = 2 := by
    have hnumber : Text.leadingNumber "2".toList = 2 := by decide +kernel
    rw [Text.leadingInt, hnumber]
    decide
  have hdealt : SplitCommand.dealt { input := some "in", batch := 2, outputs := ["f", "g"] }
    (.ofText "a\nb\nc\n") =
      .ok [⟨0, ⟨0, true, .ofText "a\n"⟩⟩, ⟨1, ⟨1, true, .ofText "b\n"⟩⟩,
        ⟨0, ⟨2, true, .ofText "c\n"⟩⟩] := by
    rw [SplitCommand.dealt_eq_byLines rfl (by decide) (by decide)]
    show RoundRobin.byLines 4 2 2 _ = _
    decide +kernel
  have hinside :=
    (@SplitCommand.inside_iff { input := some "in", batch := 2, outputs := ["f", "g"] }
    (.ofText "a\nb\nc\n") rfl (by decide) (by decide)).2
    ⟨SplitCommand.sharesFit_of_lt (by decide) (by decide) _, fun _ => by decide⟩
  have hparse := SplitCommand.parse_plain hplain
  rw [hbatch] at hparse
  have hdeal : deal [("in", .ofText "a\nb\nc\n")] ["in", "2", "f", "g"] = .ok _ :=
    deal_eq_ok.2 ⟨⟨_, hwords⟩, hparse, .ofText "a\nb\nc\n", _, rfl, hinside, hdealt, rfl⟩
  obtain ⟨r, hr, -, hunwrap, hlines⟩ := deal_raw hplain hdeal (by decide)
  exact ⟨hplain, _, _,
    hdeal, by decide, r, hr, hunwrap, (hlines _ rfl (Or.inr (by decide +kernel))).2⟩

end Program

/-!
### Dealing out blocks of one length

In a dealing by length every block closes its group, and the outputs get the blocks in turn whatever
the length of the input.  So the merge comes back to an output exactly when its next block is due.
It stops at the output whose turn it would be to get one more block, and then all outputs have been
read to their end.
-/

variable {streams left : List Octets} {out : Octets}

/-- A merge from a turn on gives `out`, and then comes to a stream that has ended, with `left` of
all streams. -/
inductive Merges : List Octets → Nat → Octets → List Octets → Prop
  | ended {streams : List Octets} {turn : Nat} {stream : Octets}
      (here : streams[turn]? = some stream) (read : readBlock stream = .ended) :
      Merges streams turn [] streams
  | block {streams left : List Octets} {turn : Nat} {stream rest out : Octets} {b : Block}
      (here : streams[turn]? = some stream) (read : readBlock stream = .block b rest)
      (more : Merges (streams.set turn rest) (nextTurn streams.length turn b.last) out left) :
      Merges streams turn (b.body ++ out) left

theorem Merges.mergeFrom_eq (h : Merges streams turn out left) : mergeFrom streams turn = out := by
  induction h with
  | ended here read => exact mergeFrom_of_ended here read
  | block here read _ ih => rw [mergeFrom_of_block here read, ih]

/-- A merge of one stream gives what is left of it without headers. -/
theorem Merges.unwrap_eq {stream : Octets} (h : Merges [stream] 0 out left) :
    unwrap stream = out := by
  generalize hstreams : [stream] = streams at h
  generalize hturn : 0 = turn at h
  induction h generalizing stream with
  | ended here read =>
    subst hstreams hturn
    cases here
    rw [unwrap, read]
  | @block _ _ _ _ rest _ b here read _ ih =>
    subst hstreams hturn
    cases here
    rw [unwrap, read, ← @ih rest rfl (by cases b.last <;> simp [nextTurn])]

/-- **A merge reads all that was dealt in turn, to the end of every output.** -/
theorem merges_files (hturn : turn < outs) (hin : InTurn outs turn ds)
    (hfit : ∀ d ∈ ds, d.block.Fits) :
    Merges (files outs ds) turn (bodies ds) (List.replicate outs []) := by
  rw [files_eq_map_fileOf]
  induction ds generalizing turn with
  | nil =>
    have hnil : (List.range outs).map (fileOf []) = List.replicate outs [] := by
      rw [← length_range (n := outs), ← map_const', length_range]
      rfl
    rw [hnil]
    exact .ended (by simp [hturn]) readBlock_nil
  | cons d ds ih =>
    obtain ⟨hout, hin⟩ := hin
    obtain ⟨hread, hset⟩ :=
      @readBlock_fileOf_cons outs turn (fun _ => []) d ds hout (hfit d (by simp))
    simp only [append_nil] at hread hset
    show Merges _ _ (d.block.asRead.body ++ bodies ds) _
    refine .block (by simp [hturn]) hread ?_
    rw [hset, length_map, length_range]
    exact ih (nextTurn_lt hturn _) hin fun e he => hfit e (by simp [he])

/-- **A dealing by length is in turn and holds the input.**  The number of a block tells whose turn
it is. -/
theorem byLength_inTurn {length : Nat} (hlength : 0 < length) (outs id : Nat) (data : Octets) :
    InTurn outs (id % outs) (RoundRobin.byLength length outs id data) ∧
      bodies (RoundRobin.byLength length outs id data) = data ∧
      ∀ d ∈ RoundRobin.byLength length outs id data, d.block.body.length ≤ length := by
  induction hlen : data.length using Nat.strong_induction_on generalizing id data with
  | _ len ih =>
    rw [RoundRobin.byLength]
    split
    · next hend =>
      have hnil : data = [] := length_eq_zero_iff.1 (hend.resolve_right (by omega))
      exact ⟨trivial, hnil.symm, by simp⟩
    · next hmore =>
      have hlt : (data.drop length).length < len := by
        rw [length_drop]
        omega
      obtain ⟨hin, hbodies, hshort⟩ := ih _ hlt (id + 1) (data.drop length) rfl
      refine ⟨⟨rfl, ?_⟩, ?_, forall_mem_cons.2 ⟨length_take_le _ _, hshort⟩⟩
      · rwa [nextTurn, if_pos rfl, Nat.mod_add_mod]
      · rw [bodies_cons, hbodies, take_append_drop]

/-- Blocks of a positive length give the input back. -/
theorem merges_byLength {length outs : Nat} (hpos : 0 < length) (hword : length < Octets.range 64)
    (houts : 0 < outs) (data : Octets) :
    Merges (files outs (RoundRobin.byLength length outs 0 data)) 0 data
    (List.replicate outs []) := by
  obtain ⟨hin, hbodies, hshort⟩ := byLength_inTurn hpos outs 0 data
  have hfit : ∀ d ∈ RoundRobin.byLength length outs 0 data, d.block.Fits := fun d hd =>
    (hshort d hd).trans_lt hword
  have hmerges := merges_files houts hin hfit
  rwa [hbodies] at hmerges

/-- Without a length nothing is written. -/
theorem eq_nil_of_mem_files_byLength_zero {outs : Nat} {data file : Octets}
    (h : file ∈ files outs (RoundRobin.byLength 0 outs 0 data)) : file = [] := by
  rw [RoundRobin.byLength, if_pos (.inr rfl), files_eq_map_fileOf] at h
  obtain ⟨i, -, rfl⟩ := mem_map.1 h
  rfl

theorem mergeStreams_byLength_zero {outs : Nat} (houts : 0 < outs) (data : Octets) :
    mergeStreams (files outs (RoundRobin.byLength 0 outs 0 data)) = [] := by
  rw [RoundRobin.byLength, if_pos (.inr rfl), mergeStreams,
    (@merges_files _ _ [] houts trivial (by simp)).mergeFrom_eq]
  rfl

namespace SplitCommand

/-- A command line that asks for blocks of one length, with headers.  The length is a machine word.
-/
structure DealsLengths (c : SplitCommand) : Prop where
  byLength : c.byLength
  headers : c.raw = false
  batch_pos : 0 < c.batch
  batch_lt : c.batch < Octets.range 31
  outputs_pos : 0 < c.outputs.length

theorem DealsLengths.dealt_eq {c : SplitCommand} (hc : c.DealsLengths) (data : Octets) :
    c.dealt data =
      .ok (RoundRobin.byLength (RoundRobin.pieceLength c.batch) c.outputs.length 0 data) := by
  have hpos := hc.batch_pos
  rw [dealt, hc.byLength, hc.headers]
  show Except.ok (RoundRobin.byLength (if c.batch = 0 then _ else _) _ _ _) = _
  rw [if_neg (by omega)]

/-- **Blocks of one length read back exactly if there is a buffer for them.**  Then a merge of all
outputs gives the input and leaves nothing of any output, and the headers of a single output can be
taken away as well.  A buffer has one place more than a block has octets: at the largest batch that
number is no machine word, there is no buffer, and nothing is written. -/
theorem merge_dealt_lengths {c : SplitCommand} (hc : c.DealsLengths) (data : Octets) :
    ∃ ds, c.dealt data = .ok ds ∧
      let streams := (RoundRobin.outputs c.outputs.length ds).map c.written
      (mergeStreams streams = data ↔ data = [] ∨ c.batch + 1 < Octets.range 31) ∧
      (c.batch + 1 < Octets.range 31 →
        Merges streams 0 data (List.replicate c.outputs.length []) ∧
          ∀ stream, streams = [stream] → unwrap stream = data) ∧
      (c.batch + 1 = Octets.range 31 → ∀ stream ∈ streams, stream = []) := by
  refine ⟨_, hc.dealt_eq data, ?_⟩
  intro streams
  have hstreams : streams = files c.outputs.length
      (RoundRobin.byLength (RoundRobin.pieceLength c.batch) c.outputs.length 0 data) :=
    map_congr_left fun blocks _ => written_headers hc.headers blocks
  have hpos := hc.batch_pos
  have h31 : Octets.range 31 = 2147483648 := rfl
  have h64 : Octets.range 64 = 18446744073709551616 := rfl
  rw [hstreams]
  rcases Int.lt_or_le (c.batch + 1) (Octets.range 31) with hbuffer | hnone
  · have hlength : RoundRobin.pieceLength c.batch = c.batch.toNat := if_pos ⟨hpos.le, by omega⟩
    rw [hlength]
    have hmerges := @merges_byLength c.batch.toNat _ (by omega) (by omega) hc.outputs_pos data
    refine ⟨iff_of_true hmerges.mergeFrom_eq (.inr hbuffer),
      fun _ => ⟨hmerges, fun stream hone => ?_⟩,
      fun heq => absurd heq (by omega)⟩
    rw [hone] at hmerges
    exact hmerges.unwrap_eq
  · have hlength : RoundRobin.pieceLength c.batch = 0 := if_neg (by omega)
    rw [hlength, mergeStreams_byLength_zero hc.outputs_pos, or_iff_left (by omega)]
    exact ⟨eq_comm, fun hbuffer => absurd hbuffer (by omega),
      fun _ _ => eq_nil_of_mem_files_byLength_zero⟩

theorem merge_dealt_lengths_uneven :
    let c : SplitCommand := { batch := 2, outputs := ["f", "g"], byLength := true }
    c.DealsLengths ∧ ∃ ds, c.dealt (.ofText "abcde") = .ok ds ∧
      mergeStreams ((RoundRobin.outputs 2 ds).map c.written) = .ofText "abcde" := by
  intro c
  have hc : c.DealsLengths := ⟨rfl, rfl, by decide, by decide, by decide⟩
  obtain ⟨ds, hdealt, hmerge, -⟩ := merge_dealt_lengths hc (.ofText "abcde")
  exact ⟨hc, ds, hdealt, hmerge.2 (.inr (by decide))⟩

/-- At the largest batch an input is lost. -/
theorem merge_dealt_lengths_loses_octet :
    let c : SplitCommand := { batch := 2147483647, outputs := ["f"], byLength := true }
    c.DealsLengths ∧ c.dealt [97] = .ok [] ∧
      mergeStreams ((RoundRobin.outputs 1 []).map c.written) ≠ [97] := by
  intro c
  have hc : c.DealsLengths := ⟨rfl, rfl, by decide, by decide, by decide⟩
  have hlength : RoundRobin.pieceLength c.batch = 0 := if_neg (by decide)
  refine ⟨hc, ?_, ?_⟩
  · rw [hc.dealt_eq, hlength, RoundRobin.byLength, if_pos (.inr rfl)]
  · show mergeFrom [[]] 0 ≠ _
    rw [mergeFrom_of_ended rfl readBlock_nil]
    decide

/-- A command line that asks for blocks of one length, with headers, and leaves the length open. -/
structure TunesLength (c : SplitCommand) : Prop where
  byLength : c.byLength
  headers : c.raw = false
  batch : c.batch = 0
  outputs_pos : 0 < c.outputs.length

theorem TunesLength.dealt_eq {c : SplitCommand} (hc : c.TunesLength) (data : Octets) :
    c.dealt data =
      .ok (RoundRobin.byLength (RoundRobin.lengthFor data.length) c.outputs.length 0 data) := by
  rw [dealt, hc.byLength, hc.headers, hc.batch]
  rfl

/-- **A length taken from the size reads back exactly from twelve octets on.**  The length of a
smaller input is zero: nothing is written to any output. -/
theorem merge_dealt_tuned {c : SplitCommand} (hc : c.TunesLength) (data : Octets) :
    ∃ ds, c.dealt data = .ok ds ∧
      let streams := (RoundRobin.outputs c.outputs.length ds).map c.written
      (mergeStreams streams = data ↔ data = [] ∨ 12 ≤ data.length) ∧
        (data.length < 12 → ∀ stream ∈ streams, stream = []) := by
  refine ⟨_, hc.dealt_eq data, ?_⟩
  intro streams
  have hstreams : streams = files c.outputs.length
      (RoundRobin.byLength (RoundRobin.lengthFor data.length) c.outputs.length 0 data) :=
    map_congr_left fun blocks _ => written_headers hc.headers blocks
  rw [hstreams]
  rcases Nat.lt_or_ge data.length 12 with hsmall | hlarge
  · have hzero : RoundRobin.lengthFor data.length = 0 := by
      rw [RoundRobin.lengthFor, Nat.div_eq_of_lt hsmall, Nat.zero_min]
    rw [hzero, mergeStreams_byLength_zero hc.outputs_pos, or_iff_left (by omega)]
    exact ⟨eq_comm, fun _ _ => eq_nil_of_mem_files_byLength_zero⟩
  · have hpos : 0 < RoundRobin.lengthFor data.length := by
      rw [RoundRobin.lengthFor]
      omega
    have hword : RoundRobin.lengthFor data.length < Octets.range 64 :=
      (Nat.min_le_right _ _).trans_lt (by decide)
    exact ⟨iff_of_true (merges_byLength hpos hword hc.outputs_pos data).mergeFrom_eq (.inr hlarge),
      fun hsmall => absurd hsmall (by omega)⟩

theorem merge_dealt_tuned_pair :
    let c : SplitCommand := { outputs := ["f", "g"], byLength := true }
    let data := List.replicate 25 (97 : UInt8)
    c.TunesLength ∧ ∃ ds, c.dealt data = .ok ds ∧
      mergeStreams ((RoundRobin.outputs 2 ds).map c.written) = data := by
  intro c data
  have hc : c.TunesLength := ⟨rfl, rfl, rfl, by decide⟩
  obtain ⟨ds, hdealt, hmerge, -⟩ := merge_dealt_tuned hc data
  exact ⟨hc, ds, hdealt, hmerge.2 (.inr (by decide))⟩

theorem merge_dealt_tuned_loses_octet :
    let c : SplitCommand := { outputs := ["f"], byLength := true }
    c.TunesLength ∧ c.dealt [97] = .ok [] ∧
      mergeStreams ((RoundRobin.outputs 1 []).map c.written) ≠ [97] := by
  intro c
  have hc : c.TunesLength := ⟨rfl, rfl, rfl, by decide⟩
  refine ⟨hc, ?_, ?_⟩
  · rw [hc.dealt_eq, RoundRobin.byLength, if_pos (.inr (by decide))]
  · show mergeFrom [[]] 0 ≠ _
    rw [mergeFrom_of_ended rfl readBlock_nil]
    decide

end SplitCommand

end ShellFlow
