import Mathlib.Data.List.Chain
import ShellFlow.Proofs.Stream.Filtering

/-!
# How the outputs of a dealing end

A reader of groups goes on reading behind every block that is not the last of its group.  So a
stream of blocks should end with a block that is the last of its group: otherwise the reader asks
for a header where there is nothing left.

A block of a dealing that leaves its group open is followed by a block on the same output, if it is
followed by any.  So at most one output can end inside a group, the one with the block that is dealt
out last, and whether it does depends on how the reading of the input ended.  The end of an input is
noticed only by a reading that brings less than was asked for.
-/

namespace ShellFlow

open List

variable {b : Block} {blocks : List Block} {ds : List Dealt} {inside : Bool} {outs : Nat}

/-! ### Streams that end inside a group -/

/-- Some blocks end with the last of a group, unless there are none. -/
def Terminated (blocks : List Block) : Prop := ∀ b ∈ blocks.getLast?, b.last

@[simp] theorem terminated_nil : Terminated [] := by simp [Terminated]

@[simp] theorem terminated_singleton : Terminated [b] ↔ b.last := by simp [Terminated]

theorem terminated_append {front blocks : List Block} (h : blocks ≠ []) :
    Terminated (front ++ blocks) ↔ Terminated blocks := by
  rw [Terminated, getLast?_append_of_ne_nil front h, Terminated]

theorem terminated_cons (h : blocks ≠ []) : Terminated (b :: blocks) ↔ Terminated blocks :=
  @terminated_append [b] blocks h

/-- A reader that asks for a header behind every block that is not the last of its group asks for
one where a stream has ended.  It is inside a group if the block before was not the last. -/
inductive Overruns : (inside : Bool) → Octets → Prop
  | ended {stream : Octets} (none_left : readHeader stream = none) : Overruns true stream
  | behind {inside : Bool} {stream rest : Octets} {b : Block}
      (read : readBlock stream = .block b rest) (overruns : Overruns (!b.last) rest) :
      Overruns inside stream

theorem overruns_nil : Overruns inside [] ↔ inside := by
  constructor
  · rintro (_ | ⟨hread, -⟩)
    · rfl
    · cases hread
  · rintro rfl
    exact .ended rfl

theorem overruns_encode_append (hb : b.Fits) {rest : Octets} :
    Overruns inside (b.encode ++ rest) ↔ Overruns (!b.last) rest := by
  constructor
  · rintro (hnone | ⟨hread, hrest⟩)
    · rw [Block.encode, List.append_assoc, readHeader_encode_append b.header _ hb] at hnone
      cases hnone
    · rw [readBlock_encode_append b rest hb] at hread
      obtain ⟨rfl, rfl⟩ := Reading.block.inj hread
      exact hrest
  · intro hrest
    exact .behind (readBlock_encode_append b rest hb) hrest

/-- **A reader overruns exactly the streams that end inside a group.** -/
theorem overruns_encode_iff (hfit : ∀ b ∈ blocks, b.Fits) :
    Overruns inside (blocks.flatMap Block.encode) ↔ blocks = [] ∧ inside ∨ ¬ Terminated blocks := by
  induction blocks generalizing inside with
  | nil => simp [overruns_nil]
  | cons b blocks ih =>
    obtain ⟨hb, hblocks⟩ := forall_mem_cons.1 hfit
    rw [flatMap_cons, overruns_encode_append hb, ih hblocks]
    cases blocks with
    | nil => simp
    | cons => simp [terminated_cons]

/-! ### What a running filter replies to -/

theorem bodies_replyBlocks (id : Int) (early : List (Int × Nat)) (reply : Octets) :
    (replyBlocks id early reply).flatMap Block.body = reply := by
  have hreply := (replyBlocks_inTurn 0 0 id early reply).2.2
  rwa [bodies, flatMap_map] at hreply

/-- **A running filter replies to every group that is complete**, and to nothing else. -/
theorem bodies_resume (filter : Octets → Octets) (pace : Nat → Pace) (n : Nat) {e : Exchange}
    (hpending : e.pending = []) (hfit : ∀ b ∈ blocks, b.Fits) :
    (resume filter pace n e (blocks.flatMap Block.encode)).flatMap Block.body =
      (groups e.given blocks).flatMap filter := by
  induction blocks generalizing n e with
  | nil => rfl
  | cons b blocks ih =>
    obtain ⟨hb, hblocks⟩ := forall_mem_cons.1 hfit
    obtain ⟨n', e', hpending', hgiven, heq⟩ :=
      resume_encode_append filter pace n hpending hb (blocks.flatMap Block.encode)
    rw [flatMap_cons, heq, groups, ← hgiven]
    split
    · rw [flatMap_append, bodies_replyBlocks, flatMap_cons]
      exact congrArg _ (ih n' rfl hblocks)
    · exact ih n' hpending' hblocks

/-- The groups of blocks that end with the last of a group hold all that the blocks hold. -/
theorem flatten_groups {gathered : Octets} (h : Terminated blocks)
    (hgathered : blocks = [] → gathered = []) :
    (groups gathered blocks).flatten = gathered ++ blocks.flatMap Block.body := by
  induction blocks generalizing gathered with
  | nil => simp [groups, hgathered rfl]
  | cons b blocks ih =>
    have hrest : Terminated blocks := by
      by_cases hnil : blocks = []
      · simp [hnil]
      · exact (terminated_cons hnil).1 h
    rw [groups, flatMap_cons, ← List.append_assoc]
    split
    · rw [flatten_cons, ih hrest (fun _ => rfl), nil_append]
    · next hopen =>
      refine ih hrest fun hnil => ?_
      subst hnil
      exact absurd (terminated_singleton.1 h) hopen

/-! ### Dealings whose groups stay on their outputs -/

/-- A block that leaves its group open is followed by a block on the same output, if it is followed
by any. -/
def Steady (ds : List Dealt) : Prop :=
  ds.IsChain fun d e => d.block.last = false → e.output = d.output

theorem steady_cons {d : Dealt} :
    Steady (d :: ds) ↔ (d.block.last = false → ∀ e ∈ ds.head?, e.output = d.output) ∧
    Steady ds := by
  rw [Steady, isChain_cons, Steady]
  exact and_congr_left' ⟨fun h hopen e he => h e he hopen, fun h e he hopen => h hopen e he⟩

/-- In a steady dealing that ends with the last block of a group, every output does. -/
theorem Steady.terminated_blocksOf (hsteady : Steady ds) (h : Terminated (ds.map Dealt.block))
    (i : Nat) : Terminated (blocksOf ds i) := by
  induction ds with
  | nil => exact terminated_nil
  | cons d ds ih =>
    obtain ⟨hnext, hrest⟩ := steady_cons.1 hsteady
    rw [blocksOf_cons]
    cases ds with
    | nil =>
      split
      · exact h
      · exact terminated_nil
    | cons e ds =>
      have hbehind := ih hrest ((terminated_cons (by simp)).1 h)
      split
      · next hi =>
        by_cases hnil : blocksOf (e :: ds) i = []
        -- the group of the block goes on behind it, so the block cannot be the last one of its
        -- output
        · rw [hnil, terminated_singleton, ← Bool.not_eq_false]
          intro hopen
          have he : e.output = i := (hnext hopen e rfl).trans hi
          simp [blocksOf_cons, he] at hnil
        · exact (terminated_cons hnil).2 hbehind
      · exact hbehind

/-- **All outputs of a steady dealing end with the last block of a group exactly if the dealing
does.** -/
theorem Steady.terminated_iff (hsteady : Steady ds) (hlt : ∀ d ∈ ds, d.output < outs) :
    (∀ blocks ∈ RoundRobin.outputs outs ds, Terminated blocks) ↔
    Terminated (ds.map Dealt.block) := by
  constructor
  · intro h b hb
    obtain ⟨d, hd, rfl⟩ := Option.map_eq_some_iff.1 (getLast?_map ▸ hb)
    obtain ⟨front, rfl⟩ := getLast?_eq_some_iff.1 hd
    have hmem : blocksOf (front ++ [d]) d.output ∈ RoundRobin.outputs outs (front ++ [d]) :=
      mem_map.2 ⟨d.output, mem_range.2 (hlt d (by simp)), rfl⟩
    have hlast := h _ hmem
    rw [blocksOf_append, blocksOf_cons, if_pos rfl, terminated_append (by simp)] at hlast
    exact terminated_singleton.1 hlast
  · intro h blocks hblocks
    obtain ⟨i, -, rfl⟩ := mem_map.1 hblocks
    exact hsteady.terminated_blocksOf h i

theorem InTurn.output_lt {turn : Nat} (hturn : turn < outs) (h : InTurn outs turn ds) :
    ∀ d ∈ ds, d.output < outs := by
  induction ds generalizing turn with
  | nil => simp
  | cons _ _ ih =>
    obtain ⟨rfl, hrest⟩ := h
    exact forall_mem_cons.2 ⟨hturn, ih (nextTurn_lt hturn _) hrest⟩

theorem DealsUpTo.output_lt {turn : Nat} (hturn : turn < outs) {said rest : Octets}
    (h : DealsUpTo outs turn said rest ds) : ∀ d ∈ ds, d.output < outs := by
  cases h with
  | all inTurn => exact inTurn.output_lt hturn
  | late inTurn _ _ previous_lt =>
    refine forall_mem_append.2 ⟨inTurn.output_lt hturn, ?_⟩
    simpa using previous_lt

namespace RoundRobin

variable {batch share : Nat} {closed : Bool} {data piece : Octets} {later : List Dealt}

/-! ### How a dealing by lines ends -/

/-- A line end in the later half of a piece, where a cut is looked for. -/
def HasLateLineEnd (piece : Octets) : Prop := Octets.newline ∈ piece.drop ((piece.length - 1) / 2)

theorem not_hasLateLineEnd_of_none (h : lateLineEnd piece = .ok none) : ¬ HasLateLineEnd piece := by
  simp only [lateLineEnd] at h
  split at h
  · cases h
  · next hzero => exact behindLast_eq_zero_iff.1 (Nat.eq_zero_of_not_pos hzero)

theorem hasLateLineEnd_of_some {n : Nat} (h : lateLineEnd piece = .ok (some n)) :
    HasLateLineEnd piece := by
  simp only [lateLineEnd] at h
  split at h
  · next hpos =>
    by_contra hnone
    exact Nat.ne_of_gt hpos (behindLast_eq_zero_iff.2 hnone)
  · split at h <;> cases h

/-- A piece of `batch` octets closes its group: it is shorter, which shows that the input has ended,
or there is a line end to cut it. -/
def ClosesGroup (batch : Nat) (piece : Octets) : Prop := piece.length < batch ∨ HasLateLineEnd piece

/-- How the rounds after the first end. -/
structure LaterEnds (batch : Nat) (t : Turn) (data : Octets) (later : List Dealt) : Prop where
  steady : Steady later
  head : t.carried = [] → ∀ d ∈ later.head?, d.output = t.output
  nil_iff : later = [] ↔ data = [] ∧ t.carried = []
  terminated : Terminated (later.map Dealt.block) ↔
    data = [] ∨ ClosesGroup batch (lastPiece batch data)

theorem laterEnds_nil (batch : Nat) (t : Turn) :
    LaterEnds batch t []
    (if t.carried = [] then [] else [⟨t.previous, ⟨t.id, true, t.carried⟩⟩]) := by
  by_cases hcarried : t.carried = []
  · rw [if_pos hcarried]
    exact ⟨isChain_nil, by simp, by simp [hcarried], by simp⟩
  · rw [if_neg hcarried]
    exact ⟨isChain_singleton _, fun h => absurd h hcarried, by simp [hcarried], by simp⟩

/-- A block in front of the rounds that deal out what comes behind its piece. -/
theorem LaterEnds.cons (hbatch : 0 < batch) {t next : Turn} (hdata : data ≠ [])
    (h : LaterEnds batch next (data.drop batch) later)
    (hopen : b.last = false → next.carried = [] ∧ next.output = t.output)
    (hlast : data.drop batch = [] → (b.last ↔ ClosesGroup batch data)) :
    LaterEnds batch t data (⟨t.output, b⟩ :: later) := by
  refine ⟨steady_cons.2 ⟨fun hb d hd => ?_, h.steady⟩, fun _ => by simp, by simp [hdata], ?_⟩
  · obtain ⟨hcarried, hout⟩ := hopen hb
    exact (h.head hcarried d hd).trans hout
  rw [map_cons, or_iff_right hdata]
  by_cases hmore : data.drop batch = []
  · have hwhole : lastPiece batch data = data :=
      lastPiece_of_length_le hbatch (drop_eq_nil_iff.1 hmore)
    rw [hwhole, ← hlast hmore]
    by_cases hnil : later = []
    · simp [hnil]
    -- only what was carried over comes behind the last piece, and only behind a cut
    · have hb : b.last = true := by
        rw [← Bool.not_eq_false]
        intro hb
        exact hnil (h.nil_iff.2 ⟨hmore, (hopen hb).1⟩)
      rw [terminated_cons (by simpa using hnil), h.terminated]
      simp [hb, hmore]
  · have hne : later ≠ [] := fun hnil => hmore (h.nil_iff.1 hnil).1
    have hlong : batch < data.length := by
      by_contra hle
      exact hmore (drop_eq_nil_of_le (by omega))
    rw [terminated_cons (by simpa using hne), h.terminated, or_iff_right hmore,
      lastPiece_drop hbatch hlong]

/-- **How the rounds after the first end.** -/
theorem laterRounds_ends (hbatch : 0 < batch) {t : Turn}
    (h : laterRounds batch outs t data = .ok later) : LaterEnds batch t data later := by
  have hwhole : ∀ {data : Octets}, data.drop batch = [] → data.take batch = data :=
    fun hnil => take_of_length_le (drop_eq_nil_iff.1 hnil)
  refine laterRounds_induction (motive := LaterEnds batch) hbatch (laterEnds_nil batch) ?_ ?_ h
  · intro t data later hdata hcut _ ih
    refine ih.cons hbatch hdata (fun _ => ⟨rfl, rfl⟩) fun hnil => ?_
    have hnone := not_hasLateLineEnd_of_none hcut
    rw [hwhole hnil] at hnone ⊢
    rw [ClosesGroup, or_iff_left hnone, decide_eq_true_iff]
  · intro t data later k hdata hcut ih
    refine ih.cons hbatch hdata (fun hopen => by cases hopen) fun hnil => ?_
    have hline := hasLateLineEnd_of_some hcut
    rw [hwhole hnil] at hline
    exact iff_of_true rfl (.inr hline)

/-- Behind the first round, its last output goes on if its group is open. -/
theorem steady_firstRound_append (hlater : Steady later) (left output start : Nat) (rest : Octets)
    (hhead : closed = false → ∀ d ∈ later.head?, d.output = output + left) :
    Steady (firstRound share closed output start rest left ++ later) := by
  induction left generalizing output start rest with
  | zero => exact steady_cons.2 ⟨hhead, hlater⟩
  | succ left ih =>
    rw [firstRound, cons_append]
    refine steady_cons.2 ⟨fun hfirst => ?_, ih _ _ _ fun hopen d hd => ?_⟩
    · cases hfirst
    · rw [hhead hopen d hd]
      omega

theorem terminated_firstRound (left output start : Nat) (rest : Octets) :
    Terminated ((firstRound share closed output start rest left).map Dealt.block) ↔ closed := by
  induction left generalizing output start rest with
  | zero => exact terminated_singleton
  | succ left ih =>
    have hne : ∀ output start rest,
        (firstRound share closed output start rest left).map Dealt.block ≠ [] := by
      intro output start rest
      cases left <;> simp [firstRound]
    rw [firstRound, map_cons, terminated_cons (hne _ _ _), ih]

/-- The last reading of an input brings less than was asked for, or a line end where one is looked
for: at the end of the first round, in the later half of a piece after it. -/
def Closes (payload batch : Nat) (data : Octets) : Prop :=
  if data.drop payload = [] then data.length < payload ∨ WholeLines data
  else ClosesGroup batch (lastPiece batch (data.drop payload))

/-- **A dealing by lines ends with the last block of a group exactly if the last reading closes
it.** -/
theorem byLines_terminated_iff {payload : Nat} (hbatch : 0 < batch) (houts : 0 < outs)
    (h : byLines payload batch outs data = .ok ds) :
    Steady ds ∧ (Terminated (ds.map Dealt.block) ↔ Closes payload batch data) := by
  by_cases hstart : data.take payload = []
  · have hdrop : data.drop payload = data := by
      have hsplit := take_append_drop payload data
      rwa [hstart] at hsplit
    rw [byLines_of_nil hstart] at h
    have hends := laterRounds_ends hbatch h
    refine ⟨hends.steady, hends.terminated.trans ?_⟩
    rw [Closes, hdrop]
    split
    · next hnil => simp [hnil, WholeLines]
    · next hne => rw [or_iff_right hne]
  · rw [byLines_of_ne_nil hstart] at h
    obtain ⟨later, hlater, rfl⟩ := map_eq_ok.1 h
    set closed := closesFirst payload (data.take payload) with hclosed
    have hends := laterRounds_ends hbatch hlater
    have hcarried := Turn.afterFirst_carried outs closed
    refine ⟨steady_firstRound_append hends.steady _ _ _ _ fun hopen d hd => ?_, ?_⟩
    · rw [hends.head hcarried d hd, Turn.afterFirst_output houts, hopen]
      exact (Nat.zero_add _).symm
    rw [map_append, Closes]
    split
    · next hmore =>
      obtain rfl : later = [] := hends.nil_iff.2 ⟨hmore, hcarried⟩
      have hall : data.take payload = data := take_of_length_le (drop_eq_nil_iff.1 hmore)
      have hne : data ≠ [] := fun hnil => hstart (by rw [hnil, take_nil])
      rw [map_nil, append_nil, terminated_firstRound, hclosed, hall, closesFirst, Bool.or_eq_true,
        decide_eq_true_iff, beq_iff_eq, WholeLines, or_iff_right hne, EndsLine]
    · next hmore =>
      have hne : later ≠ [] := fun hnil => hmore (hends.nil_iff.1 hnil).1
      rw [terminated_append (by simpa using hne), hends.terminated, or_iff_right hmore]

end RoundRobin

/-! ### The program -/

namespace SplitCommand

/-- **When all outputs end with the last block of a group.**  They do exactly if the last reading of
the input brings less than was asked for, or a line end where one is looked for; exactly then no
reader of groups asks for a header where its input has ended, and then a running filter gets all of
its input and replies to all of it. -/
theorem outputs_terminated_iff {c : SplitCommand} (hc : c.DealsLines) {data : Octets}
    {ds : List Dealt} (h : c.dealt data = .ok ds) :
    ((∀ blocks ∈ RoundRobin.outputs c.outputs.length ds, Terminated blocks) ↔
      RoundRobin.Closes c.payload c.batch.toNat data) ∧
    ((∀ file ∈ files c.outputs.length ds, ¬ Overruns false file) ↔
      RoundRobin.Closes c.payload c.batch.toNat data) ∧
    (RoundRobin.Closes c.payload c.batch.toNat data →
      ∀ blocks ∈ RoundRobin.outputs c.outputs.length ds, (groups [] blocks).flatten =
        blocks.flatMap Block.body ∧
          ∀ filter pace, (exchange filter pace (blocks.flatMap Block.encode)).flatMap Block.body =
          (groups [] blocks).flatMap filter) := by
  have hbatch := hc.three_le_batch
  have hfit : ∀ blocks ∈ RoundRobin.outputs c.outputs.length ds, ∀ b ∈ blocks, b.Fits :=
    forall_mem_outputs (hc.fits h)
  rw [hc.dealt_eq] at h
  obtain ⟨said, -, hdeals⟩ := (RoundRobin.byLines_deals (by omega) hc.outputs_pos h).1
  obtain ⟨hsteady, hcloses⟩ := RoundRobin.byLines_terminated_iff (by omega) hc.outputs_pos h
  have hiff := (hsteady.terminated_iff (hdeals.output_lt hc.outputs_pos)).trans hcloses
  refine ⟨hiff, ?_, fun hclosed blocks hblocks => ⟨?_, fun filter pace => ?_⟩⟩
  · rw [← hiff, files, List.forall_mem_map]
    refine forall₂_congr fun blocks hblocks => ?_
    rw [overruns_encode_iff (hfit blocks hblocks)]
    simp
  · exact flatten_groups (hiff.2 hclosed blocks hblocks) (fun _ => rfl)
  · exact bodies_resume filter pace 0 rfl (hfit blocks hblocks)

theorem outputs_terminated_of_line_end :
    twoByThree.DealsLines ∧ ∃ ds, twoByThree.dealt (.ofText "ab\ncd\na\nb") = .ok ds ∧
      RoundRobin.Closes twoByThree.payload twoByThree.batch.toNat (.ofText "ab\ncd\na\nb") ∧
      ∀ blocks ∈ RoundRobin.outputs twoByThree.outputs.length ds, Terminated blocks := by
  have hdealt : twoByThree.dealt (.ofText "ab\ncd\na\nb") = .ok
      [⟨0, ⟨0, true, .ofText "ab\n"⟩⟩, ⟨1, ⟨1, true, .ofText "cd\n"⟩⟩,
        ⟨0, ⟨2, true, .ofText "a\n"⟩⟩,
        ⟨0, ⟨3, true, .ofText "b"⟩⟩] := by
    rw [dealsLines_twoByThree.dealt_eq]
    show RoundRobin.byLines 6 3 2 _ = _
    decide +kernel
  have hcloses :
      RoundRobin.Closes twoByThree.payload twoByThree.batch.toNat (.ofText "ab\ncd\na\nb") := by
    have hmore : (Octets.ofText "ab\ncd\na\nb").drop twoByThree.payload = [97, 10, 98] := by
      show List.drop 6 _ = _
      decide +kernel
    rw [RoundRobin.Closes, hmore, if_neg (by simp)]
    refine Or.inr ?_
    show (10 : UInt8) ∈ List.drop 1 [97, 10, 98]
    decide
  exact ⟨dealsLines_twoByThree, _, hdealt, hcloses,
    (outputs_terminated_iff dealsLines_twoByThree hdealt).1.2 hcloses⟩

/-- An input of exactly the octets that the first round asks for leaves a group open, and its reader
asks for a header behind the end. -/
theorem outputs_not_terminated_of_full_round :
    ∃ ds, twoByThree.DealsLines ∧ twoByThree.dealt (.ofText "abcdef") = .ok ds ∧
      (∃ blocks ∈ RoundRobin.outputs twoByThree.outputs.length ds, ¬ Terminated blocks) ∧
      ∃ file ∈ files twoByThree.outputs.length ds, Overruns false file := by
  have hdealt : twoByThree.dealt (.ofText "abcdef") = .ok
      [⟨0, ⟨0, true, []⟩⟩, ⟨1, ⟨1, false, .ofText "abcdef"⟩⟩] := by
    rw [dealsLines_twoByThree.dealt_eq]
    show RoundRobin.byLines 6 3 2 _ = _
    decide +kernel
  have hopen : ¬ Terminated [⟨1, false, .ofText "abcdef"⟩] := by simp
  have hfits : ∀ b ∈ [(⟨1, false, .ofText "abcdef"⟩ : Block)], b.Fits := by
    intro b hb
    refine dealsLines_twoByThree.fits hdealt ⟨1, b⟩ ?_
    rw [List.mem_singleton.1 hb]
    simp
  refine ⟨_, dealsLines_twoByThree, hdealt, ⟨_, List.mem_cons_of_mem _ List.mem_cons_self, hopen⟩,
    _,
    List.mem_cons_of_mem _ List.mem_cons_self, (overruns_encode_iff hfits).2 (Or.inr hopen)⟩

end SplitCommand

end ShellFlow
