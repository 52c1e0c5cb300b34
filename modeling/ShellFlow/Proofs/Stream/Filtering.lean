import ShellFlow.Proofs.Stream.Dealing

/-!
# Filtering what was dealt out

A filter that works line by line gives the same on a whole input as on what a dealing makes of it,
if the replies are merged again.

A dealing of whole lines deals out groups of blocks, each of which is whole lines and stays on one
output.  A running filter gets one group, at any pace, and its reply is a group again.  So the
replies are dealt in turn as the groups were, and a merge gives them in the order of the input.
-/

namespace ShellFlow

open List

variable {ds : List Dealt} {e : Exchange} {filter : Octets → Octets} {outs : Nat}

/-- A filter that works line by line: what it makes of whole lines does not depend on what is behind
them. -/
def LineByLine (f : Octets → Octets) : Prop := ∀ u v, WholeLines u → f (u ++ v) = f u ++ f v

theorem LineByLine.nil {f : Octets → Octets} (hf : LineByLine f) : f [] = [] :=
  self_eq_append_left.1 (hf [] [] (.inl rfl))

/-! ### A running filter -/

section Exchange

variable {pace : Nat → Pace} {n : Nat} {stream : Octets}

theorem exchangeFrom_of_done (hdrained : e.drained) (hlast : e.last) :
    exchangeFrom filter pace n e stream =
      replyBlocks e.id e.early (filter e.given) ++ resume filter pace n .idle stream := by
  rw [exchangeFrom, dif_pos ⟨hdrained, hlast⟩, resume]
  split <;> simp_all

/-- Behind a piece a header is due, or the block goes on. -/
theorem exchangeFrom_of_piece {e' : Exchange} (hopen : ¬ (e.drained ∧ e.last))
    (hlen : e.request ≤ stream.length) (he : e.advance (pace n) (stream.take e.request) = e') :
    exchangeFrom filter pace n e stream =
      if e'.drained ∧ ¬ e'.last then resume filter pace (n + 1) e' (stream.drop e.request)
      else exchangeFrom filter pace (n + 1) e' (stream.drop e.request) := by
  subst he
  rw [exchangeFrom, dif_neg hopen, dif_neg (Nat.not_lt.2 hlen), resume]
  dsimp only
  split
  · split <;> simp_all
  · rfl

end Exchange

/-- What the filter has taken and what is pending make up all that was read. -/
theorem Exchange.advance_given_append_pending (e : Exchange) (p : Pace) (piece : Octets) :
    (e.advance p piece).given ++ (e.advance p piece).pending = e.given ++ e.pending ++ piece := by
  simp [advance]

theorem Exchange.drained_iff : e.drained ↔ e.left = 0 ∧ e.pending = [] := by
  simp [Exchange.drained]

/-- A running filter takes the rest of a body, at any pace.  The induction is on the octets that it
has not taken. -/
theorem exchangeFrom_body (filter : Octets → Octets) (pace : Nat → Pace)
    (body rest : Octets) (n : Nat) (e : Exchange) (hleft : e.left = body.length) :
    ∃ n' e', e'.pending = [] ∧ e'.given = e.given ++ e.pending ++ body ∧
        exchangeFrom filter pace n e (body ++ rest) =
        if e.last then replyBlocks e.id e'.early (filter e'.given) ++
          resume filter pace n' .idle rest
        else resume filter pace n' e' rest := by
  induction hm : 2 * body.length + e.pending.length using Nat.strong_induction_on
    generalizing body n e with
  | _ m ih =>
    by_cases hdone : e.drained ∧ e.last
    · obtain ⟨hzero, hpending⟩ := Exchange.drained_iff.1 hdone.1
      obtain rfl : body = [] := eq_nil_of_length_eq_zero (by omega)
      refine ⟨n, e, hpending, by simp [hpending], ?_⟩
      rw [if_pos hdone.2, exchangeFrom_of_done hdone.1 hdone.2, nil_append]
    · have hrequest : e.request ≤ body.length := by rw [Exchange.request, ← hleft]; omega
      have htake : (body ++ rest).take e.request = body.take e.request :=
        take_append_of_le_length hrequest
      have hdrop : (body ++ rest).drop e.request = body.drop e.request ++ rest :=
        drop_append_of_le_length hrequest
      have hlen : e.request ≤ (body ++ rest).length := by rw [length_append]; omega
      have hpiece : (body.take e.request).length = e.request := by rw [length_take]; omega
      have hgiven := e.advance_given_append_pending (pace n) (body.take e.request)
      set advanced := e.advance (pace n) (body.take e.request) with hadvanced
      have hstep : exchangeFrom filter pace n e (body ++ rest) = _ :=
        exchangeFrom_of_piece hdone hlen (congrArg (e.advance (pace n)) htake)
      have hmore : advanced.left = (body.drop e.request).length := by
        rw [hadvanced, Exchange.advance, hpiece, hleft, length_drop]
      -- either the body is used up and a header is due, or the measure goes down
      by_cases hdue : advanced.drained ∧ ¬ advanced.last
      · obtain ⟨hzero, hpending⟩ := Exchange.drained_iff.1 hdue.1
        have hnil : body.drop e.request = [] := eq_nil_of_length_eq_zero (by omega)
        have hall : body.take e.request = body := by
          simpa [hnil] using take_append_drop e.request body
        refine ⟨n + 1, advanced, hpending, ?_, ?_⟩
        · rw [hpending, hall, append_nil] at hgiven
          exact hgiven
        · have hlast : ¬ e.last := hdue.2
          rw [if_neg hlast, hstep, if_pos hdue, hdrop, hnil, nil_append]
      · have hless : advanced.pending.length < _ :=
          e.length_advance_pending_lt (pace n) hpiece hdone hdue
        obtain ⟨n', e', hpending, hgiven', heq⟩ := ih _ (by
          rw [length_drop]
          omega) (body.drop e.request) (n + 1) advanced hmore rfl
        refine ⟨n', e', hpending, ?_, ?_⟩
        · rw [hgiven', hgiven, List.append_assoc _ (body.take e.request), take_append_drop]
        · rw [hstep, if_neg hdue, hdrop]
          exact heq

/-- **A running filter takes a block whole, at any pace.**  If the block is the last of its group,
the reply is to all that the filter was given. -/
theorem resume_encode_append (filter : Octets → Octets) (pace : Nat → Pace) (n : Nat)
    (hpending : e.pending = []) {b : Block} (hb : b.Fits) (rest : Octets) :
    ∃ n' e', e'.pending = [] ∧ e'.given = e.given ++ b.body ∧
          resume filter pace n e (b.encode ++ rest) = if b.last then
          replyBlocks b.asRead.id e'.early (filter e'.given) ++ resume filter pace n' .idle rest
        else resume filter pace n' e' rest := by
  obtain ⟨n', e', hpending', hgiven, heq⟩ := exchangeFrom_body filter pace b.body rest n
    (e.goOn { b.header with id := Int.bmod b.id (Octets.range 64) }) rfl
  refine ⟨n', e', hpending', ?_, ?_⟩
  · rw [hgiven]
    show e.given ++ e.pending ++ b.body = _
    rw [hpending, append_nil]
  · rw [resume, Block.encode, List.append_assoc, readHeader_encode_append b.header _ hb]
    exact heq

/-! ### The replies to a dealing -/

theorem blocksOf_map_mk (bs : List Block) (turn i : Nat) :
    blocksOf (bs.map (Dealt.mk turn)) i = if turn = i then bs else [] := by
  induction bs with
  | nil => simp
  | cons b bs ih => by_cases h : turn = i <;> simp_all [blocksOf_cons]

/-- A reply is a group of blocks that stays on its output. -/
theorem replyBlocks_inTurn (outs turn : Nat) (id : Int) (early : List (Int × Nat))
    (reply : Octets) :
    let ds := (replyBlocks id early reply).map (Dealt.mk turn)
    InTurn outs turn ds ∧ turnAfter outs turn ds = nextTurn outs turn true ∧ bodies ds = reply := by
  induction early generalizing reply with
  | nil => exact ⟨⟨rfl, trivial⟩, rfl, append_nil reply⟩
  | cons handed _ ih =>
    obtain ⟨hin, hafter, hbodies⟩ := ih (reply.drop handed.2)
    refine ⟨⟨rfl, hin⟩, hafter, ?_⟩
    rw [replyBlocks, map_cons, bodies_cons, hbodies]
    exact take_append_drop handed.2 reply

/-- Every group of a dealing is whole lines, and there is none under way at the end.  Of the first
group, `gathered` came before. -/
def Lined : (gathered : Octets) → List Dealt → Prop
  | gathered, [] => gathered = []
  | gathered, d :: ds =>
    if d.block.last then WholeLines (gathered ++ d.block.body) ∧ Lined [] ds
    else Lined (gathered ++ d.block.body) ds

/-- **The replies to a dealing are dealt in turn, and hold the reply to all of it.**  The induction
is on the blocks of the dealing.  The output whose turn it is may have a group under way; on the
others no filter is running. -/
theorem replies_inTurn (hf : LineByLine filter) (pace : Nat → Nat → Pace) (ds : List Dealt)
    (turn : Nat) (n : Nat → Nat) (e : Exchange) (hin : InTurn outs turn ds)
    (hfit : ∀ d ∈ ds, d.block.Fits) (hpending : e.pending = []) (hlined : Lined e.given ds) :
    ∃ rs, InTurn outs turn rs ∧ bodies rs = filter (e.given ++ bodies ds) ∧ ∀ i, blocksOf rs i =
        resume filter (pace i) (n i) (if i = turn then e else .idle) (fileOf ds i) := by
  induction ds generalizing turn n e with
  | nil =>
    have hgiven : e.given = [] := hlined
    exact ⟨[], trivial, by rw [hgiven]; exact hf.nil.symm, fun i => rfl⟩
  | cons d ds ih =>
    obtain ⟨hout, hin⟩ := hin
    obtain ⟨n', e', hpending', hgiven, heq⟩ :=
      resume_encode_append filter (pace turn) (n turn) hpending (hfit d (by simp)) (fileOf ds turn)
    have hturn : fileOf (d :: ds) turn = d.block.encode ++ fileOf ds turn := by
      rw [fileOf_cons, if_pos hout]
    have hother : ∀ i ≠ turn, fileOf (d :: ds) i = fileOf ds i := by
      intro i hi
      rw [fileOf_cons, if_neg (by rw [hout]; exact Ne.symm hi), nil_append]
    rw [Lined] at hlined
    cases hlast : d.block.last with
    | true =>
      rw [hlast] at hin heq
      rw [if_pos hlast, ← hgiven] at hlined
      -- the group is complete: its reply stays on this output, and the turn passes on
      obtain ⟨rs, hrin, hrbodies, hrblocks⟩ :=
        ih (nextTurn outs turn true) (Function.update n turn n') .idle
        hin (fun d' hd' => hfit d' (by simp [hd'])) rfl hlined.2
      obtain ⟨hreply, hafter, hbodies⟩ :=
        replyBlocks_inTurn outs turn d.block.asRead.id e'.early (filter e'.given)
      refine ⟨(replyBlocks d.block.asRead.id e'.early (filter e'.given)).map (Dealt.mk turn) ++ rs,
        ?_, ?_, ?_⟩
      · rw [inTurn_append, hafter]
        exact ⟨hreply, hrin⟩
      · rw [bodies_append, hbodies, hrbodies, bodies_cons, ← List.append_assoc, ← hgiven,
          hf _ _ hlined.1]
        rfl
      · intro i
        rw [blocksOf_append, blocksOf_map_mk, hrblocks, ite_self]
        by_cases hi : i = turn
        · subst hi
          rw [if_pos rfl, if_pos rfl, Function.update_self, hturn, heq, if_pos rfl]
        · rw [if_neg (Ne.symm hi), if_neg hi, Function.update_of_ne hi, hother i hi, nil_append]
    | false =>
      rw [hlast] at hin heq
      rw [if_neg (by simp [hlast]), ← hgiven] at hlined
      -- the group goes on: nothing is certain to be replied yet
      obtain ⟨rs, hrin, hrbodies, hrblocks⟩ := ih turn (Function.update n turn n') e' hin
        (fun d' hd' => hfit d' (by simp [hd'])) hpending' hlined
      refine ⟨rs, hrin, ?_, ?_⟩
      · rw [hrbodies, hgiven, bodies_cons, List.append_assoc]
      · intro i
        rw [hrblocks]
        by_cases hi : i = turn
        · subst hi
          rw [if_pos rfl, if_pos rfl, Function.update_self, hturn, heq, if_neg (by simp)]
        · rw [if_neg hi, if_neg hi, Function.update_of_ne hi, hother i hi]

theorem mergeStreams_replies (hf : LineByLine filter) (pace : Nat → Nat → Pace) (houts : 0 < outs)
    (hin : InTurn outs 0 ds) (hfit : ∀ d ∈ ds, d.block.Fits) (hlined : Lined [] ds)
    (hlength : (filter (bodies ds)).length < Octets.range 64) :
    mergeStreams ((files outs ds).mapIdx fun i file =>
      (exchange filter (pace i) file).flatMap Block.encode) = filter (bodies ds) := by
  obtain ⟨rs, hrin, hrbodies, hrblocks⟩ :=
    replies_inTurn hf pace ds 0 (fun _ => 0) .idle hin hfit rfl hlined
  -- no block of the replies is longer than all replies together
  have hrfit : ∀ r ∈ rs, r.block.Fits := by
    intro r hr
    obtain ⟨front, behind, rfl⟩ := append_of_mem hr
    rw [Block.Fits]
    refine Nat.lt_of_le_of_lt ?_ hlength
    rw [show filter (bodies ds) = bodies (front ++ r :: behind) from hrbodies.symm, bodies_append,
      bodies_cons]
    simp only [length_append]
    omega
  have hfiles : ((files outs ds).mapIdx fun i file =>
      (exchange filter (pace i) file).flatMap Block.encode) = files outs rs := by
    rw [files_eq_map_fileOf, files_eq_map_fileOf]
    refine ext_getElem (by simp) fun i hi _ => ?_
    simp only [getElem_mapIdx, getElem_map, getElem_range]
    show _ = (blocksOf rs i).flatMap Block.encode
    rw [hrblocks i, ite_self]
    rfl
  have hmerge := mergeFrom_files (fun _ => []) rs 0 houts hrin hrfit
  simp only [append_nil, ← files_eq_map_fileOf] at hmerge
  have hend : ((List.range outs).map fun _ => ([] : Octets))[turnAfter outs 0 rs]? = some [] := by
    simp [turnAfter_lt houts rs]
  rw [hfiles, mergeStreams, hmerge, mergeFrom_of_nil hend, append_nil, hrbodies]
  rfl

/-! ### Dealing out whole lines -/

namespace RoundRobin

variable {batch : Nat} {data : Octets} {later : List Dealt}

/-- The last piece of whole lines ends with a line end, so it is cut there. -/
theorem lateLineEnd_of_drop_eq_nil (hdata : EndsLine data) (hdrop : data.drop batch = []) :
    lateLineEnd (data.take batch) = .ok (some data.length) := by
  rw [take_of_length_le (drop_eq_nil_iff.1 hdrop)]
  exact lateLineEnd_of_endsLine hdata

/-- The rounds after the first never fail on whole lines, if a piece has three octets.  The
induction is on what comes. -/
theorem exists_laterRounds (outs : Nat) (hbatch : 3 ≤ batch) (hdata : WholeLines data) (t : Turn) :
    ∃ later, laterRounds batch outs t data = .ok later := by
  induction hn : data.length using Nat.strong_induction_on generalizing t data with
  | _ n ih =>
    by_cases hnil : data = []
    · subst hnil
      exact ⟨_, laterRounds_nil t⟩
    · have hless : (data.drop batch).length < n := hn ▸ length_drop_lt (by omega) hnil
      cases hcut : lateLineEnd (data.take batch) with
      | error e =>
        refine absurd hcut (lateLineEnd_ne_error ?_ e)
        have hmore : data.drop batch ≠ [] := by
          intro hdrop
          rw [lateLineEnd_of_drop_eq_nil (hdata.resolve_left hnil) hdrop] at hcut
          cases hcut
        rw [← length_pos_iff, length_drop] at hmore
        rw [length_take]
        omega
      | ok cut =>
        cases cut with
        | none =>
          obtain ⟨later, hlater⟩ := ih _ hless (hdata.drop batch) t.stay rfl
          exact ⟨_, by rw [laterRounds_of_none (by omega) hnil hcut, hlater]; rfl⟩
        | some k =>
          obtain ⟨later, hlater⟩ :=
            ih _ hless (hdata.drop batch) (t.pass outs ((data.take batch).drop k)) rfl
          exact ⟨_, by rw [laterRounds_of_some (by omega) hnil hcut, hlater]; rfl⟩

/-- The rounds after the first deal out whole lines as groups of whole lines.  Something is carried
over, and a group is under way, only while something comes. -/
theorem lined_of_laterRounds (hbatch : 0 < batch) {t : Turn} (hdata : WholeLines data)
    (hcarried : data = [] → t.carried = []) (h : laterRounds batch outs t data = .ok later)
    {gathered : Octets} (hgathered : data = [] → gathered = []) : Lined gathered later := by
  refine laterRounds_induction (motive := fun t data later => WholeLines data →
    (data = [] → t.carried = []) →
    ∀ {gathered : Octets}, (data = [] → gathered = []) →
      Lined gathered later) hbatch ?_ ?_ ?_ h hdata hcarried hgathered
  · intro t _ hcarried gathered hgathered
    rw [hcarried rfl, if_pos rfl]
    exact hgathered rfl
  · intro t data later hnil hcut _ ih hdata _ gathered _
    have hmore : data.drop batch ≠ [] := fun hdrop => by
      simp [lateLineEnd_of_drop_eq_nil (hdata.resolve_left hnil) hdrop] at hcut
    -- more comes, so the block is a whole batch and leaves its group open
    have hfull : ¬ (data.take batch).length < batch := by
      have hlen := length_pos_iff.2 hmore
      rw [length_drop] at hlen
      rw [length_take]
      omega
    rw [Lined, decide_eq_false hfull, if_neg (by simp)]
    exact ih (hdata.drop batch) (fun _ => rfl) (fun hdrop => absurd hdrop hmore)
  · intro t data later k hnil hcut ih hdata _ gathered _
    have hcarried' : data.drop batch = [] → (data.take batch).drop k = [] := by
      intro hdrop
      rw [lateLineEnd_of_drop_eq_nil (hdata.resolve_left hnil) hdrop] at hcut
      obtain rfl : data.length = k := by simpa using hcut
      exact drop_eq_nil_of_le (length_take_le' _ _)
    rw [Lined, if_pos rfl]
    refine ⟨.inr ?_, ih (hdata.drop batch) hcarried' (fun _ => rfl)⟩
    exact ((endsLine_of_lateLineEnd hcut).1.append t.carried).append gathered

/-- Every output but the last gets whole lines in the first round, so the first round is groups of
whole lines if the last block of it, with what is behind, is. -/
theorem firstRound_lined {share : Nat} {closed : Bool} (left output start : Nat) (rest : Octets)
    (hclosed : closed → WholeLines rest ∧ Lined [] later)
    (hopen : ¬ closed → ∀ gathered, Lined gathered later) :
    Lined [] (firstRound share closed output start rest left ++ later) := by
  induction left generalizing output start rest with
  | zero =>
    cases hc : closed with
    | true =>
      obtain ⟨hrest, hlater⟩ := hclosed hc
      exact ⟨hrest, hlater⟩
    | false => exact hopen (by simp [hc]) _
  | succ left ih =>
    rw [firstRound, shareCut]
    set room := (signed ((output + 1) * share) + 1 - start).toNat
    set n := Octets.behindLast Octets.newline (rest.take room)
    have hwhole : WholeLines (rest.take n) := by
      have htake := wholeLines_take_behindLast (rest.take room)
      have hle := Octets.behindLast_le Octets.newline (rest.take room)
      rw [length_take] at hle
      rwa [take_take, Nat.min_eq_left (by omega)] at htake
    refine ⟨hwhole, ih _ _ _ (fun hc => ⟨(hclosed hc).1.drop n, (hclosed hc).2⟩)⟩

/-- **A dealing of whole lines deals out groups of whole lines.** -/
theorem lined_of_byLines {payload : Nat} (hbatch : 0 < batch) (hdata : WholeLines data)
    (h : byLines payload batch outs data = .ok ds) : Lined [] ds := by
  by_cases hstart : data.take payload = []
  · rw [byLines_of_nil hstart] at h
    exact lined_of_laterRounds hbatch hdata (fun _ => rfl) h (fun _ => rfl)
  · rw [byLines_of_ne_nil hstart] at h
    obtain ⟨later, hlater, rfl⟩ := map_eq_ok.1 h
    set closed := closesFirst payload (data.take payload) with hclosed
    have hlined : ∀ gathered, (data.drop payload = [] → gathered = []) → Lined gathered later :=
      fun gathered => lined_of_laterRounds hbatch (hdata.drop payload)
        (fun _ => Turn.afterFirst_carried outs closed) hlater
    have hends : EndsLine data := hdata.resolve_left (fun hnil => hstart (by rw [hnil, take_nil]))
    -- a first round that takes all that comes ends with a line end
    have hall : data.drop payload = [] → EndsLine (data.take payload) := by
      intro hdrop
      rwa [take_of_length_le (drop_eq_nil_iff.1 hdrop)]
    refine firstRound_lined _ _ _ _ (fun hc => ⟨?_, hlined [] (fun _ => rfl)⟩)
      (fun hc gathered => hlined gathered (fun hdrop => absurd (hall hdrop) ?_))
    · rw [hclosed, closesFirst, Bool.or_eq_true, decide_eq_true_eq, beq_iff_eq] at hc
      rcases hc with hshort | hline
      · refine .inr (hall (drop_eq_nil_of_le ?_))
        rw [length_take] at hshort
        omega
      · exact .inr hline
    · rw [hclosed, closesFirst, Bool.or_eq_true, not_or, beq_iff_eq] at hc
      exact hc.2

/-- **A dealing of whole lines never fails.** -/
theorem exists_byLines {payload batch outs : Nat} (hbatch : 3 ≤ batch) {data : Octets}
    (hdata : WholeLines data) : ∃ ds, byLines payload batch outs data = .ok ds := by
  by_cases hstart : data.take payload = []
  · rw [byLines_of_nil hstart]
    exact exists_laterRounds outs hbatch hdata _
  · obtain ⟨later, hlater⟩ := exists_laterRounds outs hbatch (hdata.drop payload)
      (Turn.afterFirst outs (closesFirst payload (data.take payload)))
    exact ⟨_, by rw [byLines_of_ne_nil hstart, hlater]; rfl⟩

/-- **A dealing of whole lines by lines** is in turn, leaves nothing out, and its groups are whole
lines. -/
theorem byLines_of_wholeLines {payload batch : Nat} (hbatch : 0 < batch) (houts : 0 < outs)
    {data : Octets} (hdata : WholeLines data) {ds : List Dealt}
    (h : byLines payload batch outs data = .ok ds) :
    InTurn outs 0 ds ∧ bodies ds = data ∧ Lined [] ds := by
  obtain ⟨said, hsaid, hdeals⟩ := (byLines_deals hbatch houts h).1
  have hfinished : unfinished (lastPiece batch (data.drop payload)) = [] :=
    unfinished_eq_nil_iff.2 (.inl ((hdata.drop _).drop _))
  rw [hfinished] at hsaid hdeals
  refine ⟨hdeals.inTurn_iff.2 (.inr rfl), ?_, lined_of_byLines hbatch hdata h⟩
  rw [hdeals.bodies_eq, ← hsaid, append_nil]

end RoundRobin

/-! ### The groups of an output -/

/-- What the groups of some blocks hold.  Of the first group, `gathered` came before. -/
def groups : (gathered : Octets) → List Block → List Octets
  | _, [] => []
  | gathered, b :: bs =>
    if b.last then (gathered ++ b.body) :: groups [] bs else groups (gathered ++ b.body) bs

/-- The groups of a dealing are the groups of its outputs. -/
theorem wholeLines_of_mem_groups {turn : Nat} {gathered : Octets} (hin : InTurn outs turn ds)
    (hlined : Lined gathered ds) (i : Nat) :
    ∀ g ∈ groups (if i = turn then gathered else []) (blocksOf ds i), WholeLines g := by
  induction ds generalizing turn gathered with
  | nil => simp [groups]
  | cons d ds ih =>
    obtain ⟨rfl, hin⟩ := hin
    rw [Lined] at hlined
    rw [blocksOf_cons]
    cases hlast : d.block.last with
    | true =>
      rw [if_pos hlast] at hlined
      have hrest := ih hin hlined.2
      rw [ite_self] at hrest
      by_cases hi : i = d.output
      · rw [if_pos hi, if_pos hi.symm, groups, if_pos hlast]
        exact forall_mem_cons.2 ⟨hlined.1, hrest⟩
      · rw [if_neg hi, if_neg (Ne.symm hi)]
        exact hrest
    | false =>
      have hstay : InTurn outs d.output ds := by
        rw [hlast] at hin
        exact hin
      rw [if_neg (by simp [hlast])] at hlined
      have hrest := ih hstay hlined
      by_cases hi : i = d.output
      · rw [if_pos hi, if_pos hi.symm, groups, if_neg (by simp [hlast])]
        rwa [if_pos hi] at hrest
      · rw [if_neg hi, if_neg (Ne.symm hi)]
        rwa [if_neg hi] at hrest

end ShellFlow
