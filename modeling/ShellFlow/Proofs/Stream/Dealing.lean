import Mathlib.Data.List.DropRight
import ShellFlow.Program.Stream
import ShellFlow.Proofs.Outcome
import ShellFlow.Proofs.Stream.Turns

/-!
# Dealing out lines

What the outputs of a dealing by lines hold, and what a merge gives of them.

A dealing by lines keeps three things at once: the output of the next block, the output of the block
before, and what is carried over.  While octets come, every block goes to the output whose turn it
is.  What is carried over at the end is different: it goes to the output of the block before, and
the merge has already left that output.  So a merge gives the input back exactly if nothing is
carried over at the end, or if there is one output only.
-/

namespace ShellFlow

open List

variable {ds : List Dealt} {outs turn : Nat} {rest said u v : Octets}

/-! ### Line ends -/

/-- Octets whose last one is a line end. -/
def EndsLine (u : Octets) : Prop := u.getLast? = some Octets.newline

/-- Octets that are whole lines, of which there may be none. -/
def WholeLines (u : Octets) : Prop := u = [] ∨ EndsLine u

instance : DecidablePred EndsLine := fun u => inferInstanceAs (Decidable (u.getLast? = _))

theorem EndsLine.ne_nil (h : EndsLine u) : u ≠ [] := by
  rintro rfl
  simp [EndsLine] at h

theorem EndsLine.append (u : Octets) (h : EndsLine v) : EndsLine (u ++ v) := by
  rw [EndsLine, getLast?_append, h]
  rfl

theorem EndsLine.of_append (h : EndsLine (u ++ v)) (hv : v ≠ []) : EndsLine v := by
  rw [EndsLine, getLast?_append_of_ne_nil _ hv] at h
  exact h

theorem EndsLine.drop (h : EndsLine u) {n : Nat} (hn : u.drop n ≠ []) : EndsLine (u.drop n) := by
  rw [← take_append_drop n u] at h
  exact h.of_append hn

theorem WholeLines.drop (h : WholeLines u) (n : Nat) : WholeLines (u.drop n) := by
  rcases h with rfl | h
  · exact .inl drop_nil
  · by_cases hnil : u.drop n = []
    · exact .inl hnil
    · exact .inr (h.drop hnil)

/-- The octets up to the last line end are those that are left when the others are dropped from the
end. -/
theorem take_behindLast (x : UInt8) (xs : Octets) :
    xs.take (Octets.behindLast x xs) = xs.rdropWhile (· != x) := by
  have hlen : Octets.behindLast x xs = (xs.rdropWhile (· != x)).length := by
    rw [Octets.behindLast, List.rdropWhile, length_reverse]
  rw [hlen]
  exact (prefix_iff_eq_take.1 <| rdropWhile_prefix _ xs).symm

/-- A cut behind the last line end leaves whole lines in front. -/
theorem wholeLines_take_behindLast (xs : Octets) :
    WholeLines (xs.take (Octets.behindLast Octets.newline xs)) := by
  rw [take_behindLast]
  by_cases hnil : xs.rdropWhile (· != Octets.newline) = []
  · exact .inl hnil
  · refine .inr ?_
    have hlast := rdropWhile_last_not (· != Octets.newline) xs hnil
    rw [EndsLine, getLast?_eq_some_getLast hnil]
    simpa using hlast

theorem behindLast_of_endsLine {xs : Octets} (h : EndsLine xs) :
    Octets.behindLast Octets.newline xs = xs.length := by
  have hself : xs.rdropWhile (· != Octets.newline) = xs := by
    rw [rdropWhile_eq_self_iff]
    intro hne
    rw [EndsLine, getLast?_eq_some_getLast hne, Option.some.injEq] at h
    simp [h]
  rw [Octets.behindLast, ← length_reverse, ← List.rdropWhile, hself]

namespace RoundRobin

variable {batch n : Nat} {data piece : Octets} {t : Turn}

/-! ### The cut of a piece -/

theorem endsLine_of_lateLineEnd (h : lateLineEnd piece = .ok (some n)) :
    EndsLine (piece.take n) ∧ n ≤ piece.length := by
  simp only [lateLineEnd] at h
  split at h
  · rename_i hpos
    simp only [Except.ok.injEq, Option.some.injEq] at h
    set middle := (piece.length - 1) / 2
    have hle := Octets.behindLast_le Octets.newline (piece.drop middle)
    have hmid : middle ≤ piece.length := by omega
    rw [length_drop] at hle
    refine ⟨?_, by omega⟩
    rw [← h, take_add]
    refine EndsLine.append _ ?_
    rcases wholeLines_take_behindLast (piece.drop middle) with hnil | hend
    · have hlen := congrArg List.length hnil
      rw [length_take, length_drop, length_nil] at hlen
      omega
    · exact hend
  · split at h <;> cases h

theorem lateLineEnd_of_endsLine (h : EndsLine piece) :
    lateLineEnd piece = .ok (some piece.length) := by
  have hne : 0 < piece.length := length_pos_iff.2 h.ne_nil
  have hlen : (piece.drop ((piece.length - 1) / 2)).length =
    piece.length - (piece.length - 1) / 2 := length_drop
  have hdrop : EndsLine (piece.drop ((piece.length - 1) / 2)) :=
    h.drop (by rw [← length_pos_iff, hlen]; omega)
  simp only [lateLineEnd]
  rw [behindLast_of_endsLine hdrop, hlen, if_pos (by omega)]
  congr 2
  omega

/-- A search leaves a piece of one or two octets only. -/
theorem lateLineEnd_ne_error (h : 3 ≤ piece.length) (e : Fault) : lateLineEnd piece ≠ .error e := by
  have hmid : (piece.length - 1) / 2 ≠ 0 := by omega
  simp only [lateLineEnd, if_neg hmid]
  split <;> simp

/-- The last of the pieces into which an input is cut. -/
def lastPiece (batch : Nat) (data : Octets) : Octets :=
    data.drop ((data.length - 1) / batch * batch)

/-- What is carried over behind a piece. -/
def unfinished (piece : Octets) : Octets :=
  match lateLineEnd piece with
  | .ok (some n) => piece.drop n
  | _ => []

theorem unfinished_of_some (h : lateLineEnd piece = .ok (some n)) :
    unfinished piece = piece.drop n := by
  rw [unfinished, h]

theorem lastPiece_of_length_le (hbatch : 0 < batch) (h : data.length ≤ batch) :
    lastPiece batch data = data := by
  rw [lastPiece, Nat.div_eq_of_lt (by omega), Nat.zero_mul, drop_zero]

theorem lastPiece_drop (hbatch : 0 < batch) (h : batch < data.length) :
    lastPiece batch (data.drop batch) = lastPiece batch data := by
  have hdiv : (data.length - 1) / batch = (data.length - batch - 1) / batch + 1 := by
    rw [show data.length - 1 = data.length - batch - 1 + batch by omega, Nat.add_div_right _ hbatch]
  rw [lastPiece, lastPiece, drop_drop, length_drop, hdiv, Nat.add_mul, Nat.one_mul, Nat.add_comm]

/-! ### The rounds after the first, one block at a time -/

theorem laterRounds_nil (t : Turn) : laterRounds batch outs t [] =
      .ok (if t.carried = [] then [] else [⟨t.previous, ⟨t.id, true, t.carried⟩⟩]) := by
  rw [laterRounds]
  cases h : t.carried <;> simp

/-- The turn behind a piece that has no late line end. -/
def Turn.stay (t : Turn) : Turn := { output := t.output, id := t.id, previous := t.output }

/-- The turn behind a piece that was cut. -/
def Turn.pass (t : Turn) (outs : Nat) (carried : Octets) : Turn :=
  { output := (t.output + 1) % outs, id := t.id + 1, carried, previous := t.output }

section

variable (hbatch : 0 < batch) (hdata : data ≠ [])
include hbatch hdata

theorem octets_left : ¬ (data.length = 0 ∨ batch = 0) := by
  rw [length_eq_zero_iff]
  exact not_or.2 ⟨hdata, by omega⟩

/-- What comes behind a piece is less than what came with it. -/
theorem length_drop_lt : (data.drop batch).length < data.length := by
  have := length_pos_iff.2 hdata
  rw [length_drop]
  omega

theorem laterRounds_of_error {e : Fault}
    (hcut : lateLineEnd (data.take batch) = .error e) :
    laterRounds batch outs t data = .error e := by
  rw [laterRounds, if_neg (octets_left hbatch hdata)]
  dsimp only
  rw [hcut]
  rfl

/-- A piece without a late line end goes to the same output as the next. -/
theorem laterRounds_of_none (hcut : lateLineEnd (data.take batch) = .ok none) :
    laterRounds batch outs t data = (laterRounds batch outs t.stay (data.drop batch)).map
      fun later => ⟨t.output, ⟨t.id, decide ((data.take batch).length < batch),
        t.carried ++ data.take batch⟩⟩ :: later := by
  rw [laterRounds, if_neg (octets_left hbatch hdata)]
  dsimp only
  rw [hcut]
  show (laterRounds batch outs t.stay (data.drop batch)).bind _ = _
  cases laterRounds batch outs t.stay (data.drop batch) <;> rfl

/-- A piece is cut behind its late line end, and what is behind the cut is carried on. -/
theorem laterRounds_of_some (hcut : lateLineEnd (data.take batch) = .ok (some n)) :
    laterRounds batch outs t data =
      (laterRounds batch outs (t.pass outs ((data.take batch).drop n)) (data.drop batch)).map
        fun later => ⟨t.output, ⟨t.id, true, t.carried ++ (data.take batch).take n⟩⟩ :: later := by
  rw [laterRounds, if_neg (octets_left hbatch hdata)]
  dsimp only
  rw [hcut]
  show (laterRounds batch outs (t.pass outs _) (data.drop batch)).bind _ = _
  cases laterRounds batch outs (t.pass outs ((data.take batch).drop n)) (data.drop batch) <;> rfl

end

/-- An induction on what comes, for the rounds after the first: a piece without a late line end is
dealt out by the turn that stays, and behind a cut the turn passes. -/
theorem laterRounds_induction {motive : Turn → Octets → List Dealt → Prop} {later : List Dealt}
    (hbatch : 0 < batch)
    (ended : ∀ t : Turn,
      motive t [] (if t.carried = [] then [] else [⟨t.previous, ⟨t.id, true, t.carried⟩⟩]))
    (stay : ∀ {t : Turn} {data : Octets} {later : List Dealt}, data ≠ [] →
      lateLineEnd (data.take batch) = .ok none → laterRounds batch outs t.stay (data.drop batch) =
        .ok later → motive t.stay (data.drop batch) later →
      motive t data (⟨t.output,
        ⟨t.id, decide ((data.take batch).length < batch), t.carried ++ data.take batch⟩⟩ :: later))
    (pass : ∀ {t : Turn} {data : Octets} {later : List Dealt} {n : Nat}, data ≠ [] →
      lateLineEnd (data.take batch) = .ok (some n) →
      motive (t.pass outs ((data.take batch).drop n)) (data.drop batch) later →
      motive t data (⟨t.output, ⟨t.id, true, t.carried ++ (data.take batch).take n⟩⟩ :: later))
    (h : laterRounds batch outs t data = .ok later) : motive t data later := by
  induction hn : data.length using Nat.strong_induction_on generalizing t data later with
  | _ n ih =>
    by_cases hdata : data = []
    · subst hdata
      rw [laterRounds_nil, Except.ok.injEq] at h
      exact h ▸ ended t
    have hless : (data.drop batch).length < n := hn ▸ length_drop_lt hbatch hdata
    cases hcut : lateLineEnd (data.take batch) with
    | error =>
      rw [laterRounds_of_error hbatch hdata hcut] at h
      cases h
    | ok cut =>
      cases cut with
      | none =>
        rw [laterRounds_of_none hbatch hdata hcut] at h
        obtain ⟨rest, hrest, rfl⟩ := map_eq_ok.1 h
        exact stay hdata hcut hrest (ih _ hless hrest rfl)
      | some =>
        rw [laterRounds_of_some hbatch hdata hcut] at h
        obtain ⟨rest, hrest, rfl⟩ := map_eq_ok.1 h
        exact pass hdata hcut (ih _ hless hrest rfl)

end RoundRobin

/-! ### What a dealing by lines is -/

/-- Blocks in turn that say `said`, and behind them, unless there is no rest, one block with the
rest.  That block goes to an output whose turn has just passed. -/
inductive DealsUpTo (outs turn : Nat) (said : Octets) : (rest : Octets) → List Dealt → Prop
  | all {ds : List Dealt} (inTurn : InTurn outs turn ds) (told : bodies ds = said) :
      DealsUpTo outs turn said [] ds
  | late {ds : List Dealt} {previous : Nat} {id : Int} {rest : Octets}
      (inTurn : InTurn outs turn ds) (told : bodies ds = said) (rest_ne_nil : rest ≠ [])
      (previous_lt : previous < outs) (passed : turnAfter outs turn ds = (previous + 1) % outs) :
      DealsUpTo outs turn said rest (ds ++ [⟨previous, ⟨id, true, rest⟩⟩])

theorem DealsUpTo.prepend {front : List Dealt} (hfront : InTurn outs turn front)
    (h : DealsUpTo outs (turnAfter outs turn front) said rest ds) :
    DealsUpTo outs turn (bodies front ++ said) rest (front ++ ds) := by
  cases h with
  | all inTurn told => exact .all (inTurn_append.2 ⟨hfront, inTurn⟩) (by rw [bodies_append, told])
  | late inTurn told rest_ne_nil previous_lt passed =>
    rw [← List.append_assoc]
    exact .late (inTurn_append.2 ⟨hfront, inTurn⟩) (by rw [bodies_append, told]) rest_ne_nil
      previous_lt
      (by rw [turnAfter_append, passed])

theorem DealsUpTo.cons {outs turn : Nat} {said rest : Octets} {b : Block} {ds : List Dealt}
    (h : DealsUpTo outs (nextTurn outs turn b.last) said rest ds) :
    DealsUpTo outs turn (b.body ++ said) rest (⟨turn, b⟩ :: ds) := by
  have hfront : InTurn outs turn [⟨turn, b⟩] := ⟨rfl, trivial⟩
  simpa using DealsUpTo.prepend hfront h

theorem DealsUpTo.of_nil {turn' : Nat} (h : DealsUpTo outs turn said rest []) :
    DealsUpTo outs turn' said rest [] := by
  generalize hds : ([] : List Dealt) = ds at h
  cases h with
  | all _ told =>
    subst hds
    exact .all trivial told
  | late => simp at hds

theorem DealsUpTo.bodies_eq (h : DealsUpTo outs turn said [] ds) : bodies ds = said := by
  cases h with
  | all _ told => exact told
  | late _ _ rest_ne_nil => exact absurd rfl rest_ne_nil

/-- The turn comes back to an output at once only if it is the only one. -/
theorem succ_mod_eq_self_iff {previous : Nat} (h : previous < outs) :
    (previous + 1) % outs = previous ↔ outs = 1 := by
  by_cases hlast : previous + 1 = outs
  · rw [hlast, Nat.mod_self]
    omega
  · rw [Nat.mod_eq_of_lt (by omega)]
    omega

/-- **A dealing is in turn exactly if there is no rest, or one output only.** -/
theorem DealsUpTo.inTurn_iff (h : DealsUpTo outs turn said rest ds) : InTurn outs turn ds ↔
    outs = 1 ∨ rest = [] := by
  cases h with
  | all inTurn => simpa using inTurn
  | late inTurn _ rest_ne_nil previous_lt passed =>
    rw [inTurn_append, passed, or_iff_left rest_ne_nil, ← succ_mod_eq_self_iff previous_lt]
    simp [InTurn, inTurn, eq_comm]

/-- **A merge gives all that was dealt in turn, and the rest only if there is one output.** -/
theorem DealsUpTo.mergeFrom_files
    (h : DealsUpTo outs turn said rest ds) (hturn : turn < outs) (hfit : ∀ d ∈ ds, d.block.Fits) :
    mergeFrom (files outs ds) turn = said ++ if outs = 1 then rest else [] := by
  have hnil : ∀ i < outs, ((List.range outs).map fun _ => ([] : Octets))[i]? = some [] := by
    intro i hi
    simp [hi]
  have hmerge := fun es => ShellFlow.mergeFrom_files (fun _ => []) es turn hturn
  simp only [append_nil, ← files_eq_map_fileOf] at hmerge
  cases h with
  | all inTurn told =>
    rw [hmerge ds inTurn hfit, mergeFrom_of_nil (hnil _ (turnAfter_lt hturn ds)), told]
    simp
  | @late front previous id _ inTurn told rest_ne_nil previous_lt passed =>
    by_cases hone : outs = 1
    · have hlate := @DealsUpTo.late outs turn said front previous id rest inTurn told rest_ne_nil
        previous_lt
        passed
      have hin := hlate.inTurn_iff.2 (.inl hone)
      rw [hmerge _ hin hfit, mergeFrom_of_nil (hnil _ (turnAfter_lt hturn _)), if_pos hone,
        bodies_append, told]
      simp
    -- the merge comes to an output that has ended, while the rest is on the one before
    · have hbehind := ShellFlow.mergeFrom_files
        (fileOf [⟨previous, ⟨id, true, rest⟩⟩]) front turn hturn inTurn
          (fun d hd => hfit d (by simp [hd]))
      simp only [← fileOf_append, ← files_eq_map_fileOf] at hbehind
      have hne : previous ≠ (previous + 1) % outs :=
        fun he => hone ((succ_mod_eq_self_iff previous_lt).1 he.symm)
      have hended : (files outs [⟨previous, ⟨id, true, rest⟩⟩])[(previous + 1) % outs]? =
          some [] := by
        rw [files_eq_map_fileOf]
        simp [Nat.mod_lt _ (Nat.lt_of_le_of_lt (Nat.zero_le _) hturn), fileOf_cons, hne]
      rw [hbehind, passed, mergeFrom_of_nil hended, told, if_neg hone]

namespace RoundRobin

variable {batch payload : Nat} {data : Octets} {later : List Dealt} {t : Turn}

/-- What is left at the end of the pieces of `data`, if `carried` was carried over to the first. -/
def leftOver (batch : Nat) (carried data : Octets) : Octets :=
  if data = [] then carried else unfinished (lastPiece batch data)

/-- What is left at the end does not change when the first piece is taken away. -/
theorem leftOver_drop (hbatch : 0 < batch) (carried : Octets) (hdata : data ≠ []) :
    leftOver batch (unfinished (data.take batch)) (data.drop batch) =
      leftOver batch carried data := by
  by_cases hlen : data.length ≤ batch
  · rw [leftOver, if_pos (drop_eq_nil_of_le hlen), leftOver, if_neg hdata,
      lastPiece_of_length_le hbatch hlen, take_of_length_le hlen]
  · have hmore : data.drop batch ≠ [] := by
      rw [← length_pos_iff, length_drop]
      omega
    rw [leftOver, if_neg hmore, leftOver, if_neg hdata, lastPiece_drop hbatch (by omega)]

theorem leftOver_nil_left (batch : Nat) (data : Octets) :
    leftOver batch [] data = unfinished (lastPiece batch data) := by
  by_cases hdata : data = []
  · subst hdata
    rw [leftOver, if_pos rfl, lastPiece, drop_nil]
    rfl
  · rw [leftOver, if_neg hdata]

/-- What the rounds after the first have dealt out from a turn on: blocks in turn, up to what is
left at the end, and none of them longer than two pieces. -/
structure LaterDeals (batch outs : Nat) (t : Turn) (data : Octets) (later : List Dealt) : Prop where
  deals : ∃ said, said ++ leftOver batch t.carried data = t.carried ++ data ∧
    DealsUpTo outs t.output said (leftOver batch t.carried data) later
  short : ∀ d ∈ later, d.block.body.length ≤ 2 * batch

/-- A turn whose output is one of the outputs.  If something is carried over, it comes from the
output whose turn was before. -/
structure Turn.Regular (batch outs : Nat) (t : Turn) : Prop where
  output_lt : t.output < outs
  carried_le : t.carried.length ≤ batch
  previous : t.carried ≠ [] → t.previous < outs ∧ t.output = (t.previous + 1) % outs

theorem Turn.Regular.stay (ht : t.Regular batch outs) : t.stay.Regular batch outs :=
  ⟨ht.output_lt, Nat.zero_le _, fun hne => absurd rfl hne⟩

theorem Turn.Regular.pass (ht : t.Regular batch outs) {carried : Octets}
    (hcarried : carried.length ≤ batch) : (t.pass outs carried).Regular batch outs :=
  ⟨Nat.mod_lt _ (Nat.lt_of_le_of_lt (Nat.zero_le _) ht.output_lt), hcarried,
    fun _ => ⟨ht.output_lt, rfl⟩⟩

theorem laterDeals_nil (ht : t.Regular batch outs) : LaterDeals batch outs t []
      (if t.carried = [] then [] else [⟨t.previous, ⟨t.id, true, t.carried⟩⟩]) := by
  have hcarried := ht.carried_le
  have hleft : leftOver batch t.carried [] = t.carried := if_pos rfl
  by_cases hnil : t.carried = []
  · rw [if_pos hnil]
    refine ⟨⟨[], by simp [hleft], ?_⟩, by simp⟩
    rw [hleft, hnil]
    exact .all trivial rfl
  · obtain ⟨hlt, hpassed⟩ := ht.previous hnil
    rw [if_neg hnil]
    refine ⟨⟨[], by simp [hleft], ?_⟩, by simp; omega⟩
    rw [hleft]
    exact @DealsUpTo.late outs t.output [] [] t.previous t.id t.carried trivial rfl hnil hlt hpassed

/-- A block in front of the rounds that deal out what comes behind its piece. -/
theorem LaterDeals.cons (hbatch : 0 < batch) (hdata : data ≠ []) (ht : t.Regular batch outs)
    {next : Turn} {b : Block} (h : LaterDeals batch outs next (data.drop batch) later)
    (hcarried : next.carried = unfinished (data.take batch))
    (hbody : b.body ++ next.carried = t.carried ++ data.take batch)
    (hturn : later ≠ [] → nextTurn outs t.output b.last = next.output) :
    LaterDeals batch outs t data (⟨t.output, b⟩ :: later) := by
  obtain ⟨said, hsaid, hdeals⟩ := h.deals
  have hleft : leftOver batch next.carried (data.drop batch) = leftOver batch t.carried data := by
    rw [hcarried, leftOver_drop hbatch t.carried hdata]
  rw [hleft] at hsaid hdeals
  have hnext : DealsUpTo outs (nextTurn outs t.output b.last) said (leftOver batch t.carried data)
      later := by
    by_cases hnil : later = []
    · rw [hnil] at hdeals ⊢
      exact hdeals.of_nil
    · rwa [hturn hnil]
  refine ⟨⟨b.body ++ said, ?_, hnext.cons⟩, forall_mem_cons.2 ⟨?_, h.short⟩⟩
  · rw [List.append_assoc, hsaid, ← List.append_assoc, hbody, List.append_assoc, take_append_drop]
  · have hlength := congrArg List.length hbody
    have hcarried := ht.carried_le
    simp only [length_append, length_take] at hlength
    dsimp only
    omega

/-- **The rounds after the first deal in turn, up to what is left at the end.** -/
theorem laterRounds_deals (hbatch : 0 < batch) (ht : t.Regular batch outs)
    (h : laterRounds batch outs t data = .ok later) : LaterDeals batch outs t data later := by
  refine laterRounds_induction (motive := fun t data later => t.Regular batch outs →
    LaterDeals batch outs t data later)
    hbatch (fun t => laterDeals_nil) ?_ ?_ h ht
  · intro t data later hdata hcut hrest ih ht
    refine (ih ht.stay).cons hbatch hdata ht (by rw [unfinished, hcut]; rfl) (append_nil _)
      fun hne => ?_
    -- a short piece is the last one, so nothing is dealt out behind it
    have hfull : ¬ (data.take batch).length < batch := by
      intro hshort
      rw [length_take] at hshort
      rw [drop_eq_nil_of_le (by omega), laterRounds_nil] at hrest
      exact hne (Except.ok.inj hrest).symm
    rw [nextTurn, decide_eq_false hfull]
    rfl
  · intro t data later k hdata hcut ih ht
    -- no more than a batch is carried over, which keeps the turn regular
    have hcarried : ((data.take batch).drop k).length ≤ batch := by
      rw [length_drop, length_take]
      omega
    refine (ih (ht.pass hcarried)).cons hbatch hdata ht (unfinished_of_some hcut).symm ?_
      (fun _ => rfl)
    show _ ++ (data.take batch).drop k = _
    rw [List.append_assoc, take_append_drop]

/-! ### All rounds -/

/-- The first round gives every output one block, in turn. -/
theorem firstRound_inTurn {share outs : Nat} {closed : Bool} (left output start : Nat)
    (rest : Octets) (houts : output + left + 1 = outs) :
    InTurn outs output (firstRound share closed output start rest left) ∧
    bodies (firstRound share closed output start rest left) = rest ∧
    turnAfter outs output (firstRound share closed output start rest left) =
      nextTurn outs (outs - 1) closed := by
  induction left generalizing output start rest with
  | zero =>
    obtain rfl : output = outs - 1 := by omega
    exact ⟨⟨rfl, trivial⟩, append_nil _, rfl⟩
  | succ left ih =>
    rw [firstRound]
    set n := shareCut share output start rest
    have hnext : nextTurn outs output true = output + 1 := Nat.mod_eq_of_lt (by omega)
    obtain ⟨hin, hbodies, hafter⟩ := ih (output + 1) (start + n) (rest.drop n) (by omega)
    refine ⟨⟨rfl, ?_⟩, ?_, ?_⟩
    · rw [hnext]
      exact hin
    · rw [bodies_cons, hbodies, take_append_drop]
    · rw [turnAfter, hnext]
      exact hafter

theorem length_le_of_mem_firstRound {share : Nat} {closed : Bool} (left output start : Nat)
    (rest : Octets) {d : Dealt} (hd : d ∈ firstRound share closed output start rest left) :
    d.block.body.length ≤ rest.length := by
  induction left generalizing output start rest with
  | zero =>
    obtain rfl := mem_singleton.1 hd
    exact Nat.le_refl _
  | succ left ih =>
    rcases mem_cons.1 hd with rfl | hd
    · exact length_take_le' _ _
    · exact Nat.le_trans (ih _ _ _ hd) (by rw [length_drop]; omega)

def Turn.afterFirst (outs : Nat) (closed : Bool) : Turn :=
  if closed then { output := 0, id := outs } else { output := outs - 1, id := outs - 1 }

theorem Turn.afterFirst_output (houts : 0 < outs) (closed : Bool) :
    (Turn.afterFirst outs closed).output = nextTurn outs (outs - 1) closed := by
  cases closed with
  | false => rfl
  | true =>
    show 0 = (outs - 1 + 1) % outs
    rw [Nat.sub_add_cancel houts, Nat.mod_self]

theorem Turn.afterFirst_carried (outs : Nat) (closed : Bool) :
    (Turn.afterFirst outs closed).carried = [] := by
  cases closed <;> rfl

theorem Turn.regular_of_carried_nil (hout : t.output < outs) (hcarried : t.carried = []) :
    t.Regular batch outs :=
  ⟨hout, by rw [hcarried]; exact Nat.zero_le _, fun hne => absurd hcarried hne⟩

theorem byLines_of_nil (h : data.take payload = []) :
    byLines payload batch outs data = laterRounds batch outs { output := 0, id := 0 } data := by
  simp [byLines, h]

/-- Whether the first round ends with a block that is the last of its group. -/
def closesFirst (payload : Nat) (start : Octets) : Bool :=
  decide (start.length < payload) || start.getLast? == some Octets.newline

/-- How much of the first round every output may get. -/
def shareOf (payload batch outs : Nat) (start : Octets) : Nat :=
  if start.length < payload then start.length / outs else batch

theorem byLines_of_ne_nil (h : data.take payload ≠ []) : byLines payload batch outs data =
      (laterRounds batch outs (Turn.afterFirst outs (closesFirst payload (data.take payload)))
        (data.drop payload)).map fun later =>
          firstRound (shareOf payload batch outs (data.take payload))
            (closesFirst payload (data.take payload)) 0 0 (data.take payload)
            (outs - 1) ++ later := by
  have hne : ¬ (data.take payload).isEmpty := by simpa using h
  simp only [byLines, if_neg hne]
  show (laterRounds batch outs (Turn.afterFirst outs (closesFirst payload (data.take payload)))
    (data.drop payload)).bind _ = _
  cases laterRounds batch outs (Turn.afterFirst outs (closesFirst payload (data.take payload)))
    (data.drop payload) with
  | error e => rfl
  | ok later => simp [Except.bind, Except.map, shareOf, closesFirst, pure, Except.pure]

/-- **A dealing by lines deals in turn, up to what the last piece leaves.** -/
theorem byLines_deals (hbatch : 0 < batch) (houts : 0 < outs)
    (h : byLines payload batch outs data = .ok ds) :
    (∃ said, said ++ unfinished (lastPiece batch (data.drop payload)) = data ∧
      DealsUpTo outs 0 said (unfinished (lastPiece batch (data.drop payload))) ds) ∧
    ∀ d ∈ ds, d.block.body.length ≤ payload + 2 * batch := by
  by_cases hstart : data.take payload = []
  · have hdrop : data.drop payload = data := by
      have hsplit := take_append_drop payload data
      rwa [hstart] at hsplit
    rw [byLines_of_nil hstart] at h
    have hdeals := laterRounds_deals hbatch
      (Turn.regular_of_carried_nil (t := { output := 0, id := 0 }) houts rfl) h
    rw [hdrop, ← leftOver_nil_left]
    exact ⟨hdeals.deals, fun d hd => Nat.le_trans (hdeals.short d hd) (by omega)⟩
  · rw [byLines_of_ne_nil hstart] at h
    obtain ⟨later, hlater, rfl⟩ := map_eq_ok.1 h
    set closed := closesFirst payload (data.take payload)
    set share := shareOf payload batch outs (data.take payload)
    obtain ⟨hin, hbodies, hafter⟩ :=
      @firstRound_inTurn share outs closed (outs - 1) 0 0 (data.take payload) (by omega)
    have hout := Turn.afterFirst_output houts closed
    have hcarried := Turn.afterFirst_carried outs closed
    have hregular : (Turn.afterFirst outs closed).Regular batch outs := by
      refine Turn.regular_of_carried_nil ?_ hcarried
      rw [hout]
      exact nextTurn_lt (by omega) closed
    have hdeals := laterRounds_deals hbatch hregular hlater
    obtain ⟨said, hsaid, hupto⟩ := hdeals.deals
    rw [hcarried, leftOver_nil_left, nil_append] at hsaid
    rw [hcarried, leftOver_nil_left, hout, ← hafter] at hupto
    refine ⟨⟨data.take payload ++ said, ?_, ?_⟩, ?_⟩
    · rw [List.append_assoc, hsaid, take_append_drop]
    · have hall := hupto.prepend hin
      rwa [hbodies] at hall
    · intro d hd
      rcases mem_append.1 hd with hd | hd
      · have hle := length_le_of_mem_firstRound _ _ _ _ hd
        rw [length_take] at hle
        omega
      · exact Nat.le_trans (hdeals.short d hd) (by omega)

/-- A piece behind which nothing is carried over: it ends with a line end, or its later half has
none. -/
def Finished (piece : Octets) : Prop :=
  WholeLines piece ∨ Octets.newline ∉ piece.drop ((piece.length - 1) / 2)

theorem behindLast_eq_zero_iff {x : UInt8} {xs : Octets} : Octets.behindLast x xs = 0 ↔ x ∉ xs := by
  rw [Octets.behindLast, ← length_reverse, length_eq_zero_iff, ← List.rdropWhile,
    rdropWhile_eq_nil_iff]
  constructor
  · intro h hx
    simpa using h x hx
  · intro h y hy
    rw [bne_iff_ne]
    rintro rfl
    exact h hy

theorem unfinished_eq_nil_iff {piece : Octets} : unfinished piece = [] ↔ Finished piece := by
  set middle := (piece.length - 1) / 2 with hmiddle
  set n := Octets.behindLast Octets.newline (piece.drop middle) with hn
  by_cases hzero : n = 0
  · have hnone : Octets.newline ∉ piece.drop middle := behindLast_eq_zero_iff.1 hzero
    have hcut : lateLineEnd piece = if middle = 0 then .error .outOfRange else .ok none := by
      simp only [lateLineEnd, ← hmiddle, ← hn]
      rw [if_neg (by omega)]
    have hnil : unfinished piece = [] := by
      rw [unfinished, hcut]
      by_cases hfirst : middle = 0 <;> simp [hfirst]
    exact ⟨fun _ => .inr hnone, fun _ => hnil⟩
  · have hcut : lateLineEnd piece = .ok (some (middle + n)) := by
      simp only [lateLineEnd, ← hmiddle, ← hn]
      rw [if_pos (by omega)]
    constructor
    · intro h
      have hline := (endsLine_of_lateLineEnd hcut).1
      rw [unfinished_of_some hcut] at h
      have hall := take_append_drop (middle + n) piece
      rw [h, append_nil] at hall
      rw [hall] at hline
      exact .inl (.inr hline)
    · rintro ((hnil | hline) | hnone)
      · rw [hnil]
        rfl
      · rw [unfinished_of_some (lateLineEnd_of_endsLine hline), drop_length]
      · exact absurd (behindLast_eq_zero_iff.2 hnone) hzero

end RoundRobin

/-! ### The program -/

namespace SplitCommand

variable {c : SplitCommand}

/-- A command line that asks for a dealing by lines, with headers.  Its batch is a machine word, and
large enough for every piece but the last to have a later half. -/
structure DealsLines (c : SplitCommand) : Prop where
  byLines : c.byLength = false
  headers : c.raw = false
  three_le_batch : 3 ≤ c.batch
  batch_lt : c.batch < Octets.range 31
  outputs_pos : 0 < c.outputs.length

section ByLines

variable (hlines : c.byLength = false) (hpos : 0 < c.batch) (hlt : c.batch < Octets.range 31)

include hlines hpos hlt

theorem dealt_eq_byLines (data : Octets) :
    c.dealt data = RoundRobin.byLines c.payload c.batch.toNat c.outputs.length data := by
  have hbatch : c.batch % Octets.range 64 = c.batch :=
    Int.emod_eq_of_lt (by omega) (Int.lt_trans hlt (by decide))
  rw [dealt, hlines, hbatch]
  rfl

/-- Every block of a dealing by lines has a length that is a machine word. -/
theorem fits_of_dealt (houts : 0 < c.outputs.length) {data : Octets}
    (h : c.dealt data = .ok ds) : ∀ d ∈ ds, d.block.Fits := by
  have hpayload : c.payload < Octets.range 32 := by
    have := Int.emod_lt_of_pos (c.batch * c.outputs.length) (b := Octets.range 32) (by decide)
    have := Int.emod_nonneg (c.batch * c.outputs.length) (b := Octets.range 32) (by decide)
    rw [payload]
    omega
  rw [dealt_eq_byLines hlines hpos hlt] at h
  intro d hd
  have hle := (RoundRobin.byLines_deals (by omega) houts h).2 d hd
  rw [Block.Fits]
  have h31 : Octets.range 31 = 2147483648 := rfl
  have h32 : Octets.range 32 = 4294967296 := rfl
  have h64 : Octets.range 64 = 18446744073709551616 := rfl
  omega

end ByLines

theorem DealsLines.batch_pos (hc : c.DealsLines) : 0 < c.batch :=
  Int.lt_of_lt_of_le (by decide) hc.three_le_batch

theorem DealsLines.dealt_eq (hc : c.DealsLines) (data : Octets) :
    c.dealt data = RoundRobin.byLines c.payload c.batch.toNat c.outputs.length data :=
  dealt_eq_byLines hc.byLines hc.batch_pos hc.batch_lt data

theorem DealsLines.fits (hc : c.DealsLines) {data : Octets} (h : c.dealt data = .ok ds) :
    ∀ d ∈ ds, d.block.Fits :=
  fits_of_dealt hc.byLines hc.batch_pos hc.batch_lt hc.outputs_pos h

/-- **When a merge gives back what was dealt.**  It does exactly if there is one output, or if
nothing is carried over behind the last piece; the blocks are in turn exactly then.  Otherwise what
is carried over is all that is lost. -/
theorem merge_dealt_eq_iff {c : SplitCommand} (hc : c.DealsLines) {data : Octets} {ds : List Dealt}
    (h : c.dealt data = .ok ds) :
    let last := RoundRobin.lastPiece c.batch.toNat (data.drop c.payload)
    (mergeStreams (files c.outputs.length ds) = data ↔ c.outputs.length = 1 ∨
      RoundRobin.Finished last) ∧
    (InTurn c.outputs.length 0 ds ↔ c.outputs.length = 1 ∨ RoundRobin.Finished last) ∧
    (c.outputs.length ≠ 1 →
      mergeStreams (files c.outputs.length ds) ++ RoundRobin.unfinished last = data) := by
  intro last
  have hfit := hc.fits h
  have hbatch := hc.three_le_batch
  rw [hc.dealt_eq] at h
  obtain ⟨said, hsaid, hdeals⟩ := (RoundRobin.byLines_deals (by omega) hc.outputs_pos h).1
  have hmerge : mergeStreams (files c.outputs.length ds) = _ :=
    hdeals.mergeFrom_files hc.outputs_pos hfit
  refine ⟨?_, ?_, ?_⟩
  · by_cases hone : c.outputs.length = 1
    · rw [hmerge, if_pos hone]
      exact iff_of_true hsaid (Or.inl hone)
    · rw [hmerge, if_neg hone, or_iff_right hone, ← RoundRobin.unfinished_eq_nil_iff,
        List.append_nil]
      constructor
      · intro hall
        exact List.append_right_eq_self.1 (hsaid.trans hall.symm)
      · intro hnil
        rw [← hsaid, hnil, List.append_nil]
  · rw [hdeals.inTurn_iff, RoundRobin.unfinished_eq_nil_iff]
  · intro hone
    rw [hmerge, if_neg hone, List.append_nil]
    exact hsaid

/-- Two outputs, and pieces of three octets. -/
def twoByThree : SplitCommand := { batch := 3, outputs := ["f", "g"] }

theorem dealsLines_twoByThree : twoByThree.DealsLines := ⟨rfl, rfl, by decide, by decide, by decide⟩

theorem merge_dealt_eq_of_last_piece_finished :
    twoByThree.DealsLines ∧ ∃ ds, twoByThree.dealt (.ofText "ab\ncd\na\nb\n") = .ok ds ∧
      mergeStreams (files twoByThree.outputs.length ds) = .ofText "ab\ncd\na\nb\n" := by
  refine ⟨dealsLines_twoByThree, ?_⟩
  have hdealt : twoByThree.dealt (.ofText "ab\ncd\na\nb\n") = .ok
      [⟨0, ⟨0, true, .ofText "ab\n"⟩⟩, ⟨1, ⟨1, true, .ofText "cd\n"⟩⟩,
        ⟨0, ⟨2, true, .ofText "a\n"⟩⟩,
        ⟨1, ⟨3, true, .ofText "b\n"⟩⟩] := by
    rw [dealsLines_twoByThree.dealt_eq]
    show RoundRobin.byLines 6 3 2 _ = _
    decide +kernel
  refine ⟨_, hdealt,
    (merge_dealt_eq_iff dealsLines_twoByThree hdealt).1.2 (Or.inr (Or.inl (Or.inr ?_)))⟩
  show EndsLine (RoundRobin.lastPiece 3 (List.drop 6 _))
  decide +kernel

/-- The last line is lost if it has no line end and the piece with it is cut. -/
theorem merge_dealt_loses_last_line :
    ∃ ds, twoByThree.DealsLines ∧ twoByThree.dealt (.ofText "ab\ncd\na\nb") = .ok ds ∧
      mergeStreams (files twoByThree.outputs.length ds) = .ofText "ab\ncd\na\n" ∧
      mergeStreams (files twoByThree.outputs.length ds) ≠ .ofText "ab\ncd\na\nb" := by
  have hdealt : twoByThree.dealt (.ofText "ab\ncd\na\nb") = .ok
      ([⟨0, ⟨0, true, .ofText "ab\n"⟩⟩, ⟨1, ⟨1, true, .ofText "cd\n"⟩⟩,
        ⟨0, ⟨2, true, .ofText "a\n"⟩⟩] ++
        [⟨0, ⟨3, true, .ofText "b"⟩⟩]) := by
    rw [dealsLines_twoByThree.dealt_eq]
    show RoundRobin.byLines 6 3 2 _ = _
    decide +kernel
  have hrest : Octets.ofText "b" = [98] := by decide +kernel
  have hdeals : DealsUpTo 2 0 (.ofText "ab\ncd\na\n") (.ofText "b") _ :=
    @DealsUpTo.late 2 0 (.ofText "ab\ncd\na\n")
      [⟨0, ⟨0, true, .ofText "ab\n"⟩⟩, ⟨1, ⟨1, true, .ofText "cd\n"⟩⟩,
        ⟨0, ⟨2, true, .ofText "a\n"⟩⟩] 0 3
      (.ofText "b") ⟨rfl, rfl, rfl, trivial⟩ (by decide +kernel) (by simp [hrest]) (by decide) rfl
  have hmerge : mergeStreams (files twoByThree.outputs.length _) =
    Octets.ofText "ab\ncd\na\n" ++ [] :=
    hdeals.mergeFrom_files (by decide) (dealsLines_twoByThree.fits hdealt)
  rw [List.append_nil] at hmerge
  refine ⟨_, dealsLines_twoByThree, hdealt, hmerge, ?_⟩
  rw [hmerge]
  intro heq
  have hshort : (Octets.ofText "ab\ncd\na\n").length = 8 := by decide +kernel
  have hlong : (Octets.ofText "ab\ncd\na\nb").length = 9 := by decide +kernel
  rw [heq, hlong] at hshort
  omega

end SplitCommand

end ShellFlow
