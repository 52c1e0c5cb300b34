import ShellFlow.Proofs.Stream.Dealing
import ShellFlow.Proofs.Text

/-!
# Consecutive batches of lines

The output of the next line never decreases, so the outputs one behind the other hold the lines in
their order.  The line that completes a batch is the first one of the next output.  An output that
was entered so holds it besides what is counted from then on; nothing makes up for it on the first
output.
-/

namespace ShellFlow.Consecutive

open List

variable {batch count : UInt32} {last current i j : Nat} {lines : List Octets}
  {ps : List (Nat × Octets)}

/-! ### The outputs of the lines -/

theorem map_snd_assign : (assign batch last current count lines).map (·.2) = lines := by
  fun_induction assign batch last current count lines <;> simp_all

theorem le_fst_of_mem_assign : ∀ p ∈ assign batch last current count lines, current ≤ p.1 := by
  fun_induction assign batch last current count lines with
  | case1 => simp
  | case2 _ _ _ _ _ ih =>
    exact forall_mem_cons.2 ⟨Nat.le_succ _, fun p hp => (Nat.le_succ _).trans (ih p hp)⟩
  | case3 _ _ _ _ _ ih => exact forall_mem_cons.2 ⟨le_rfl, ih⟩

theorem fst_le_of_mem_assign (h : current ≤ last) :
    ∀ p ∈ assign batch last current count lines, p.1 ≤ last := by
  fun_induction assign batch last current count lines with
  | case1 => simp
  | case2 _ _ _ _ hnext ih => exact forall_mem_cons.2 ⟨hnext.2, ih hnext.2⟩
  | case3 _ _ _ _ _ ih => exact forall_mem_cons.2 ⟨h, ih h⟩

theorem pairwise_assign : (assign batch last current count lines).Pairwise (·.1 ≤ ·.1) := by
  fun_induction assign batch last current count lines with
  | case1 => exact .nil
  | case2 _ _ _ _ _ ih | case3 _ _ _ _ _ ih => exact .cons le_fst_of_mem_assign ih

/-- Lines whose outputs never decrease are, output by output, the lines. -/
theorem flatMap_filter_range (h : ps.Pairwise (·.1 ≤ ·.1)) (n : Nat) :
    (range n).flatMap (fun i => ps.filter (·.1 == i)) = ps.filter (·.1 < n) := by
  induction n with
  | zero => simp
  | succ n ih =>
    rw [range_succ, flatMap_append, ih, flatMap_singleton]
    clear ih
    induction h with
    | nil => rfl
    | @cons p ps hle _ ih =>
      rcases Nat.lt_trichotomy p.1 n with hlt | rfl | hgt
      · have hsucc : p.1 < n + 1 := by omega
        simp only [filter_cons, decide_eq_true_eq, beq_iff_eq, hlt, hlt.ne, hsucc, if_true,
          if_false, cons_append, ih]
      · -- all that is behind such a line has the output itself or a later one
        have hnil : ps.filter (·.1 < p.1) = [] := filter_eq_nil_iff.2 fun q hq => by
          simpa using hle q hq
        rw [hnil, nil_append] at ih
        simp [hnil, ih]
      · have hsucc : ¬ p.1 < n + 1 := by omega
        simp only [filter_cons, decide_eq_true_eq, beq_iff_eq, Nat.not_lt_of_gt hgt, hgt.ne', hsucc,
          if_false, ih]

/-! ### What the outputs hold -/

/-- The lines of an input with their outputs, in the order in which they are written. -/
def placed (batch : Int) (outs : Nat) (data : Octets) : List (Nat × Octets) :=
  assign (UInt32.ofInt batch) (outs - 1) 0 0 (Octets.lines data)

/-- The lines of an output. -/
def linesOf (batch : Int) (outs : Nat) (data : Octets) (i : Nat) : List Octets :=
  ((placed batch outs data).filter (·.1 == i)).map (·.2)

theorem outputs_eq_written (batch : Int) (outs : Nat) (data : Octets) :
    outputs batch outs data = (range outs).map fun i =>
    (linesOf batch outs data i).flatMap written := by
  simp only [linesOf, flatMap_map]
  rfl

theorem flatMap_linesOf (batch : Int) {outs : Nat} (houts : 0 < outs) (data : Octets) :
    (range outs).flatMap (linesOf batch outs data) = Octets.lines data := by
  have hall : (placed batch outs data).filter (·.1 < outs) = placed batch outs data :=
    filter_eq_self.2 fun p hp => by
      simpa using Nat.lt_of_le_pred houts (fst_le_of_mem_assign (Nat.zero_le _) p hp)
  have hsorted : (placed batch outs data).Pairwise (·.1 ≤ ·.1) := pairwise_assign
  show (range outs).flatMap (fun i => ((placed batch outs data).filter (·.1 == i)).map (·.2)) = _
  rw [← map_flatMap, flatMap_filter_range hsorted, hall]
  exact map_snd_assign

theorem flatMap_written (h : 0 ∉ lines.flatten) : lines.flatMap written = lines.flatten := by
  rw [← flatMap_id]
  refine flatMap_congr fun line hline => takeWhile_eq_self_iff.2 fun x hx => bne_iff_ne.2 ?_
  rintro rfl
  exact h (mem_flatten.2 ⟨line, hline, hx⟩)

/-- Only the last line can be without its line end, and a line end is nowhere else. -/
theorem lines_ends (xs : Octets) : (∀ line ∈ (Octets.lines xs).dropLast, EndsLine line) ∧
      ∀ line ∈ Octets.lines xs, line ≠ [] ∧ Octets.newline ∉ line.dropLast := by
  induction xs with
  | nil => simp [Octets.lines]
  | cons x xs ih =>
    rw [Octets.lines]
    split
    · next hx =>
      cases hlines : Octets.lines xs with
      | nil => simp
      | cons l ls =>
        rw [hlines] at ih
        simp_all [EndsLine]
    · next hx =>
      cases hlines : Octets.lines xs with
      | nil => simp
      | cons l ls =>
        rw [hlines] at ih
        obtain ⟨hends, hline⟩ := ih
        have hl : l ≠ [] := (hline l (by simp)).1
        refine ⟨?_, ?_⟩
        · cases ls <;> simp_all [EndsLine, getLast?_cons]
        · simp_all [dropLast_cons_of_ne_nil, Ne.symm hx]

/-- **Consecutive parts keep the stream.**  The outputs one behind the other are the input; each
holds whole lines of it, and lines are written to outputs that never decrease, so an output that was
left gets no line any more. -/
theorem outputs_keep_stream (batch : Int) {outs : Nat} (houts : 0 < outs) {data : Octets}
    (hdata : 0 ∉ data) : (outputs batch outs data).flatten = data ∧
      outputs batch outs data = (range outs).map (fun i => (linesOf batch outs data i).flatten) ∧
      (range outs).flatMap (linesOf batch outs data) = Octets.lines data ∧
      (∀ line ∈ (Octets.lines data).dropLast, EndsLine line) ∧
      (∀ line ∈ Octets.lines data, line ≠ [] ∧ Octets.newline ∉ line.dropLast) ∧
      (placed batch outs data).map (·.2) = Octets.lines data ∧
      (placed batch outs data).Pairwise (·.1 ≤ ·.1) := by
  have hlines := flatMap_linesOf batch houts data
  have houtputs : outputs batch outs data = (range outs).map fun i =>
      (linesOf batch outs data i).flatten := by
    rw [outputs_eq_written]
    refine map_congr_left fun i hi => flatMap_written fun hzero => hdata ?_
    obtain ⟨line, hline, hzero⟩ := mem_flatten.1 hzero
    rw [← Octets.flatten_lines data, ← hlines]
    exact mem_flatten.2 ⟨line, mem_flatMap.2 ⟨i, hi, hline⟩, hzero⟩
  refine ⟨?_, houtputs, hlines, (lines_ends data).1, (lines_ends data).2, map_snd_assign,
    pairwise_assign⟩
  conv_rhs => rw [← Octets.flatten_lines data, ← hlines, flatMap_def, flatten_flatten, map_map]
  rw [houtputs, Function.comp_def]

theorem outputs_keep_stream_unended : let data : Octets := [97, 10, 98, 10, 10, 99]
    0 ∉ data ∧ (outputs 2 2 data).flatten = data ∧ linesOf 2 2 data 1 = [[98, 10], [10], [99]] := by
  intro data
  have hdata : 0 ∉ data := by decide
  exact ⟨hdata, (outputs_keep_stream 2 (by decide) hdata).1, by decide⟩

/-! ### How many lines an output holds -/

theorem length_linesOf (batch : Int) (outs : Nat) (data : Octets) (i : Nat) :
    (linesOf batch outs data i).length = (placed batch outs data).countP (·.1 == i) := by
  rw [linesOf, length_map, countP_eq_length_filter]

section

variable (hcount : count.toNat < batch.toNat)
include hcount

theorem toNat_succ_of_lt : (count + 1).toNat = count.toNat + 1 := by
  have := batch.toNat_lt
  rw [UInt32.toNat_add]
  exact Nat.mod_eq_of_lt (by simp; omega)

/-- A line that does not open the next output leaves the batch incomplete. -/
theorem toNat_succ_lt (hnext : ¬ (count + 1 = batch ∧ current < last))
    (hcurrent : current < last) : (count + 1).toNat < batch.toNat := by
  have hne : (count + 1).toNat ≠ batch.toNat := fun heq => hnext ⟨UInt32.toNat_inj.1 heq, hcurrent⟩
  rw [toNat_succ_of_lt hcount] at hne ⊢
  omega

/-- **A later output is reached exactly if a batch is completed.** -/
theorem exists_later_iff (hcurrent : current < last) :
    (∃ j ≤ last, current < j ∧ 0 < (assign batch last current count lines).countP (·.1 == j)) ↔
      batch.toNat ≤ count.toNat + lines.length := by
  fun_induction assign batch last current count lines with
  | case1 => simp; omega
  | case2 current count line lines hnext ih =>
    have hbatch := toNat_succ_of_lt hcount
    rw [hnext.1] at hbatch
    simp only [length_cons]
    exact iff_of_true ⟨current + 1, hnext.2, Nat.lt_succ_self _, by simp⟩ (by omega)
  | case3 _ _ _ lines hnext ih =>
    have hrest := ih (toNat_succ_lt hcount hnext hcurrent) hcurrent
    rw [toNat_succ_of_lt hcount] at hrest
    rw [length_cons, Nat.add_comm lines.length, ← Nat.add_assoc, ← hrest]
    refine exists_congr fun j => and_congr_right fun _ => and_congr_right fun hj => ?_
    rw [countP_cons_of_neg (by simpa using hj.ne)]

/-- **What an output holds if a later one is reached**, besides the lines that were counted for the
current one. -/
theorem countP_assign (hi : current ≤ i) (hij : i < j) (hj : j ≤ last)
    (hlater : 0 < (assign batch last current count lines).countP (·.1 == j)) :
    (assign batch last current count lines).countP
    (·.1 == i) + (if i = current then count.toNat + 1 else 0) =
      batch.toNat := by
  fun_induction assign batch last current count lines with
  | case1 => simp at hlater
  | case2 current count line lines hnext ih =>
    -- the line that completes the batch of the current output is the first one of the next
    have hbatch := toNat_succ_of_lt hcount
    rw [hnext.1] at hbatch
    rcases Nat.lt_or_eq_of_le hi with hi | rfl
    · rw [countP_cons_of_neg (by simp; omega)] at hlater
      have hrest := ih (by simp; omega) hi hlater
      rw [if_neg hi.ne', ← hrest, countP_cons]
      by_cases heq : i = current + 1
      · simp [heq]
      · simp [heq, Ne.symm heq]
    · have hnone : (assign batch last (current + 1) 0 lines).countP (·.1 == current) = 0 :=
        countP_eq_zero.2 fun p hp => by
          simpa using (Nat.lt_of_succ_le (le_fst_of_mem_assign p hp)).ne'
      rw [countP_cons_of_neg (by simp), hnone, if_pos rfl, hbatch, Nat.zero_add]
  | case3 current count line lines hnext ih =>
    rw [countP_cons_of_neg (by simp; omega)] at hlater
    have hrest := ih (toNat_succ_lt hcount hnext (by omega)) hi hlater
    rw [toNat_succ_of_lt hcount] at hrest
    rw [← hrest, countP_cons]
    by_cases heq : i = current
    · simp [heq]
      omega
    · simp [heq, Ne.symm heq]

end

variable {b : Int} {outs : Nat}

theorem toNat_ofInt_of_lt (hpos : 1 ≤ b) (hlt : b < Octets.range 32) :
    ((UInt32.ofInt b).toNat : Int) = b := by
  have hrange : Octets.range 32 = 4294967296 := rfl
  rw [UInt32.ofInt, UInt32.toNat_ofNat']
  omega

/-- **The first output holds one line less than a batch.**  Every other output that is followed by
one with a line holds a batch.  So all of them do exactly if there is one output only or no batch is
completed. -/
theorem linesOf_length (hpos : 1 ≤ b) (hlt : b < Octets.range 32) (houts : 0 < outs)
    (data : Octets) :
      outputs b outs data = (range outs).map (fun i => (linesOf b outs data i).flatMap written) ∧
      (∀ i j, i < j → j < outs → linesOf b outs data j ≠ [] →
        ((linesOf b outs data i).length : Int) = if i = 0 then b - 1 else b) ∧
      ((∀ i j, i < j → j < outs → linesOf b outs data j ≠ [] →
        ((linesOf b outs data i).length : Int) = b) ↔
        outs = 1 ∨ (Octets.lines data).length < b) := by
  have hbatch := toNat_ofInt_of_lt hpos hlt
  have hstart : (0 : UInt32).toNat < (UInt32.ofInt b).toNat := by
    show 0 < _
    omega
  have hlines : ∀ i j, i < j → j < outs → linesOf b outs data j ≠ [] →
      ((linesOf b outs data i).length : Int) = if i = 0 then b - 1 else b := by
    intro i j hij hj hlater
    rw [← length_pos_iff, length_linesOf] at hlater
    have hcount := countP_assign hstart (Nat.zero_le i) hij (show j ≤ outs - 1 by omega) hlater
    rw [length_linesOf, placed]
    split
    · next hi =>
      rw [if_pos hi, UInt32.toNat_zero] at hcount
      omega
    · next hi =>
      rw [if_neg hi] at hcount
      omega
  refine ⟨outputs_eq_written b outs data, hlines, ⟨fun hall => ?_, ?_⟩⟩
  · by_contra hnot
    obtain ⟨hne, hle⟩ := not_or.1 hnot
    obtain ⟨j, hj, hpos, hlater⟩ := (exists_later_iff hstart (show 0 < outs - 1 by omega)).2
      (show _ ≤ 0 + (Octets.lines data).length by omega)
    have hlater : linesOf b outs data j ≠ [] := by
      rwa [← length_pos_iff, length_linesOf]
    have hfirst := hlines 0 j hpos (by omega) hlater
    rw [hall 0 j hpos (by omega) hlater, if_pos rfl] at hfirst
    omega
  · rintro (rfl | hfew) i j hij hj hlater
    · omega
    · rw [← length_pos_iff, length_linesOf] at hlater
      have hreached :=
        (exists_later_iff hstart (show 0 < outs - 1 by omega)).1 ⟨j, by omega, by omega, hlater⟩
      simp at hreached
      omega

/-- Three lines in batches of two: the second output holds two of them. -/
theorem linesOf_length_three : let data : Octets := [97, 10, 98, 10, 99, 10]
    ((linesOf 2 2 data 0).length : Int) = 2 - 1 ∧ linesOf 2 2 data 1 = [[98, 10], [99, 10]] := by
  intro data
  exact ⟨(linesOf_length (by decide) (by decide) (by decide) data).2.1 0 1 (by decide) (by decide)
    (by decide),
    by decide⟩

theorem linesOf_length_ne_batch :
    ∃ (b : Int) (outs : Nat) (data : Octets) (i j : Nat), 1 ≤ b ∧ i < j ∧ j < outs ∧
      linesOf b outs data j ≠ [] ∧ ((linesOf b outs data i).length : Int) ≠ b :=
  ⟨2, 2, [97, 10, 98, 10, 99, 10], 0, 1, by decide⟩

end ShellFlow.Consecutive
