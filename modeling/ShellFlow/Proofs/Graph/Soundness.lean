import ShellFlow.Proofs.Graph.Ranges

/-!
# Divisions keep graphs sound

A division takes nodes out, and what it puts in reads and writes every edge once.  So edges and
nodes agree behind a division if they did before.  This needs that the operands of the node in front
are inputs of it, each listed once.
-/

namespace ShellFlow

open List

/-- The operands of a node still fit if it writes another edge than before. -/
theorem Node.OperandsFit.replaceEdge {m : Node} {old new : Int} (h : m.OperandsFit)
    (hold : old ∉ m.inputs) : (m.replaceEdge old new).OperandsFit := by
  intro hends
  obtain ⟨hnodup, hmem⟩ := h hends
  have hoperands : (m.replaceEdge old new).invocation.operands = m.invocation.operands := by
    refine (map_congr_left fun o ho => if_neg fun hedge => hold ?_).trans (map_id _)
    exact hmem old (mem_filterMap.2 ⟨o, ho, hedge⟩)
  have hinputs : (m.replaceEdge old new).inputs = m.inputs := by
    rw [Node.inputs_replaceEdge, Invocation.replaceIn]
    exact (map_congr_left fun i hi => if_neg fun heq : i = old => hold (heq ▸ hi)).trans (map_id _)
  rw [hoperands, hinputs]
  exact ⟨hnodup, hmem⟩

theorem Node.Placed.replaceEdge {m : Node} {old new : Int} (h : m.Placed) (hold : old ∉ m.inputs) :
    (m.replaceEdge old new).Placed := by
  refine ⟨h.fit.replaceEdge hold, fun hkind => ?_⟩
  have hne := h.rejoins hkind
  simpa [Node.replaceEdge, Invocation.replaceEdge] using hne

namespace Graph

variable {g g' : Graph} {s s' : ChannelSource} {t t' : Supply} {n : Node} {p : Parallelizer}
  {fanOut : Nat}
  {i j k : Int} {m : Node} {L : Layout}

namespace Layout

theorem base_node {v : View} (h : (L.base v n).node k = some m) :
    v.node k = some m ∧ k ≠ n.id ∧ ∀ m', L.fused = some m' → k ≠ m'.id := by
  rw [base] at h
  cases hfused : L.fused with
  | none =>
    rw [hfused] at h
    obtain ⟨hk, hm⟩ := View.node_of_remove h
    exact ⟨hm, hk, fun m' hm' => by cases hm'⟩
  | some =>
    rw [hfused] at h
    obtain ⟨hk', h⟩ := View.node_of_remove h
    obtain ⟨hk, hm⟩ := View.node_of_remove h
    exact ⟨hm, hk, fun m'' hm'' => Option.some.inj hm'' ▸ hk'⟩

namespace Describes

section

variable (h : L.Describes n p fanOut g s t g' s' t')
include h

theorem base_sound (hv : g.view.Sound t.nextNode s.next)
    (hn : g.node? n.id = some n) : (L.base g.view n).Sound t.nextNode s.next := by
  rw [base]
  cases hfused : L.fused with
  | none => exact hv.remove hn
  | some m =>
    refine (hv.remove hn).remove ?_
    rw [View.remove_node_of_ne _ (h.other m hfused)]
    exact ((h.fused m).1 hfused).2.1

/-- Nobody reads what is used once the nodes are taken out. -/
theorem base_target_of_used (hfit : ∀ m, L.fused = some m → m.OperandsFit)
    (hi : i ∈ L.used p fanOut) : (L.base g.view n).target i = none := by
  by_contra hne
  obtain ⟨-, hin, hfused⟩ := (L.base_target _ _ i).1 hne
  rw [used] at hi
  cases hm : L.fused with
  | none =>
    rw [hm] at hi
    obtain rfl := mem_singleton.1 hi
    exact hin (by simp [h.inputs])
  | some m =>
    rw [hm] at hi
    have hends := ((h.fused m).1 hm).ends_division
    exact hfused m hm ((hfit m hm hends).2 i (mem_usedOperands hi))

theorem nodup_used (hfit : ∀ m, L.fused = some m → m.OperandsFit) : (L.used p fanOut).Nodup := by
  rw [used]
  cases hm : L.fused with
  | none => simp
  | some m =>
    have hnodup := (hfit m hm ((h.fused m).1 hm).ends_division).1
    unfold usedOperands
    split
    · exact hnodup
    · exact hnodup.sublist ((take_sublist _ _).filterMap _)

theorem nodup_reads (hfit : ∀ m, L.fused = some m → m.OperandsFit)
    (hused : ∀ i ∈ L.used p fanOut, i < s.next) : (reads L.wires).Nodup := by
  obtain ⟨next, hfront, hgroups, hback⟩ := h.exists_ranges
  have hle := hfront.le
  rw [h.reads_wires]
  refine nodup_append.2 ⟨hfront.nodup_reads (h.nodup_used hfit) hused,
    (nodup_append.1 (hback.nodup_reads hgroups rfl)).2.1, ?_⟩
  rintro i hi j hj rfl
  have hback := (hback.mem_reads hgroups rfl hj).2.1
  rcases hfront.reads i hi with hi | hi
  · have := hused i hi
    omega
  · omega

theorem nodup_writes (ho : L.output < s.next) : (writes L.wires).Nodup := by
  obtain ⟨next, hfront, hgroups, hback⟩ := h.exists_ranges
  have hle := hfront.le
  have hcopies := (nodup_append.1 (nodup_groups hgroups L.pieces.length)).1
  rw [wires, writes_append, writes_append, writes_copies]
  refine nodup_append.2 ⟨nodup_append.2 ⟨hfront.nodup_writes, hcopies, ?_⟩, hback.nodup_writes, ?_⟩
  · rintro i hi j hj rfl
    obtain ⟨ids, hids, hj⟩ := mem_flatten.1 hj
    have := groups_range hgroups (mem_of_mem_take hids) hj
    have := (hfront.writes i).1 hi
    omega
  · rintro i hi j hj rfl
    have hback := hback.mem_writes hj
    rcases mem_append.1 hi with hi | hi
    · have := (hfront.writes i).1 hi
      omega
    · obtain ⟨ids, hids, hi⟩ := mem_flatten.1 hi
      have := groups_range hgroups (mem_of_mem_take hids) hi
      omega

/-- What was put in reads what is in front of what it writes, except where it writes the output of
the node. -/
theorem lt_of_mem (hused : ∀ i ∈ L.used p fanOut, i < s.next)
    {c : List Int × List Int} (hc : c ∈ L.wires) (hi : i ∈ c.1) (hj : j ∈ c.2) :
    i < j ∧ s.next ≤ j ∨ j = L.output ∧ s.next ≤ i := by
  obtain ⟨next, hfront, hgroups, hback⟩ := h.exists_ranges
  have hle := hfront.le
  obtain ⟨hcausal, -, hnew⟩ := causal_pieces hgroups hfront hused
  rcases mem_append.1 hc with hc | hc
  · exact .inl ⟨hcausal.own c hc i hi j hj, hnew j (mem_flatMap.2 ⟨c, hc, hj⟩)⟩
  · have := (hback.mem_reads hgroups rfl (mem_flatMap.2 ⟨c, hc, hi⟩)).2.1
    rcases hback.lt_of_mem hc hi hj with hlt | rfl
    · omega
    · exact .inr ⟨rfl, by omega⟩

/-- Whoever writes the open edge of a tree reads an edge from before only where a node in front was
taken out. -/
theorem used_of_final {final : Int} (hfinal : L.final = some final)
    {c : List Int × List Int} (hc : c ∈ L.wires) (hi : i ∈ c.1) (hmem : final ∈ c.2)
    (hlt : i < s.next) : L.fused ≠ none ∧ i ∈ L.used p fanOut := by
  obtain ⟨next, hfront, hgroups, hback⟩ := h.exists_ranges
  have hle := hfront.le
  have hlefinal := hback.le_final hgroups rfl hfinal
  rcases mem_append.1 hc with hc | hc
  · rcases mem_append.1 hc with hc | hc
    · have := (hfront.writes final).1 (mem_flatMap.2 ⟨c, hc, hmem⟩)
      omega
    · obtain ⟨u, ids, hu, hids, rfl⟩ := mem_copies hc
      obtain rfl := mem_singleton.1 hi
      refine ⟨fun hnone => ?_, (hfront.reads i (mem_append_right _ hu)).resolve_right (by omega)⟩
      have := hfront.fresh i hnone hu
      omega
  · have := (hback.mem_reads hgroups rfl (mem_flatMap.2 ⟨c, hc, hi⟩)).2.1
    omega

section

variable (hv : g.view.Sound t.nextNode s.next) (hops : g.OperandsBelow n p s.next)
  (hn : g.node? n.id = some n) (hfit : ∀ m, L.fused = some m → m.OperandsFit)
include hv hops hn hfit

theorem lays_sound {v : View}
    (hlays : Lays Node.Placed (L.base g.view n) t.nextNode L.wires v t'.nextNode) :
    v.Sound t'.nextNode s'.next := by
  obtain ⟨next, hfront, hgroups, hback⟩ := h.exists_ranges
  have hle := hfront.le
  have hlast := hback.next_le
  have hbase := h.base_sound hv hn
  have hused : ∀ i ∈ L.used p fanOut, i < s.next := fun i => h.used_lt hv hops hn
  have ho : L.output < s.next := hv.outputs_lt hn L.output (by simp [h.outputs])
  refine hlays.sound hbase (by omega) (h.nodup_reads hfit hused) (h.nodup_writes ho)
    (fun i hi => ?_) fun i hi => ?_
  · rw [h.reads_wires] at hi
    rcases mem_append.1 hi with hi | hi
    · rcases hfront.reads i hi with hi | hi
      · have := hused i hi
        exact ⟨by omega, h.base_target_of_used hfit hi⟩
      · exact ⟨by omega, hbase.target_of_le hi.1⟩
    · have hrange := (hback.mem_reads hgroups rfl hi).2.1
      exact ⟨hrange.2, hbase.target_of_le (by omega)⟩
  · rcases (mem_writes L).1 hi with (hi | hi) | hi
    · have := (hfront.writes i).1 hi
      exact ⟨by omega, hbase.source_of_le (by omega)⟩
    · obtain ⟨ids, hids, hi⟩ := mem_flatten.1 hi
      have := groups_range hgroups (mem_of_mem_take hids) hi
      exact ⟨by omega, hbase.source_of_le (by omega)⟩
    · rcases hback.mem_writes hi with rfl | hi
      · refine ⟨by omega, ?_⟩
        by_contra hne
        exact ((L.base_source _ _ _).1 hne).2.1 (by simp [h.outputs])
      · exact ⟨by omega, hbase.source_of_le (by omega)⟩

/-- The view behind a division: what was put in joins a sound view, and the writer of the open edge
of a tree, if there is one, writes the output of the node instead. -/
theorem view_cases :
    ∃ v, L.Joins n p g.view t v t' ∧ v.Sound t'.nextNode s'.next ∧
      (L.final = none ∧ g'.view = v ∨ ∃ final m, L.final = some final ∧ v.node m.id = some m ∧
        t.nextNode ≤ m.id ∧ m.Placed ∧ (m.inputs, m.outputs) ∈ L.wires ∧ final ∈ m.outputs ∧
        final ∉ m.inputs ∧ v.target final = none ∧ v.source L.output = none ∧
        g'.view = v.redirect m final L.output) := by
  obtain ⟨v, hjoins, hredirected⟩ := h.joins
  have hlays := hjoins.lays
  have hsound := h.lays_sound hv hops hn hfit hlays
  refine ⟨v, hjoins, hsound, ?_⟩
  cases hfinal : L.final with
  | none =>
    rw [hfinal] at hredirected
    exact .inl ⟨rfl, hredirected⟩
  | some final =>
    rw [hfinal] at hredirected
    obtain ⟨k, m, hk, hm, hview⟩ := hredirected
    obtain rfl : m.id = k := hsound.id_eq hm
    obtain ⟨next, hfront, hgroups, hback⟩ := h.exists_ranges
    have hle := hfront.le
    have hlefinal := hback.le_final hgroups rfl hfinal
    have ho : L.output < s.next := hv.outputs_lt hn L.output (by simp [h.outputs])
    have hbase := h.base_sound hv hn
    have hwrites : final ∈ m.outputs := by
      obtain ⟨m', hm', hmem⟩ := (hsound.source final m.id).1 hk
      obtain rfl := Option.mem_unique hm hm'
      exact hmem
    have hunread : v.target final = none := by
      by_contra hne
      rcases hlays.target_ne_none.1 hne with hmem | hne
      · rcases h.mem_reads.1 hmem with hmem | hmem
        · rcases hfront.reads final hmem with hmem | hmem
          · have := h.used_lt hv hops hn hmem
            omega
          · omega
        · exact (hback.mem_reads hgroups rfl hmem).1 hfinal
      · exact hne (hbase.target_of_le (by omega))
    have hunwritten : v.source L.output = none := by
      by_contra hne
      rcases hlays.source_ne_none.1 hne with hmem | hne
      · rw [hfinal] at hback
        exact hback.output_notMem (by omega) ((h.mem_writes_of_lt ho).1 hmem).2
      · exact ((L.base_source _ _ _).1 hne).2.1 (by simp [h.outputs])
    have hnotMem : final ∉ m.inputs := fun hmem => by
      have := (hsound.target final m.id).2 ⟨m, hm, hmem⟩
      rw [hunread] at this
      cases this
    -- a node from before writes no fresh edge
    obtain ⟨hid, hplaced, hwire⟩ := (hlays.node_cases hm).resolve_left fun hold => by
      have := hbase.outputs_lt hold final hwrites
      omega
    refine .inr ⟨final, m, rfl, hm, hid, hplaced, hwire, hwrites, hnotMem, hunread, hunwritten, ?_⟩
    rw [hview, hsound.redirect_eq hm hunread hwrites (by omega)]

/-- **A division keeps the view sound.** -/
theorem sound : g'.view.Sound t'.nextNode s'.next := by
  obtain ⟨v, -, hsound,
    ⟨-, hview⟩ | ⟨final, m, -, hm, -, -, -, -, -, hunread, hunwritten, hview⟩⟩ :=
    h.view_cases hv hops hn hfit
  · rwa [hview]
  · rw [hview]
    refine hsound.redirect hm hunread hunwritten ?_
    obtain ⟨next, hfront, -, hback⟩ := h.exists_ranges
    have := hv.outputs_lt hn L.output (by simp [h.outputs])
    have := hfront.le
    have := hback.next_le
    omega

/-- **The nodes behind a division** were there, or were put in.  Those that were put in write fresh
edges with greater numbers than the edges that they read, or the output of the node. -/
theorem node_cases (hm : g'.view.node k = some m) :
    (L.base g.view n).node k = some m ∨ t.nextNode ≤ k ∧ m.Placed ∧ ∀ i ∈ m.inputs, ∀ j ∈ m.outputs,
      i < j ∧ s.next ≤ j ∨ j = L.output ∧ (s.next ≤ i ∨ L.fused ≠ none ∧ i ∈ L.used p fanOut) := by
  have hused : ∀ i ∈ L.used p fanOut, i < s.next := fun i => h.used_lt hv hops hn
  have hput : ∀ m : Node, (m.inputs, m.outputs) ∈ L.wires → ∀ i ∈ m.inputs, ∀ j ∈ m.outputs,
      i < j ∧ s.next ≤ j ∨ j = L.output ∧ (s.next ≤ i ∨ L.fused ≠ none ∧ i ∈ L.used p fanOut) := by
    intro m hwire i hi j hj
    exact (h.lt_of_mem hused hwire hi hj).imp_right fun ⟨hj, hi⟩ => ⟨hj, .inl hi⟩
  obtain ⟨v, hjoins, hsound,
    ⟨-, hview⟩ | ⟨final, m₀, hfinal, hm₀, hid, hplaced, hwire, hwrites, hnotMem, hunread, -,
    hview⟩⟩ := h.view_cases hv hops hn hfit
  all_goals have hlays := hjoins.lays
  · rw [hview] at hm
    exact (hlays.node_cases hm).imp_right fun ⟨hk, hplaced, hwire⟩ => ⟨hk, hplaced, hput m hwire⟩
  · rw [hview] at hm
    rcases View.node_of_add hm with ⟨rfl, rfl⟩ | hm
    · refine .inr ⟨hid, hplaced.replaceEdge hnotMem, fun i hi j hj => ?_⟩
      rw [hsound.inputs_replaceEdge hm₀ hunread] at hi
      obtain ⟨j', hj', rfl⟩ := mem_map.1 hj
      split
      · -- the output takes the place of the open edge
        refine .inr ⟨rfl, ?_⟩
        by_cases hlt : i < s.next
        · exact .inr (h.used_of_final hfinal hwire hi hwrites hlt)
        · exact .inl (by omega)
      · exact hput m₀ hwire i hi j' hj'
    · obtain ⟨-, hm⟩ := View.node_of_remove hm
      exact (hlays.node_cases hm).imp_right fun ⟨hk, hplaced, hwire⟩ => ⟨hk, hplaced, hput m hwire⟩

/-- **A division puts in a node**, unless there is no aggregator and the node in front has no
operands. -/
theorem exists_node (hpos : 1 ≤ fanOut) :
    (∃ (k : Int) (m : Node), t.nextNode ≤ k ∧ g'.view.node k = some m) ∨
      p.splitter = .roundRobin ∧ p.aggregator ≠ .concatenate ∧ g'.view = L.base g.view n ∧
        ∃ m, L.fused = some m ∧ m.invocation.operands = [] := by
  obtain ⟨v, hjoins, hsound, ⟨hfinal, hview⟩ | ⟨final, m, -, hm, hid, -, -, -, -, -, -, hview⟩⟩ :=
    h.view_cases hv hops hn hfit
  · have hlays := hjoins.lays
    by_cases hwires : L.wires = []
    · obtain ⟨next, hfront, hgroups, hback⟩ := h.exists_ranges
      rw [wires, append_eq_nil_iff, append_eq_nil_iff] at hwires
      obtain ⟨⟨hfront', hcopies⟩, hnil⟩ := hwires
      rw [hnil, hfinal] at hback
      have hpieces : L.pieces.length = 0 := by
        have hlen := congrArg List.length hcopies
        rw [copies, length_zipWith, hgroups, length_groupIds, length_nil] at hlen
        omega
      have hsupply : L.supply fanOut = 0 := by
        have := hfront.length
        omega
      obtain ⟨hsplitter, hagg⟩ := hback.missing_of_nil
      refine .inr ⟨hsplitter, hagg, hview.trans ?_, ?_⟩
      · rw [wires, hfront', hcopies, hnil] at hlays
        exact hlays.eq_of_nil
      · rw [supply] at hsupply
        cases hfused : L.fused with
        | none =>
          rw [hfused] at hsupply
          exact absurd hsupply (Nat.ne_of_gt hpos)
        | some m =>
          rw [hfused] at hsupply
          exact ⟨m, rfl, eq_nil_of_length_eq_zero hsupply⟩
    · obtain ⟨k, m, hk, hm⟩ := hlays.exists_node hwires
      exact .inl ⟨k, m, hk, hview ▸ hm⟩
  · refine .inl ⟨m.id, m.replaceEdge final L.output, hid, ?_⟩
    rw [hview]
    simp [View.redirect, View.add]

end

end

end Describes

end Layout

end Graph

end ShellFlow
