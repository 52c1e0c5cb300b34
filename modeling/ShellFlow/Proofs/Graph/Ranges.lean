import ShellFlow.Proofs.Graph.Layout

/-!
# The numbers in a layout

The numbers of the edges that a division adds come in ranges: first those in front of the copies,
then those of the groups, then those behind the copies.  So it can be said of every edge, by its
number alone, by whom it may be read and written.
-/

namespace ShellFlow.Graph

open List

variable {g g' : Graph} {s s' : ChannelSource} {t t' : Supply} {n : Node} {p : Parallelizer}
  {fanOut : Nat} {i : Int}

/-! ### In front of the copies -/

/-- The edges that are read in the place of a node that ended a division, if it is taken out. -/
def usedOperands (p : Parallelizer) (fanOut : Nat) (m : Node) : List Int :=
  (if p.splitter = .roundRobinRaw then m.invocation.operands else m.invocation.operands.take
    fanOut).filterMap
    Operand.edge?

theorem mem_usedOperands {m : Node} (h : i ∈ usedOperands p fanOut m) :
    i ∈ m.invocation.operands.filterMap Operand.edge? := by
  unfold usedOperands at h
  split at h
  · exact h
  · exact ((take_sublist _ _).filterMap _).subset h

theorem filterMap_of_map_eq {os : List Operand} {us : List Int}
    (h : os.map Operand.edge? = us.map some) : os.filterMap Operand.edge? = us := by
  have hid : os.filterMap Operand.edge? = (os.map Operand.edge?).filterMap id := by
    rw [filterMap_map]
    rfl
  rw [hid, h, filterMap_map]
  exact filterMap_some

theorem map_take_edge (ids : List Int) (k : Nat) :
    ((ids.map Operand.edge).take k).map Operand.edge? = (ids.take k).map some := by
  rw [← map_take, map_map]
  rfl

namespace Layout

/-- The edges from before that are read in the place of the edge between the nodes that are taken
out. -/
def used (L : Layout) (p : Parallelizer) (fanOut : Nat) : List Int :=
    L.fused.elim [L.input] (usedOperands p fanOut)

/-- How many edges there are for copies to read. -/
def supply (L : Layout) (fanOut : Nat) : Nat := L.fused.elim fanOut (·.invocation.operands.length)

/-- The numbers from `first` on up to `next` are those of the edges in front of the copies. -/
structure FrontRange (L : Layout) (p : Parallelizer) (fanOut : Nat) (first next : Int) : Prop where
  le : first ≤ next
  writes (i : Int) : i ∈ writes L.front ↔ first ≤ i ∧ i < next
  reads (i : Int) : i ∈ reads L.front ++ L.pieces → i ∈ L.used p fanOut ∨ first ≤ i ∧ i < next
  used (i : Int) : i ∈ L.used p fanOut → i ∈ ShellFlow.reads L.front ++ L.pieces
  length : L.pieces.length = min fanOut (L.supply fanOut)
  reads_front (i : Int) : i ∈ ShellFlow.reads L.front → i ∈ L.used p fanOut
  fresh (i : Int) : L.fused = none → i ∈ L.pieces → first ≤ i
  nodup_writes : (ShellFlow.writes L.front).Nodup
  nodup_reads : (L.used p fanOut).Nodup → (∀ i ∈ L.used p fanOut, i < first) →
    (ShellFlow.reads L.front ++ L.pieces).Nodup

theorem frontRange {L : Layout} {first next : Int} {ins : List Operand}
    (h : Front p L.input first fanOut (L.fused.map (·.invocation.operands)) L.front ins next)
    (hpieces : (ins.take fanOut).map Operand.edge? = L.pieces.map some) :
    L.FrontRange p fanOut first next := by
  obtain ⟨x, o, fused, front, pieces, groups, back, final⟩ := L
  dsimp only at h hpieces
  generalize hops : fused.map (·.invocation.operands) = ops at h
  have hlen : pieces.length = (ins.take fanOut).length := by
    simpa using (congrArg List.length hpieces).symm
  cases h with
  | split =>
    obtain rfl := Option.map_eq_none_iff.1 hops
    rw [map_take_edge, take_of_length_le (by simp)] at hpieces
    obtain rfl := (List.map_inj_right fun _ _ => Option.some.inj).1 hpieces
    refine ⟨by omega, fun i => ?_, fun i hi => ?_, fun i hi => ?_, by simp [supply], fun i hi => ?_,
      fun i _ hi => ?_, ?_, fun _ hlt => ?_⟩
    · simp [mem_freshIds]
    · simpa [Layout.used, mem_freshIds] using hi
    · simpa [Layout.used] using Or.inl hi
    · simpa [Layout.used] using hi
    · exact (mem_freshIds.1 hi).1
    · simpa using nodup_freshIds first fanOut
    · have hx := hlt x (by simp [Layout.used])
      refine nodup_cons.2 ⟨fun hmem => ?_, nodup_freshIds first fanOut⟩
      have := (mem_freshIds.1 hmem).1
      omega
  | kept _ hsplitter =>
    obtain ⟨m, rfl, rfl⟩ := Option.map_eq_some_iff.1 hops
    have hused : usedOperands p fanOut m = pieces := by
      rw [usedOperands, if_neg hsplitter]
      exact filterMap_of_map_eq hpieces
    refine ⟨Int.le_refl _, fun i => ?_, fun i hi => ?_, fun i hi => ?_, ?_, fun i hi => ?_,
      fun i hnone => ?_, ?_,
      fun hnodup _ => ?_⟩
    · simp only [writes_nil, not_mem_nil, false_iff]
      omega
    · exact .inl (by simpa [Layout.used, hused] using hi)
    · simpa [Layout.used, hused] using hi
    · rw [hlen, length_take]
      rfl
    · cases hi
    · cases hnone
    · exact nodup_nil
    · simpa [Layout.used, hused] using hnodup
  | @untagged _ us hsplitter hus =>
    obtain ⟨m, rfl, rfl⟩ := Option.map_eq_some_iff.1 hops
    have hused : usedOperands p fanOut m = us := by
      rw [usedOperands, if_pos hsplitter]
      exact filterMap_of_map_eq hus
    have hcount : us.length = m.invocation.operands.length := by
      simpa using (congrArg List.length hus).symm
    rw [map_take_edge] at hpieces
    obtain rfl := (List.map_inj_right fun _ _ => Option.some.inj).1 hpieces
    have hreads :=
      @reads_copies us ((freshIds first m.invocation.operands.length).map ([·])) (by simp [hcount])
    have hwrites :=
      @writes_copies_singletons us (freshIds first m.invocation.operands.length) (by simp [hcount])
    refine ⟨by omega, fun i => ?_, fun i hi => ?_, fun i hi => ?_, ?_, fun i hi => ?_,
      fun i hnone => ?_, ?_,
      fun hnodup hlt => ?_⟩
    · rw [hwrites, mem_freshIds]
    · rw [hreads] at hi
      rcases mem_append.1 hi with hi | hi
      · exact .inl (by simpa [Layout.used, hused] using hi)
      · exact .inr (mem_freshIds.1 (mem_of_mem_take hi))
    · rw [hreads]
      exact mem_append_left _ (by simpa [Layout.used, hused] using hi)
    · simp [supply]
    · rw [hreads] at hi
      simpa [Layout.used, hused] using hi
    · cases hnone
    · rw [hwrites]
      exact nodup_freshIds _ _
    · simp only [Layout.used, Option.elim_some, hused] at hnodup hlt
      rw [hreads]
      refine nodup_append.2 ⟨hnodup, (nodup_freshIds _ _).sublist (take_sublist _ _), ?_⟩
      rintro i hi j hj rfl
      have := hlt i hi
      have := (mem_freshIds.1 (mem_of_mem_take hj)).1
      omega

end Layout

namespace Back

variable {o next first : Int} {w : Nat} {groups : List (List Int)} {ws : List (List Int × List Int)}
  {final : Option Int} {next' : Int} {group : List Int}

section

variable (h : Back o next p groups ws final next')
include h

theorem next_le : next ≤ next' := by
  cases h with
  | missing | one => exact Int.le_refl _
  | tree => omega

theorem mem_writes (hi : i ∈ writes ws) : i = o ∨ next ≤ i ∧ i < next' := by
  cases h with
  | missing => cases hi
  | one => exact .inl (by simpa using hi)
  | tree _ _ _ hwrites =>
    rw [hwrites] at hi
    exact .inr (mem_freshIds.1 hi)

theorem nodup_writes : (writes ws).Nodup := by
  cases h with
  | missing => exact nodup_nil
  | one => simp
  | tree _ _ _ hwrites =>
    rw [hwrites]
    exact nodup_freshIds _ _

/-- What is read and the open edge are distinct, because the numbers behind the groups are fresh. -/
theorem nodup_reads (hgroups : groups = groupIds first w fanOut)
    (hnext : next = first + (fanOut * w : Nat)) : (final.toList ++ reads ws).Nodup := by
  have hflatten : groups.flatten = freshIds first (fanOut * w) :=
    hgroups ▸ flatten_groupIds first w fanOut
  cases h with
  | missing => exact nodup_nil
  | @one ids _ _ hfirsts =>
    have hnodup := (nodup_freshIds first (fanOut * w)).sublist (hflatten ▸ firsts_sublist hfirsts)
    simpa using hnodup
  | tree _ _ _ _ hperm =>
    refine hperm.nodup_iff.2 ?_
    rw [hflatten, hnext, ← freshIds_append]
    exact nodup_freshIds _ _

theorem mem_reads (hgroups : groups = groupIds first w fanOut)
    (hnext : next = first + (fanOut * w : Nat)) (hi : i ∈ reads ws) :
    final ≠ some i ∧ (first ≤ i ∧ i < next') ∧ (i ∈ groups.flatten ∨ i ∈ writes ws) := by
  have hflatten : groups.flatten = freshIds first (fanOut * w) :=
    hgroups ▸ flatten_groupIds first w fanOut
  have hfinal : final ≠ some i := by
    rintro rfl
    exact (nodup_cons.1 (h.nodup_reads hgroups hnext)).1 hi
  refine ⟨hfinal, ?_⟩
  cases h with
  | missing => cases hi
  | @one ids _ _ hfirsts =>
    have hi : i ∈ groups.flatten := (firsts_sublist hfirsts).subset (by simpa using hi)
    have := mem_freshIds.1 (hflatten ▸ hi)
    exact ⟨by omega, .inl hi⟩
  | @tree _ final calls all _ _ hle hwrites hperm =>
    have hmem := hperm.subset (mem_cons_of_mem final hi)
    constructor
    · rw [hflatten, hnext, ← freshIds_append] at hmem
      have := mem_freshIds.1 hmem
      omega
    · refine (mem_append.1 hmem).imp_right fun hi => ?_
      rw [hwrites, mem_freshIds]
      have := mem_freshIds.1 hi
      omega

end

theorem output_notMem {root : Int} (h : Back o next p groups ws (some root) next') (ho : o < next) :
    o ∉ writes ws := by
  intro hmem
  cases h with
  | tree _ _ _ hwrites =>
    rw [hwrites] at hmem
    have := (mem_freshIds.1 hmem).1
    omega

theorem missing_of_nil (h : Back o next p groups [] none next') :
    p.splitter = .roundRobin ∧ p.aggregator ≠ .concatenate := by
  cases h with
  | missing hsplitter hagg => exact ⟨hsplitter, hagg⟩

theorem lt_of_mem (h : Back o next p groups ws final next') {c : List Int × List Int}
    (hc : c ∈ ws) {j : Int} (hi : i ∈ c.1) (hj : j ∈ c.2) : i < j ∧ next ≤ j ∨ j = o := by
  cases h with
  | missing => cases hc
  | one =>
    obtain rfl := mem_singleton.1 hc
    exact .inr (by simpa using hj)
  | tree _ _ _ hwrites _ hcausal =>
    refine .inl ⟨hcausal.own c hc i hi j hj, ?_⟩
    have hmem : j ∈ writes ws := mem_flatMap.2 ⟨c, hc, hj⟩
    rw [hwrites] at hmem
    exact (mem_freshIds.1 hmem).1

theorem le_final (h : Back o next p groups ws final next')
    (hgroups : groups = groupIds first w fanOut) (hnext : next = first + (fanOut * w : Nat))
    (hi : final = some i) : first ≤ i := by
  cases h with
  | missing | one => cases hi
  | tree _ _ _ _ hperm =>
    cases hi
    have hmem := hperm.subset mem_cons_self
    rw [hgroups, flatten_groupIds, hnext, ← freshIds_append] at hmem
    exact (mem_freshIds.1 hmem).1

theorem mem_firsts {ids : List Int} (h : firsts groups = .ok ids) (hgroup : group ∈ groups) :
    ∃ e ∈ group, e ∈ ids := by
  induction groups generalizing ids with
  | nil => cases hgroup
  | cons _ _ ih =>
    obtain ⟨e, es, rest, rfl, hrest, rfl⟩ := firsts_cons_eq_ok h
    rcases mem_cons.1 hgroup with rfl | hgroup
    · exact ⟨e, mem_cons_self, mem_cons_self⟩
    · obtain ⟨e, he, hmem⟩ := ih hrest hgroup
      exact ⟨e, he, mem_cons_of_mem _ hmem⟩

/-- Something of each group is read, or is the open edge. -/
theorem exists_read (h : Back o next p groups ws final next')
    (hagg : p.splitter = .roundRobin → p.aggregator = .concatenate) (hgroup : group ∈ groups) :
    ∃ e ∈ group, e ∈ reads ws ∨ final = some e := by
  cases h with
  | missing hsplitter hnot => exact absurd (hagg hsplitter) hnot
  | one _ _ hfirsts =>
    obtain ⟨e, he, hmem⟩ := mem_firsts hfirsts hgroup
    exact ⟨e, he, .inl (by simpa using hmem)⟩
  | tree _ hne _ _ hperm =>
    obtain ⟨e, he⟩ := exists_mem_of_ne_nil group (hne group hgroup)
    have hmem := hperm.symm.subset (mem_append_left _ (mem_flatten_of_mem hgroup he))
    rcases mem_cons.1 hmem with rfl | hmem
    · exact ⟨e, he, .inr rfl⟩
    · exact ⟨e, he, .inl hmem⟩

/-- Groups of one edge each are put together by one node, or by a tree of nodes that is planned
beforehand. -/
theorem of_singletons {outs : List Int} (h : Back o next p (outs.map ([·])) ws final next')
    (hagg : p.splitter = .roundRobin → p.aggregator = .concatenate) (hextra : p.extra = 0) :
    (final = none ∧ p.aggregator ≠ .binary ∧ ws = [(outs, [o])]) ∨
      ∃ root first last, final = some root ∧ p.splitter ≠ .roundRobin ∧ p.aggregator = .binary ∧
        Causal ws ∧ Chain 1 first (outs.map ([·])) ws last [[root]] := by
  cases h with
  | missing hsplitter hnot => exact absurd (hagg hsplitter) hnot
  | one _ hbinary hfirsts =>
    obtain rfl := firsts_singletons hfirsts
    exact .inl ⟨rfl, hbinary, rfl⟩
  | @tree _ root _ _ hsplitter _ _ _ _ hcausal hbinary hplan =>
    obtain ⟨first, last, hchain⟩ := hplan hextra
    exact .inr ⟨root, first, last, rfl, hsplitter, hbinary, hcausal, hchain⟩

/-- The missing edge is written again, unless the aggregator is not provided. -/
theorem output_iff (h : Back o next p groups ws final next') :
    o ∈ writes ws ∨ final ≠ none ↔ (p.splitter = .roundRobin → p.aggregator = .concatenate) := by
  cases h with
  | missing hsplitter hnot => simpa [hsplitter] using hnot
  | one hagg => simpa using hagg
  | tree hsplitter => simp [hsplitter]

end Back

namespace Layout

variable {L : Layout} {v : View}

theorem base_source (L : Layout) (v : View) (n : Node) (i : Int) : (L.base v n).source i ≠ none ↔
    v.source i ≠ none ∧ i ∉ n.outputs ∧ ∀ m, L.fused = some m → i ∉ m.outputs := by
  rw [base]
  cases L.fused with
  | none => simp [View.remove, and_comm]
  | some m =>
    simp only [View.remove, Option.elim_some, ne_eq, ite_eq_left_iff, Classical.not_imp,
      Option.some.injEq, forall_eq']
    grind

theorem base_target (L : Layout) (v : View) (n : Node) (i : Int) : (L.base v n).target i ≠ none ↔
    v.target i ≠ none ∧ i ∉ n.inputs ∧ ∀ m, L.fused = some m → i ∉ m.inputs := by
  rw [base]
  cases L.fused with
  | none => simp [View.remove, and_comm]
  | some m =>
    simp only [View.remove, Option.elim_some, ne_eq, ite_eq_left_iff, Classical.not_imp,
      Option.some.injEq, forall_eq']
    grind

namespace Describes

variable {next : Int}

theorem target_ne_none (h : L.Describes n p fanOut g s t g' s' t') : g'.view.target i ≠ none ↔
    i ∈ reads L.wires ∨ (L.base g.view n).target i ≠ none := by
  obtain ⟨v, hlays, hredirected⟩ := h.view
  have htarget : g'.view.target = v.target := by
    cases hfinal : L.final with
    | none =>
      rw [hfinal] at hredirected
      rw [hredirected]
    | some =>
      rw [hfinal] at hredirected
      obtain ⟨k, m, -, -, hview⟩ := hredirected
      rw [hview]
      rfl
  rw [htarget, hlays.target_ne_none]

theorem source_ne_none (h : L.Describes n p fanOut g s t g' s' t') (hi : L.final ≠ some i) :
    g'.view.source i ≠ none ↔ (i ∈ writes L.wires ∨ i = L.output ∧ L.final ≠ none) ∨
      (L.base g.view n).source i ≠ none := by
  obtain ⟨v, hlays, hredirected⟩ := h.view
  cases hfinal : L.final with
  | none =>
    rw [hfinal] at hredirected
    rw [hredirected, hlays.source_ne_none]
    simp
  | some final =>
    rw [hfinal] at hredirected hi
    obtain ⟨k, m, -, -, hview⟩ := hredirected
    have hne : i ≠ final := fun heq => hi (congrArg some heq.symm)
    have hsource : g'.view.source i = if i = L.output then some m.id else v.source i := by
      rw [hview]
      simp [View.setSource, hne]
    rw [hsource]
    by_cases ho : i = L.output
    · simp [ho]
    · rw [if_neg ho, hlays.source_ne_none]
      simp [ho]

/-- The open edge of a tree is written by something that was put in, or was written before. -/
theorem final_written (h : L.Describes n p fanOut g s t g' s' t') (hfinal : L.final = some i) :
    i ∈ writes L.wires ∨ (L.base g.view n).source i ≠ none := by
  obtain ⟨v, hlays, hredirected⟩ := h.view
  rw [hfinal] at hredirected
  obtain ⟨k, m, hk, -⟩ := hredirected
  exact hlays.source_ne_none.1 (by simp [hk])

section

variable (hgroups : L.groups = groupIds next (p.extra + 1).toNat fanOut)
include hgroups

theorem groups_range {ids : List Int} (hids : ids ∈ L.groups) (hi : i ∈ ids) :
    next ≤ i ∧ i < next + (fanOut * (p.extra + 1).toNat : Nat) := by
  have hmem : i ∈ L.groups.flatten := mem_flatten_of_mem hids hi
  rw [hgroups, flatten_groupIds] at hmem
  exact mem_freshIds.1 hmem

theorem nodup_groups (k : Nat) :
    ((L.groups.take k).flatten ++ (L.groups.drop k).flatten).Nodup := by
  rw [← flatten_append, take_append_drop, hgroups, flatten_groupIds]
  exact nodup_freshIds _ _

theorem length_pieces_le {first : Int} (hfront : L.FrontRange p fanOut first next) :
    L.pieces.length ≤ L.groups.length := by
  rw [hfront.length, hgroups, length_groupIds]
  exact Nat.min_le_left _ _

/-- What is in front of the copies reads edges from before, and the copies read those and what is in
front of them. -/
theorem causal_pieces (hfront : L.FrontRange p fanOut s.next next)
    (hused : ∀ i ∈ L.used p fanOut, i < s.next) : Causal (L.front ++ copies L.pieces L.groups) ∧
      (∀ i ∈ reads (L.front ++ copies L.pieces L.groups), i < next) ∧
      ∀ i ∈ writes (L.front ++ copies L.pieces L.groups), s.next ≤ i := by
  have hle := hfront.le
  have hreads := reads_copies (length_pieces_le hgroups hfront)
  have hold : ∀ i ∈ reads L.front, i < s.next := fun i hi => hused i (hfront.reads_front i hi)
  have hbelow : ∀ i ∈ reads L.front ++ L.pieces, i < next := fun i hi => by
    rcases hfront.reads i hi with hi | hi
    · have := hused i hi
      omega
    · omega
  have hcopied : ∀ i ∈ writes (copies L.pieces L.groups), next ≤ i := fun i hi => by
    rw [writes_copies] at hi
    obtain ⟨ids, hids, hi⟩ := mem_flatten.1 hi
    exact (groups_range hgroups (mem_of_mem_take hids) hi).1
  refine ⟨.append (.of_lt fun i hi j hj => ?_) (.of_lt fun i hi j hj => ?_) fun i hi j hj => ?_, ?_,
    fun i hi => ?_⟩
  · have := hold i hi
    have := (hfront.writes j).1 hj
    omega
  · have := hbelow i (mem_append_right _ (hreads ▸ hi))
    have := hcopied j hj
    omega
  · have := hold i hi
    have := hcopied j hj
    omega
  · rwa [reads_append, hreads]
  · rw [writes_append] at hi
    rcases mem_append.1 hi with hi | hi
    · exact ((hfront.writes i).1 hi).1
    · exact Int.le_trans hle (hcopied i hi)

end

section

variable (h : L.Describes n p fanOut g s t g' s' t')
include h

/-- The numbers in front of the copies, of the groups, and behind them. -/
theorem exists_ranges : ∃ next, L.FrontRange p fanOut s.next next ∧
    L.groups = groupIds next (p.extra + 1).toNat fanOut ∧
    Back L.output (next + (fanOut * (p.extra + 1).toNat : Nat)) p L.groups L.back L.final
      s'.next := by
  obtain ⟨ins, next, hfront, hpieces, hgroups, hback⟩ := h.front
  exact ⟨next, frontRange hfront hpieces, hgroups, hback⟩

theorem reads_wires : reads L.wires = reads L.front ++ L.pieces ++ reads L.back := by
  obtain ⟨next, hfront, hgroups, -⟩ := h.exists_ranges
  rw [wires, reads_append, reads_append, reads_copies (length_pieces_le hgroups hfront)]

theorem mem_reads : i ∈ reads L.wires ↔ i ∈ reads L.front ++ L.pieces ∨ i ∈ reads L.back := by
  rw [h.reads_wires, mem_append]

end

theorem mem_writes (L : Layout) : i ∈ writes L.wires ↔
    (i ∈ writes L.front ∨ i ∈ (L.groups.take L.pieces.length).flatten) ∨ i ∈ writes L.back := by
  rw [wires, writes_append, writes_append, writes_copies, mem_append, mem_append]

section

variable (h : L.Describes n p fanOut g s t g' s' t')
include h

theorem used_lt (hv : g.view.Sound t.nextNode s.next)
    (hops : g.OperandsBelow n p s.next) (hn : g.node? n.id = some n) (hi : i ∈ L.used p fanOut) :
    i < s.next := by
  rw [used] at hi
  cases hfused : L.fused with
  | none =>
    rw [hfused] at hi
    obtain rfl := mem_singleton.1 hi
    exact hv.inputs_lt hn L.input (by simp [h.inputs])
  | some m =>
    rw [hfused] at hi
    exact hops m ((h.fused m).1 hfused) i (mem_usedOperands hi)

/-- An edge from before is read by what was put in exactly if it is used. -/
theorem target_of_lt (hi : i < s.next) :
    g'.view.target i ≠ none ↔ i ∈ L.used p fanOut ∨ (L.base g.view n).target i ≠ none := by
  obtain ⟨next, hfront, hgroups, hback⟩ := h.exists_ranges
  rw [h.target_ne_none, h.mem_reads]
  refine or_congr_left ⟨?_, fun hused => .inl (hfront.used i hused)⟩
  rintro (hmem | hmem)
  · refine (hfront.reads i hmem).resolve_right fun hrange => ?_
    omega
  · have := (hback.mem_reads hgroups rfl hmem).2.1
    have := hfront.le
    omega

theorem final_ne (hi : i < s.next) : L.final ≠ some i := by
  intro hfinal
  obtain ⟨next, hfront, hgroups, hback⟩ := h.exists_ranges
  have := hback.le_final hgroups rfl hfinal
  have := hfront.le
  omega

/-- Of the edges from before, what was put in writes only the output of the node. -/
theorem mem_writes_of_lt (hi : i < s.next) : i ∈ writes L.wires ↔
    i = L.output ∧ i ∈ writes L.back := by
  obtain ⟨next, hfront, hgroups, hback⟩ := h.exists_ranges
  have hle := hfront.le
  rw [mem_writes]
  constructor
  · rintro ((hmem | hmem) | hmem)
    · have := (hfront.writes i).1 hmem
      omega
    · obtain ⟨ids, hids, hmem⟩ := mem_flatten.1 hmem
      have := groups_range hgroups (mem_of_mem_take hids) hmem
      omega
    · rcases hback.mem_writes hmem with ho | hlt
      · exact ⟨ho, hmem⟩
      · omega
  · exact fun hmem => .inr hmem.2

theorem source_of_lt (hi : i < s.next) (hne : i ≠ L.output) :
    g'.view.source i ≠ none ↔ (L.base g.view n).source i ≠ none := by
  rw [h.source_ne_none (h.final_ne hi), h.mem_writes_of_lt hi]
  simp [hne]

/-- The output of the node has a writer, unless the aggregator is not provided. -/
theorem source_output (ho : L.output < s.next) :
    g'.view.source L.output ≠ none ↔ (p.splitter = .roundRobin → p.aggregator = .concatenate) := by
  obtain ⟨next, -, -, hback⟩ := h.exists_ranges
  have hbase : ¬ (L.base g.view n).source L.output ≠ none := by
    rw [base_source, h.outputs]
    simp
  rw [h.source_ne_none (h.final_ne ho), h.mem_writes_of_lt ho, ← hback.output_iff]
  simp [hbase]

/-- With enough edges for the copies to read, every fresh edge that is read is written. -/
theorem source_of_le (hv : g.view.Sound t.nextNode s.next)
    (hlen : L.pieces.length = fanOut) (hused : ∀ i ∈ L.used p fanOut, i < s.next) (hi : s.next ≤ i)
    (htarget : g'.view.target i ≠ none) : g'.view.source i ≠ none := by
  obtain ⟨next, hfront, hgroups, hback⟩ := h.exists_ranges
  have htake : L.groups.take L.pieces.length = L.groups :=
    take_of_length_le (by simp [hgroups, hlen])
  have hbase : ¬ (L.base g.view n).target i ≠ none := by
    rw [base_target, hv.target_of_le hi]
    simp
  have hread := (h.target_ne_none.1 htarget).resolve_right hbase
  have hwritten : L.final ≠ some i ∧ i ∈ writes L.wires := by
    rw [mem_writes, htake]
    rcases h.mem_reads.1 hread with hread | hread
    · have hrange : s.next ≤ i ∧ i < next := (hfront.reads i hread).resolve_left fun hmem => by
        have := hused i hmem
        omega
      refine ⟨fun hfinal => ?_, .inl (.inl ((hfront.writes i).2 hrange))⟩
      have := hback.le_final hgroups rfl hfinal
      omega
    · obtain ⟨hfinal, -, hmem | hmem⟩ := hback.mem_reads hgroups rfl hread
      · exact ⟨hfinal, .inl (.inr hmem)⟩
      · exact ⟨hfinal, .inr hmem⟩
  exact (h.source_ne_none hwritten.1).2 (.inl (.inl hwritten.2))

/-- Without enough edges for the copies to read, something is read that nobody writes. -/
theorem exists_unwritten (hv : g.view.Sound t.nextNode s.next)
    (ho : L.output < s.next) (hagg : p.splitter = .roundRobin → p.aggregator = .concatenate)
    (hlen : L.pieces.length < fanOut) :
    ∃ i, s.next ≤ i ∧ g'.view.target i ≠ none ∧ g'.view.source i = none := by
  obtain ⟨next, hfront, hgroups, hback⟩ := h.exists_ranges
  have hle := hfront.le
  have hlt : L.pieces.length < L.groups.length := by rw [hgroups, length_groupIds]; exact hlen
  -- the first group that no copy writes
  obtain ⟨e, he, hread⟩ := hback.exists_read hagg (getElem_mem hlt)
  have hdrop : e ∈ (L.groups.drop L.pieces.length).flatten :=
    mem_flatten_of_mem (by rw [drop_eq_getElem_cons hlt]; exact mem_cons_self) he
  have hrange := groups_range hgroups (getElem_mem hlt) he
  have htake : e ∉ (L.groups.take L.pieces.length).flatten :=
    fun htake => (nodup_append.1 (nodup_groups hgroups _)).2.2 e htake e hdrop rfl
  have hbase : ¬ (L.base g.view n).source e ≠ none := by
    rw [base_source, hv.source_of_le (by omega)]
    simp
  have hwrites : e ∉ writes L.wires := by
    rw [mem_writes]
    rintro ((hfront' | hcopies) | hback')
    · have := (hfront.writes e).1 hfront'
      omega
    · exact htake hcopies
    · rcases hback.mem_writes hback' with rfl | hle'
      · omega
      · omega
  have hfinal : L.final ≠ some e := fun hfinal => (h.final_written hfinal).elim hwrites hbase
  refine ⟨e, by omega,
    h.target_ne_none.2 (.inl (h.mem_reads.2 (.inr (hread.resolve_right hfinal)))), ?_⟩
  by_contra hsource
  rcases (h.source_ne_none hfinal).1 hsource with (hmem | ⟨rfl, -⟩) | hsource
  · exact hwrites hmem
  · omega
  · exact hbase hsource

end

end Describes

end Layout

end ShellFlow.Graph
