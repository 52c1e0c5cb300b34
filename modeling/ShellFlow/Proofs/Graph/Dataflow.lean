import ShellFlow.Proofs.Graph.Preservation

/-!
# Divisions and the flow of data

Where a node is divided, and the node in front of it is taken out with it, copies are put behind the
operands of the latter.  They take as many operands as there are copies.  So an operand may be left
without a reader, a copy may be missing whose output is read, and an edge that the node in front has
written may be left without a writer.  From the numbers in a layout it can be said exactly when none
of this happens.
-/

namespace ShellFlow.Graph

variable {g g' : Graph} {s s' : ChannelSource} {t t' : Supply} {n : Node} {p : Parallelizer}
  {fanOut : Nat} {i : Int}
  (ids : List Int)

/-! ### No stream is cut -/

/-- No stream is cut between `g` and `g'`, where the node `n` of `g` was divided. -/
structure Connected (g : Graph) (n : Node) (g' : Graph) : Prop where
  /-- What is read is written, or came from outside before. -/
  fed (i : Int) : g'.view.target i ≠ none → g'.view.source i ≠ none ∨ g.IsInput i
  /-- What came from outside, and was read, is read. -/
  drawn (i : Int) : g.IsInput i → g.view.target i ≠ none → g'.view.target i ≠ none
  /-- The output of the node is written. -/
  output (i : Int) : i ∈ n.outputs → g'.view.source i ≠ none
  /-- Files that were written are written. -/
  files (i : Int) (e : Edge) : g.edge? i = some e → e.channel.isFile → e.source ≠ none →
    g'.view.source i ≠ none

/-- The node `m` in front of `n` can be taken out, and copies be put behind its operands. -/
structure Replaceable (g : Graph) (n : Node) (p : Parallelizer) (fanOut : Nat) (m : Node) :
    Prop where
  /-- There are operands for all copies. -/
  enough : fanOut ≤ m.invocation.operands.length
  /-- What the node reads from outside is an operand that is used. -/
  inputs (i : Int) : i ∈ m.inputs → g.IsInput i → i ∈ usedOperands p fanOut m
  /-- What the node writes is no operand, is no file, and nobody but `n` reads it. -/
  outputs (i : Int) : i ∈ m.outputs → i ∉ usedOperands p fanOut m ∧
    (g.view.target i = none ∨ g.view.target i = some n.id) ∧ ∀ e, g.edge? i = some e →
      e.channel.isFile = false

theorem isInput_of_source {e : Edge} (he : g.edge? i = some e) (hsource : g.view.source i = none) :
    g.IsInput i := by
  refine ⟨e, he, ?_⟩
  simpa [view, he] using hsource

theorem IsInput.source_eq_none (h : g.IsInput i) : g.view.source i = none := by
  obtain ⟨e, he, hsource⟩ := h
  simp [view, he, hsource]

namespace Layout.Describes

variable {L : Layout}

/-- No stream is cut if the node in front can be replaced. -/
theorem connected (h : L.Describes n p fanOut g s t g' s' t') (hedits : Edits s.next g s'.next g')
    (hv : g.view.Sound t.nextNode s.next) (hbelow : g.Below s.next)
    (hops : g.OperandsBelow n p s.next) (hn : g.node? n.id = some n)
    (hagg : p.splitter = .roundRobin → p.aggregator = .concatenate)
    (hreplaceable : ∀ m, g.Fuses n p m → g.Replaceable n p fanOut m) : g.Connected n g' := by
  have ho : L.output < s.next := hv.outputs_lt hn L.output (by simp [h.outputs])
  have houtput := (h.source_output ho).2 hagg
  have hused : ∀ i ∈ L.used p fanOut, i < s.next := fun i => h.used_lt hv hops hn
  have hlen : L.pieces.length = fanOut := by
    obtain ⟨next, hfront, -⟩ := h.exists_ranges
    rw [hfront.length, supply]
    cases hfused : L.fused with
    | none => exact Nat.min_self fanOut
    | some m => exact Nat.min_eq_left (hreplaceable m ((h.fused m).1 hfused)).enough
  -- whoever wrote an edge still does, unless it is taken out
  have hsource : ∀ i, i < s.next → g.view.source i ≠ none →
      (∀ m, L.fused = some m → i ∉ m.outputs) →
      g'.view.source i ≠ none := by
    intro i hi hs hm
    by_cases hio : i = L.output
    · rwa [hio]
    · refine (h.source_of_lt hi hio).2 ((L.base_source _ _ i).2 ⟨hs, ?_, hm⟩)
      simpa [h.outputs] using hio
  constructor
  case fed =>
    intro i htarget
    by_cases hi : s.next ≤ i
    · exact .inl (h.source_of_le hv hlen hused hi htarget)
    have hi : i < s.next := by omega
    obtain ⟨k', hk'⟩ := Option.ne_none_iff_exists'.1 htarget
    obtain ⟨e', he', -⟩ := Option.bind_eq_some_iff.1 hk'
    obtain ⟨e, he⟩ := hedits.exists_edge hi he'
    rcases (h.target_of_lt hi).1 htarget with hmem | hbase
    · by_cases hs : g.view.source i = none
      · exact .inr (isInput_of_source he hs)
      · refine .inl (hsource i hi hs fun m hfused hout => ?_)
        rw [used, hfused] at hmem
        exact ((hreplaceable m ((h.fused m).1 hfused)).outputs i hout).1 hmem
    · obtain ⟨ht, hin, hm⟩ := (L.base_target _ _ i).1 hbase
      by_cases hs : g.view.source i = none
      · exact .inr (isInput_of_source he hs)
      · refine .inl (hsource i hi hs fun m hfused hout => ?_)
        -- the only reader of what was taken out is taken out, too
        rcases ((hreplaceable m ((h.fused m).1 hfused)).outputs i hout).2.1 with hnone | hread'
        · exact ht hnone
        · obtain ⟨n', hn', hmem⟩ := (hv.target i n.id).1 hread'
          obtain rfl := Option.mem_unique hn hn'
          exact hin hmem
  case drawn =>
    intro i hinput ht
    obtain ⟨e, he, -⟩ := id hinput
    refine (h.target_of_lt (hbelow i e he)).2 ?_
    by_cases hin : i ∈ n.inputs
    · cases hfused : L.fused with
      | none =>
        refine .inl ?_
        rw [used, hfused]
        simpa [h.inputs] using hin
      | some m =>
        -- then the node in front writes the edge
        obtain ⟨⟨j, hj, hs⟩, -⟩ := (h.fused m).1 hfused
        rw [h.inputs, List.mem_singleton] at hin hj
        rw [hj, ← hin, hinput.source_eq_none] at hs
        cases hs
    · by_cases hm : ∃ m, L.fused = some m ∧ i ∈ m.inputs
      · obtain ⟨m, hfused, hmem⟩ := hm
        refine .inl ?_
        rw [used, hfused]
        exact (hreplaceable m ((h.fused m).1 hfused)).inputs i hmem hinput
      · refine .inr ((L.base_target _ _ i).2 ⟨ht, hin, fun m hfused hmem => hm ⟨m, hfused, hmem⟩⟩)
  case output =>
    intro i hi
    rw [h.outputs, List.mem_singleton] at hi
    rwa [hi]
  case files =>
    intro i e he hfile hs
    refine hsource i (hbelow i e he) (by simpa [Graph.view, he] using hs) fun m hfused hout => ?_
    have hnot := ((hreplaceable m ((h.fused m).1 hfused)).outputs i hout).2.2 e he
    rw [hfile] at hnot
    cases hnot

/-- A stream is cut if the node in front cannot be replaced. -/
theorem replaceable (h : L.Describes n p fanOut g s t g' s' t') (hcons : g.consistent? = .ok true)
    (hacyclic : g.Acyclic) (hv : g.view.Sound t.nextNode s.next) (hbelow : g.Below s.next)
    (hn : g.node? n.id = some n) (hconnected : g.Connected n g') :
    (p.splitter = .roundRobin → p.aggregator = .concatenate) ∧
      ∀ m, g.Fuses n p m → g.Replaceable n p fanOut m := by
  have ho : L.output < s.next := hv.outputs_lt hn L.output (by simp [h.outputs])
  have hagg := (h.source_output ho).1 (hconnected.output L.output (by simp [h.outputs]))
  refine ⟨hagg, fun m hm => ?_⟩
  have hfused := (h.fused m).2 hm
  obtain ⟨hmread, hmwritten⟩ := consistent_nodes hcons hm.2.1
  have hother := h.other m hfused
  -- nobody writes what the node in front wrote
  have hcut : ∀ i ∈ m.outputs, i < s.next ∧ g'.view.source i = none := by
    intro i hi
    have hlt := hv.outputs_lt hm.2.1 i hi
    have hio : i ≠ L.output := by
      rintro rfl
      have hk := ((consistent_nodes hcons hn).2 L.output (by simp [h.outputs])).symm.trans
        (hmwritten _ hi)
      exact hother (Option.some.inj hk).symm
    refine ⟨hlt, ?_⟩
    by_contra hs
    exact ((L.base_source _ _ i).1 ((h.source_of_lt hlt hio).1 hs)).2.2 m hfused hi
  have hunread : ∀ i ∈ m.outputs, g'.view.target i = none := by
    intro i hi
    by_contra ht
    rcases hconnected.fed i ht with hs | hinput
    · exact hs (hcut i hi).2
    · have := hinput.source_eq_none
      rw [hmwritten i hi] at this
      cases this
  constructor
  case enough =>
    by_contra hlt
    have hlen : L.pieces.length < fanOut := by
      obtain ⟨next, hfront, -⟩ := h.exists_ranges
      rw [hfront.length, supply, hfused]
      exact Nat.lt_of_le_of_lt (Nat.min_le_right _ _) (Nat.not_le.1 hlt)
    obtain ⟨i, hi, ht, hs⟩ := h.exists_unwritten hv ho hagg hlen
    rcases hconnected.fed i ht with hs' | ⟨e, he, -⟩
    · exact hs' hs
    · have := hbelow i e he
      omega
  case inputs =>
    intro i hi hinput
    obtain ⟨e, he, -⟩ := id hinput
    have ht := hconnected.drawn i hinput (by simp [hmread i hi])
    rcases (h.target_of_lt (hbelow i e he)).1 ht with hmem | hbase
    · rwa [used, hfused] at hmem
    · exact absurd hi (((L.base_target _ _ i).1 hbase).2.2 m hfused)
  case outputs =>
    intro i hi
    have hlt := (hcut i hi).1
    have hnot : ¬ (i ∈ L.used p fanOut ∨ (L.base g.view n).target i ≠ none) :=
      fun hor => (h.target_of_lt hlt).2 hor (hunread i hi)
    rw [not_or, used, hfused] at hnot
    refine ⟨hnot.1, ?_, fun e he => ?_⟩
    · by_contra hne
      rw [not_or] at hne
      refine hnot.2 ((L.base_target _ _ i).2 ⟨hne.1, fun hin => ?_, fun m' hm' hin => ?_⟩)
      · exact hne.2 ((consistent_nodes hcons hn).1 i hin)
      · obtain rfl := Option.mem_unique hfused hm'
        exact hacyclic.notMem_outputs hcons hm.2.1 hin hi
    · by_contra hfile
      rw [Bool.not_eq_false] at hfile
      have hs : e.source ≠ none := by
        have := hmwritten i hi
        simp only [Graph.view, he, Option.bind_some] at this
        simp [this]
      exact hconnected.files i e he hfile hs (hcut i hi).2

end Layout.Describes

/-- **Dividing a node cuts no stream** exactly if there is an aggregator and the node in front, if
it is taken out, can be replaced. -/
theorem parallelize_connected_iff {batch : Option Int} (hcons : g.consistent? = .ok true)
    (hacyclic : g.Acyclic) (hnum : ∀ k m, g.node? k = some m → m.id = k ∧ k < t.nextNode)
    (hbelow : g.Below s.next) (hops : g.OperandsBelow n p s.next) (hn : g.node? n.id = some n)
    (hpos : 1 ≤ fanOut) (hy : Yields (g.parallelize n.id p s fanOut batch) t (g', s') t') :
    g.Connected n g' ↔ (p.splitter = .roundRobin → p.aggregator = .concatenate) ∧
      ∀ m, g.Fuses n p m → g.Replaceable n p fanOut m := by
  have hv : g.view.Sound t.nextNode s.next := sound_of_lt hcons hbelow hnum
  obtain ⟨L, hL, hedits⟩ := parallelize_layout hv hops hn hpos hy
  constructor
  · exact hL.replaceable hcons hacyclic hv hbelow hn
  · rintro ⟨hagg, hreplaceable⟩
    exact hL.connected hedits hv hbelow hops hn hagg hreplaceable

/-- A node that puts files together. -/
def concatenation : Node where
  id := 0
  invocation :=
    { command := "cat"
      operands := ids.map .edge
      implicitOutput := some 3
      streaming := ids
      outputs := [3] }

/-- A node that may be divided into consecutive pieces. -/
def search : Node := stage 1 3 4 "grep" ⟨.consecutive, .concatenate, 0, true⟩

/-- Files are put together, and the result is searched. -/
def searched : Graph where
  nodes := ⟨[(0, concatenation ids), (1, search)]⟩
  edges :=
    ⟨(ids.map fun i =>
      (i, ⟨{ ident := i, resource := some (.file (Word.ofString "words")) }, none, some 0⟩)) ++
    [(3, ⟨{ ident := 3 }, some 0, some 1⟩), (4, ⟨{ ident := 4 }, some 1, none⟩)]⟩

theorem searched_acyclic : (searched ids).Acyclic := by
  refine acyclic_of_lt ?_
  rintro k k' ⟨i, hsource, htarget⟩
  obtain ⟨e, he, hsource⟩ := Option.bind_eq_some_iff.1 hsource
  obtain ⟨e', he', htarget⟩ := Option.bind_eq_some_iff.1 htarget
  obtain rfl := Option.mem_unique he he'
  have hmem := Table.mem_entries_of_get? he
  simp only [searched, List.mem_append, List.mem_map, List.mem_cons, List.not_mem_nil,
    Prod.mk.injEq, or_false] at hmem
  obtain ⟨j, -, rfl, rfl⟩ | ⟨rfl, rfl⟩ | ⟨rfl, rfl⟩ := hmem
  · cases hsource
  · cases hsource
    cases htarget
    decide
  · cases htarget

/-- Two copies take the place of two files and the node behind them. -/
theorem parallelize_connected_searched :
    (searched [0, 1]).consistent? = .ok true ∧ (searched [0, 1]).Acyclic ∧ ∃ g' s' t',
      Yields ((searched [0, 1]).parallelize 1 ⟨.consecutive, .concatenate, 0, true⟩ ⟨5, ""⟩ 2 none)
      { nextNode := 2 }
        (g', s') t' ∧ (searched [0, 1]).Connected search g' := by
  have hcons : (searched [0, 1]).consistent? = .ok true := by decide
  have hfront : ∀ m, (searched [0, 1]).Fuses search ⟨.consecutive, .concatenate, 0, true⟩ m →
      m = concatenation [0, 1] := by
    rintro m ⟨⟨i, hi, hsource⟩, hm, -⟩
    obtain rfl := List.mem_singleton.1 (show i ∈ [3] from hi)
    rw [← Option.some.inj (show some 0 = some m.id from hsource)] at hm
    exact (Option.some.inj hm).symm
  obtain ⟨⟨g', s'⟩, t', hy⟩ :
      ∃ r t', Yields ((searched [0, 1]).parallelize 1 ⟨.consecutive, .concatenate, 0, true⟩
      ⟨5, ""⟩ 2 none) { nextNode := 2 } r t' := exists_yields_of_isOk (by decide +kernel)
  refine ⟨hcons, searched_acyclic _, g', s', t', hy,
    (parallelize_connected_iff (n := search) hcons (searched_acyclic _) ?_ ?_ ?_ rfl (by decide)
      hy).2 ⟨by simp, ?_⟩⟩
  · intro k m hm
    have := Table.mem_entries_of_get? hm
    simp only [searched, List.mem_cons, List.not_mem_nil, Prod.mk.injEq, or_false] at this
    obtain ⟨rfl, rfl⟩ | ⟨rfl, rfl⟩ := this <;> simp [concatenation, search, stage]
  · intro i e he
    have := Table.mem_entries_of_get? he
    simp only [searched, List.map_cons, List.map_nil, List.cons_append, List.nil_append,
      List.mem_cons, List.not_mem_nil, Prod.mk.injEq, or_false] at this
    show i < 5
    omega
  · intro m hm i hi
    obtain rfl := hfront m hm
    revert i
    decide
  · intro m hm
    obtain rfl := hfront m hm
    refine ⟨by decide, fun i hi _ => ?_, fun i hi => ?_⟩
    · exact hi
    · obtain rfl := List.mem_singleton.1 (show i ∈ [3] from hi)
      refine ⟨by decide, Or.inr rfl, fun e he => ?_⟩
      obtain rfl := Option.some.inj he
      rfl

/-- Two copies take the place of three files and the node behind them, and nobody reads the third
file. -/
theorem parallelize_drops_operand :
    (searched [0, 1, 2]).consistent? = .ok true ∧ (searched [0, 1, 2]).Acyclic ∧ ∃ g' s' t',
      Yields ((searched [0, 1, 2]).parallelize 1 ⟨.consecutive, .concatenate, 0, true⟩
        ⟨5, ""⟩ 2 none) { nextNode := 2 } (g', s') t' ∧
      (searched [0, 1, 2]).IsInput 2 ∧ (searched [0, 1, 2]).view.target 2 = some 0 ∧
        g'.view.target 2 = none ∧
      ¬ (searched [0, 1, 2]).Connected search g' := by
  obtain ⟨⟨g', s'⟩, t', hy, htest⟩ := @exists_yields_of_any _ ((searched [0, 1, 2]).parallelize 1
    ⟨.consecutive, .concatenate, 0, true⟩ ⟨5, ""⟩ 2 none) { nextNode := 2 }
    (fun r => (r.1.view.target 2).isNone) (by decide +kernel)
  have hinput : (searched [0, 1, 2]).IsInput 2 := ⟨_, rfl, rfl⟩
  have hread : (searched [0, 1, 2]).view.target 2 = some 0 := rfl
  have hunread := Option.isNone_iff_eq_none.1 htest
  refine ⟨by decide, searched_acyclic _, g', s', t', hy, hinput, hread, hunread,
    fun hconnected => ?_⟩
  exact hconnected.drawn 2 hinput (by simp [hread]) hunread

end ShellFlow.Graph
