import ShellFlow.Proofs.Graph.Visiting

/-!
# Buffers are transparent

A graph with buffers put in is the graph, apart from buffers: every node is still there, writes what
it wrote and reads, through the buffers alone, what it read.  Every node is reached from the
sources, so that a node with several inputs reads none of them directly from another node.
-/

namespace ShellFlow.Graph

variable {g g' : Graph} {s s' : ChannelSource} {t t' : Supply} {i k : Int} {m : Node}

namespace Visiting

variable {g₀ : Graph} {first : Nat} {visited : List Int}

/-- At the end, whoever reads what a source or a visited node writes was visited. -/
theorem mem_of_source (h : Visiting g₀ g s t first [] visited)
    (hcons : g₀.consistent? = .ok true) {p : Int} (hp : p ∈ g₀.sourceNodes ∨ p ∈ visited)
    (hsource : g₀.view.source i = some p) (htarget : g₀.view.target i = some k) : k ∈ visited := by
  have hv := h.buffering
  obtain ⟨mp, hmp, hwrites⟩ := (consistent_edges hcons).1 hsource
  obtain ⟨m, hm, hreads⟩ := (consistent_edges hcons).2 htarget
  obtain ⟨mp', fp, hmp', hrenamedp, -⟩ := hv.kept p mp hmp
  obtain ⟨m', f, hm', hrenamed, -, hpath⟩ := hv.kept k m hm
  have hlast : g.view.target (f i) = some k := by
    refine (hv.sound.target (f i) k).2 ⟨m', hm', ?_⟩
    rw [hrenamed.inputs]
    exact List.mem_map_of_mem hreads
  have hcovered := h.covered p mp' hp hmp' i (by rwa [hrenamedp.outputs])
  -- along the buffers between the edge and its reader, whatever is reached was visited
  have hend : ∀ j, Relation.ReflTransGen (g₀.view.Buffers g.view) j (f i) →
      g₀.view.Covered g.view (fun k' => k' ∈ ([] : List Int) ∨ k' ∈ visited) j → k ∈ visited := by
    intro j hto
    induction hto using Relation.ReflTransGen.head_induction_on with
    | refl =>
      rintro ⟨j', hpath', hS⟩
      rcases hpath'.cases_head with rfl | ⟨c, ⟨b, n, hnone, hn, hbuffer⟩, -⟩
      · exact (hS k hlast).resolve_left (by simp)
      · -- the reader is a node of the graph, and no buffer
        have hread := (hv.sound.target (f i) b).2 ⟨n, hn, by simp [hbuffer.inputs]⟩
        obtain rfl := Option.mem_unique hlast hread
        rw [show g₀.view.node k = some m from hm] at hnone
        cases hnone
    | @head j c hstep _ ih =>
      rintro ⟨j', hpath', hS⟩
      obtain ⟨b, n, hnone, hn, hbuffer⟩ := hstep
      have hread := (hv.sound.target j b).2 ⟨n, hn, by simp [hbuffer.inputs]⟩
      rcases hpath'.cases_head with rfl | ⟨c', ⟨b', n', -, hn', hbuffer'⟩, hrest⟩
      · have hb : b ∈ visited := (hS b hread).resolve_left (by simp)
        exact ih (h.covered b n (.inr hb) hn c (by simp [hbuffer.outputs]))
      · have hread' := (hv.sound.target j b').2 ⟨n', hn', by simp [hbuffer'.inputs]⟩
        obtain rfl := Option.mem_unique hread hread'
        obtain rfl := Option.mem_unique hn hn'
        obtain rfl : c = c' := by simpa [hbuffer.outputs] using hbuffer'.outputs
        exact ih ⟨j', hrest, hS⟩
  exact hend i (hpath i hreads).1 hcovered

/-- **Every node that reads a written edge is visited**: all nodes are reached from the sources. -/
theorem mem_visited (h : Visiting g₀ g s t first [] visited) (hcons : g₀.consistent? = .ok true)
    (hacyclic : g₀.Acyclic) (hm : g₀.node? k = some m) (hreads : g₀.ReadsWritten m) :
    k ∈ visited := by
  have hreached : ∀ k m, g₀.node? k = some m → k ∈ g₀.sourceNodes ∨ k ∈ visited := by
    intro k
    induction k using (hacyclic.wellFounded hcons).induction with
    | _ k ih =>
      intro m hm
      by_cases hsource : k ∈ g₀.sourceNodes
      · exact .inl hsource
      · -- the node reads something, and all that it reads is written
        obtain ⟨i, hi⟩ : ∃ i, i ∈ m.inputs := by
          rcases List.eq_nil_or_concat m.inputs with hnil | ⟨_, i, hlast⟩
          · exact absurd (mem_sourceNodes.2 (.inr ⟨m, Table.mem_entries_of_get? hm, hnil⟩)) hsource
          · exact ⟨i, by simp [hlast]⟩
        have htarget := (consistent_nodes hcons hm).1 i hi
        obtain ⟨e, he, hread⟩ := Option.bind_eq_some_iff.1 htarget
        cases hp : e.source with
        | none =>
          have hmem := Table.mem_values_of_get? he
          exact absurd (mem_sourceNodes.2 (.inl ⟨e, hmem, hp, hread⟩)) hsource
        | some p =>
          have hp : g₀.view.source i = some p := by simp [view, he, hp]
          obtain ⟨mp, hmp, -⟩ := (consistent_edges hcons).1 hp
          exact .inr (h.mem_of_source hcons (ih p ⟨i, hp, htarget⟩ mp hmp) hp htarget)
  obtain ⟨i, hi, hwritten⟩ := hreads
  obtain ⟨p, hp⟩ := Option.ne_none_iff_exists'.1 hwritten
  obtain ⟨mp, hmp, -⟩ := (consistent_edges hcons).1 hp
  exact h.mem_of_source hcons (hreached p mp hmp) hp ((consistent_nodes hcons hm).1 i hi)

end Visiting

/-! ### Transparency -/

/-- The graph `g'` is `g` with buffers put in on some of its edges. -/
structure Buffered (g g' : Graph) : Prop where
  /-- All nodes are there.  They write what they wrote, and read at every position, through added
  buffers alone, what they read there. -/
  kept (k : Int) (m : Node) : g.node? k = some m → ∃ m', g'.node? k = some m' ∧
    m' = { m with invocation := m'.invocation } ∧ m'.invocation.command = m.invocation.command ∧
    m'.outputs = m.outputs ∧
    List.Forall₂ (Relation.ReflTransGen (g.view.Buffers g'.view)) m.inputs m'.inputs
  /-- All that is added is buffers with one input and one output. -/
  added (k : Int) (n : Node) : g.node? k = none → g'.node? k = some n → ∃ a c, n.IsBuffer a c
  /-- A node with several inputs reads what nodes wrote from added buffers. -/
  guarded (k : Int) (m m' : Node) : g.node? k = some m → g'.node? k = some m' →
    1 < m.inputs.length →
    List.Forall₂ (fun i j => g.view.source i ≠ none → ∃ b n, g'.view.source j = some b ∧
      g.node? b = none ∧
      g'.node? b = some n ∧ n.kind = .tee) m.inputs m'.inputs

theorem Visiting.buffered {g₀ : Graph} {first : Nat} {visited : List Int}
    (h : Visiting g₀ g s t first [] visited) (hcons : g₀.consistent? = .ok true)
    (hacyclic : g₀.Acyclic) : g₀.Buffered g := by
  have hv := h.buffering
  constructor
  case kept =>
    intro k m hm
    obtain ⟨m', f, hm', hrenamed, -, hpath⟩ := hv.kept k m hm
    refine ⟨m', hm', hrenamed.node, hrenamed.command, hrenamed.outputs, ?_⟩
    rw [hrenamed.inputs, List.forall₂_map_right_iff, List.forall₂_same]
    exact fun j hj => (hpath j hj).1
  case added => exact hv.added
  case guarded =>
    intro k m m' hm hm' hmany
    obtain ⟨m₁, f, hm₁, hrenamed, -, hpath⟩ := hv.kept k m hm
    obtain rfl := Option.mem_unique hm' hm₁
    rw [hrenamed.inputs, List.forall₂_map_right_iff, List.forall₂_same]
    intro i hi hwritten
    have hk := h.mem_visited hcons hacyclic hm ⟨i, hi, hwritten⟩
    have hsource : g.view.source (f i) ≠ none := fun hnone => hwritten ((hpath i hi).2.1 hnone)
    obtain ⟨b, hb⟩ := Option.ne_none_iff_exists'.1 hsource
    have hmem : f i ∈ m'.inputs := by
      rw [hrenamed.inputs]
      exact List.mem_map_of_mem hi
    have hnone : g₀.view.node b = none :=
      (h.guarded k m hk hm hmany m' hm' (f i) hmem b hb).resolve_right (by simp)
    obtain ⟨n, hn, -⟩ := (hv.sound.source (f i) b).1 hb
    obtain ⟨a, c, hbuffer⟩ := hv.added b n hnone hn
    exact ⟨b, n, hb, hnone, hn, hbuffer.kind⟩

theorem Acyclic.noLoop (hacyclic : g.Acyclic) (hcons : g.consistent? = .ok true) : g.view.NoLoop :=
  fun _ _ hm _ hi => hacyclic.notMem_outputs hcons hm hi

section

variable (hcons : g.consistent? = .ok true)
  (hnum : ∀ k m, g.node? k = some m → m.id = k ∧ k < t.nextNode)
include hcons hnum

/-- The beginning of a run: channels are numbered behind all edges, and the readers behind the
sources wait. -/
theorem yields_addBuffers (hloop : g.view.NoLoop) (hsource : Yields g.channelSource t s t') :
    Visiting g g s t' t'.nextNode ((t.order.list g.sourceNodes).map g.readers).flatten [] := by
  obtain ⟨hlast, hcount⟩ := yields_channelSource hsource
  have hv : g.view.Sound t'.nextNode s.next := by
    rw [hcount, ← Int.sub_add_cancel s.next 1]
    exact sound_view hcons hlast hnum
  refine visiting_start t.order hv hloop fun i e he => ?_
  have := le_lastEdge hlast (Table.mem_keys_of_get? he)
  omega

/-- A whole run: all visits are made, and everything is done by edits from the first number behind
all edges on. -/
theorem addBuffers_run (hloop : g.view.NoLoop) (hy : Yields g.addBuffers t g' t') :
    ∃ last s' first visited, g.lastEdge = .ok last ∧
      Visiting g g' s' t' first [] visited ∧ Edits (last + 1) g s'.next g' := by
  have hsources : ∀ k ∈ g.sourceNodes, ∃ m, g.node? k = some m :=
    fun k => exists_of_mem_sourceNodes hcons
  have hlisted : ∀ k ∈ t.order.list g.sourceNodes, ∃ m, g.node? k = some m := fun k hk =>
    hsources k ((t.order.perm _).mem_iff.1 hk)
  obtain ⟨s, t₁, hsource, hy⟩ := (yields_get_bind.1 hy).bind
  obtain ⟨waiting, hwaiting, hy⟩ := hy.lift_bind
  have hstart := yields_addBuffers hcons hnum hloop hsource
  rw [mapM_nextNodes hstart.buffering.sound hlisted] at hwaiting
  cases hwaiting
  obtain ⟨s', visited, hend, hedits⟩ := hstart.run hsources hy
  rw [← Int.sub_add_cancel s.next 1] at hedits
  exact ⟨s.next - 1, s', t₁.nextNode, visited, (yields_channelSource hsource).1, hend, hedits⟩

/-- **When buffers can be put in.** -/
theorem exists_addBuffers_iff (hacyclic : g.Acyclic) :
    (∃ g' t', Yields g.addBuffers t g' t') ↔
      g.edges.entries ≠ [] ∧ ∀ k m, g.node? k = some m → g.ReadsWritten m → g.CanBuffer m := by
  have hsources : ∀ k ∈ g.sourceNodes, ∃ m, g.node? k = some m :=
    fun k => exists_of_mem_sourceNodes hcons
  constructor
  · rintro ⟨g', t', hy⟩
    obtain ⟨last, s', first, visited, hlast, hend, -⟩ :=
      addBuffers_run hcons hnum (hacyclic.noLoop hcons) hy
    refine ⟨?_, fun k m hm hreads =>
      hend.checked k m (hend.mem_visited hcons hacyclic hm hreads) hm⟩
    intro hnil
    simp [lastEdge, Table.keys, hnil] at hlast
  · rintro ⟨hne, hcan⟩
    obtain ⟨last, hlast⟩ : ∃ last, g.lastEdge = .ok last := by
      obtain ⟨e, es, hes⟩ := List.exists_cons_of_ne_nil hne
      exact ⟨_, by simp [lastEdge, Table.keys, hes]; rfl⟩
    obtain ⟨s, t₁, hmake⟩ : ∃ s t₁, Yields (ChannelSource.make last "") t s t₁ :=
      exists_yields_of_isOk rfl
    have hsource : Yields g.channelSource t s t₁ := yields_lift_bind.2 ⟨last, hlast, hmake⟩
    have hstart := yields_addBuffers hcons hnum (hacyclic.noLoop hcons) hsource
    have hsteps : ((t.order.list g.sourceNodes).map g.readers).flatten.length +
        unvisitedWeight (g.weights t₁.nextNode (t₁.nextNode - t₁.nextNode)) [] ≤ g.visitBound := by
      rw [Nat.sub_self]
      exact start_le_visitBound g t.order _
    obtain ⟨g', t', hrun⟩ := hstart.exists_run hsources hcan hsteps
    refine ⟨g', t',
      yields_get_bind.2 (yields_bind.2 ⟨s, t₁, hsource, yields_lift_bind.2 ⟨_, ?_, hrun⟩⟩)⟩
    exact mapM_nextNodes hstart.buffering.sound fun k hk =>
      hsources k ((t.order.perm _).mem_iff.1 hk)

end

/-- **Buffers are transparent and guard every merge.**  They can be put in exactly if the graph has
an edge, and among the nodes that read a written edge none that reads several lists one twice, and
none drops tags without an output. -/
theorem addBuffers_transparent_iff (hcons : g.consistent? = .ok true) (hacyclic : g.Acyclic)
    (hnum : ∀ k m, g.node? k = some m → m.id = k ∧ k < t.nextNode) :
    (∃ g' t', Yields g.addBuffers t g' t' ∧ g.Buffered g') ↔
      g.edges.entries ≠ [] ∧ ∀ k m, g.node? k = some m → g.ReadsWritten m → g.CanBuffer m := by
  rw [← exists_addBuffers_iff hcons hnum hacyclic]
  refine exists₂_congr fun g' t' => and_iff_left_of_imp fun hy => ?_
  obtain ⟨last, s', first, visited, -, hend, -⟩ :=
    addBuffers_run hcons hnum (hacyclic.noLoop hcons) hy
  exact hend.buffered hcons hacyclic

/-- Two nodes write to a third. -/
def joined : Graph where
  nodes := ⟨[(0, stage 0 0 2 "grep" ⟨.roundRobin, .concatenate, 0, true⟩),
    (1, stage 1 1 3 "grep" ⟨.roundRobin, .concatenate, 0, true⟩),
    (2, { id := 2, invocation := { command := "comm", streaming := [2, 3], outputs := [4] } })]⟩
  edges := ⟨[(0, ⟨{ ident := 0 }, none, some 0⟩), (1, ⟨{ ident := 1 }, none, some 1⟩),
    (2, ⟨{ ident := 2 }, some 0, some 2⟩), (3, ⟨{ ident := 3 }, some 1, some 2⟩),
    (4, ⟨{ ident := 4 }, some 2, none⟩)]⟩

theorem addBuffers_transparent_joined : joined.consistent? = .ok true ∧ joined.Acyclic ∧
      ∃ g' t', Yields joined.addBuffers { nextNode := 3 } g' t' ∧ joined.Buffered g' := by
  have hfeeds : ∀ k k', joined.Feeds k k' → k < k' := by
    rintro k k' ⟨i, hsource, htarget⟩
    simp only [view, edge?, joined, Table.get?, Table.lookup] at hsource htarget
    grind
  have hnode : ∀ k m, joined.node? k = some m → (m.id = k ∧ k < 3) ∧ joined.CanBuffer m := by
    intro k m hm
    have hmem := Table.mem_entries_of_get? hm
    simp only [joined, List.mem_cons, List.not_mem_nil, Prod.mk.injEq, or_false] at hmem
    obtain ⟨rfl, rfl⟩ | ⟨rfl, rfl⟩ | ⟨rfl, rfl⟩ := hmem <;>
      exact ⟨by decide, by decide, by decide⟩
  have hcons : joined.consistent? = .ok true := by decide
  have hacyclic := acyclic_of_lt hfeeds
  exact ⟨hcons, hacyclic,
    (addBuffers_transparent_iff hcons hacyclic fun k m hm => (hnode k m hm).1).2
      ⟨by decide, fun k m hm _ => (hnode k m hm).2⟩⟩

/-- A graph of one node without edges. -/
def lone : Graph where
  nodes := ⟨[(0, { id := 0, invocation := { command := "true" } })]⟩

/-- No buffers can be put into a graph without edges, although none is needed. -/
theorem addBuffers_fails_without_edges : lone.consistent? = .ok true ∧ lone.Acyclic ∧
      Id.run (StateT.run (ExceptT.run lone.addBuffers) { nextNode := 1 }) =
      (.error .malformed, { nextNode := 1 }) := by
  refine ⟨by decide, acyclic_of_lt ?_, rfl⟩
  rintro k k' ⟨i, hsource, -⟩
  simp [view, edge?, lone, Table.get?, Table.empty, Table.lookup] at hsource

end ShellFlow.Graph

/-!
### Buffers behind splitters

A node that parts a stream should never wait for one of its readers, so buffers are to read its
outputs.  They are put there when the node is visited, and the visit begins behind the sources: a
splitter that reads from outside alone is never visited.  Its outputs are read by buffers only where
a reader brings one, or is one itself.
-/

namespace ShellFlow

open List

/-- The outputs of a node that parts a stream which buffers are to read: of consecutive pieces all
but the last. -/
def Node.parts (m : Node) : List Int :=
  match m.kind with
  | .split => m.outputs.dropLast
  | .roundSplit | .unwrap => m.outputs
  | _ => []

namespace Graph

variable {g₀ g g' : Graph} {s : ChannelSource} {t t' : Supply} {i k : Int} {m m' : Node}

theorem parts_subset (hi : i ∈ m.parts) : i ∈ m.outputs := by
  unfold Node.parts at hi
  split at hi
  · exact mem_of_mem_dropLast hi
  · exact hi
  · exact hi
  · cases hi

/-- Where a splitter asks for buffers: everywhere, but if it drops tags only on its first output. -/
theorem asksBuffer_iff (hi : i ∈ m.parts) : AsksBuffer m i ↔
    (m.kind = .unwrap → m.outputs.head? = some i) := by
  unfold AsksBuffer bufferedOutputs
  unfold Node.parts at hi
  split at hi
  · next hkind => simpa [hkind] using hi
  · next hkind => simpa [hkind] using hi
  · next hkind =>
    obtain ⟨j, js, hout⟩ := exists_cons_of_ne_nil (ne_nil_of_mem hi)
    simp [hkind, hout, eq_comm]
  · cases hi

/-- A buffer reads the edge. -/
def ReadByBuffer (g : Graph) (i : Int) : Prop :=
  ∃ b n, g.view.target i = some b ∧ g.node? b = some n ∧ n.kind = .tee

/-- Buffers read all parts of what was split. -/
def SplittersBuffered (g : Graph) : Prop :=
    ∀ k m, g.node? k = some m → ∀ i ∈ m.parts, g.ReadByBuffer i

/-- A reader of the edge reads others too, or is a buffer. -/
def BringsBuffer (g : Graph) (i : Int) : Prop :=
  ∃ k m, g.node? k = some m ∧ i ∈ m.inputs ∧ (1 < m.inputs.length ∨ m.kind = .tee)

/-- **When a buffer reads what a node writes.** -/
theorem Visiting.readByBuffer_iff {first : Nat} {visited : List Int}
    (h : Visiting g₀ g s t first [] visited) (hcons : g₀.consistent? = .ok true)
    (hacyclic : g₀.Acyclic) (hm : g₀.node? k = some m) (hi : i ∈ m.outputs) :
    g.ReadByBuffer i ↔ g₀.ReadsWritten m ∧ AsksBuffer m i ∨ g₀.BringsBuffer i := by
  have hv := h.buffering
  constructor
  · rintro ⟨b, n, htarget, hn, htee⟩
    cases hb : g₀.node? b with
    | none =>
      refine (h.parting.asked k m i b hm hi htarget hb).imp ?_ ?_
      · rintro ⟨hvisited, hask⟩
        exact ⟨h.reads k m (.inr hvisited) hm, hask⟩
      · rintro ⟨k', m', hm', hreads, hmany⟩
        exact ⟨k', m', hm', hreads, .inl hmany⟩
    | some mb =>
      obtain ⟨n', hn', hreads⟩ := (hv.sound.target i b).1 htarget
      obtain ⟨n₁, f, hn₁, hrenamed, -⟩ := hv.kept b mb hb
      obtain rfl := Option.mem_unique hn hn'
      obtain rfl := Option.mem_unique hn hn₁
      exact .inr ⟨b, mb, hb, hv.mem_inputs hm hi hb hn' hreads,
        .inr (hrenamed.kind_eq.symm.trans htee)⟩
  · rintro (⟨hreads, hask⟩ | ⟨k', m', hm', hreads, hbrings⟩)
    · obtain ⟨b, hb, hnone⟩ :=
        h.parting.tapped k m i (h.mem_visited hcons hacyclic hm hreads) hm hask
      obtain ⟨n, hn, -⟩ := (hv.sound.target i b).1 hb
      obtain ⟨a, c, hbuffer⟩ := hv.added b n hnone hn
      exact ⟨b, n, hb, hn, hbuffer.kind⟩
    · obtain ⟨m₁, f, hm₁, hrenamed, -, hpath⟩ := hv.kept k' m' hm'
      rcases (hpath i hreads).1.cases_head with hsame | ⟨c, ⟨b, n, -, hn, hbuffer⟩, -⟩
      · -- the reader still reads the edge itself
        have hreads' : i ∈ m₁.inputs := by
          rw [hrenamed.inputs]
          exact mem_map.2 ⟨i, hreads, hsame.symm⟩
        rcases hbrings with hmany | htee
        · -- which it does not if it reads several: they come from added buffers
          obtain ⟨mk, fk, hmk, hrenamedk, -⟩ := hv.kept k m hm
          have hsource := (hv.sound.source i k).2 ⟨mk, hmk, hrenamedk.outputs ▸ hi⟩
          have hwritten : g₀.view.source i ≠ none := by simp [(consistent_nodes hcons hm).2 i hi]
          have hvisited := h.mem_visited hcons hacyclic hm' ⟨i, hreads, hwritten⟩
          rcases h.guarded k' m' hvisited hm' hmany m₁ hm₁ i hreads' k hsource with hnone | hmem
          · rw [show g₀.view.node k = some m from hm] at hnone
            cases hnone
          · cases hmem
        · exact ⟨k', m₁, (hv.sound.target i k').2 ⟨m₁, hm₁, hreads'⟩, hm₁,
            hrenamed.kind_eq.trans htee⟩
      · exact ⟨b, n, (hv.sound.target i b).2 ⟨n, hn, by simp [hbuffer.inputs]⟩, hn, hbuffer.kind⟩

theorem Visiting.splittersBuffered_iff {first : Nat} {visited : List Int}
    (h : Visiting g₀ g s t first [] visited) (hcons : g₀.consistent? = .ok true)
    (hacyclic : g₀.Acyclic) : g.SplittersBuffered ↔ ∀ k m, g₀.node? k = some m → ∀ i ∈ m.parts,
      g₀.ReadsWritten m ∧ (m.kind = .unwrap → m.outputs.head? = some i) ∨ g₀.BringsBuffer i := by
  have hparts : ∀ {f m m'}, Node.Renamed f m m' → m'.parts = m.parts := fun hrenamed => by
    rw [Node.parts, Node.parts, hrenamed.kind_eq, hrenamed.outputs]
  constructor
  · intro hall k m hm i hi
    obtain ⟨m', f, hm', hrenamed, -⟩ := h.buffering.kept k m hm
    rw [← asksBuffer_iff hi, ← h.readByBuffer_iff hcons hacyclic hm (parts_subset hi)]
    exact hall k m' hm' i (hparts hrenamed ▸ hi)
  · intro hall k m' hm' i hi
    cases hm : g₀.node? k with
    | none =>
      obtain ⟨a, c, hbuffer⟩ := h.buffering.added k m' hm hm'
      rw [Node.parts, hbuffer.kind] at hi
      cases hi
    | some m =>
      obtain ⟨m₁, f, hm₁, hrenamed, -⟩ := h.buffering.kept k m hm
      obtain rfl := Option.mem_unique hm' hm₁
      rw [hparts hrenamed] at hi
      rw [h.readByBuffer_iff hcons hacyclic hm (parts_subset hi), asksBuffer_iff hi]
      exact hall k m hm i hi

/-- **When buffers read what splitters write.**  Exactly if buffers can be put in at all, and every
splitter reads from a node, unless whoever reads its outputs brings a buffer. -/
theorem addBuffers_splitters_iff (hcons : g.consistent? = .ok true) (hacyclic : g.Acyclic)
    (hnum : ∀ k m, g.node? k = some m → m.id = k ∧ k < t.nextNode) :
    (∃ g' t', Yields g.addBuffers t g' t' ∧ g'.SplittersBuffered) ↔
      (g.edges.entries ≠ [] ∧ ∀ k m, g.node? k = some m → g.ReadsWritten m → g.CanBuffer m) ∧
      ∀ k m, g.node? k = some m → ∀ i ∈ m.parts,
        g.ReadsWritten m ∧ (m.kind = .unwrap → m.outputs.head? = some i) ∨ g.BringsBuffer i := by
  rw [← exists_addBuffers_iff hcons hnum hacyclic]
  have hvisits : ∀ {g' t'}, Yields g.addBuffers t g' t' →
      ∃ s' first visited, Visiting g g' s' t' first [] visited := by
    intro g' t' hy
    obtain ⟨last, s', first, visited, -, hend, -⟩ :=
      addBuffers_run hcons hnum (hacyclic.noLoop hcons) hy
    exact ⟨s', first, visited, hend⟩
  constructor
  · rintro ⟨g', t', hy, hsplit⟩
    obtain ⟨s', first, visited, hend⟩ := hvisits hy
    exact ⟨⟨g', t', hy⟩, (hend.splittersBuffered_iff hcons hacyclic).1 hsplit⟩
  · rintro ⟨⟨g', t', hy⟩, hall⟩
    obtain ⟨s', first, visited, hend⟩ := hvisits hy
    exact ⟨g', t', hy, (hend.splittersBuffered_iff hcons hacyclic).2 hall⟩

/-- A splitter with two readers, behind a first node or not. -/
def parted (fed : Bool) : Graph where
  nodes := ⟨(if fed then [(0, stage 0 0 1 "grep" ⟨.roundRobin, .concatenate, 0, true⟩)] else []) ++
    [(1,
        { id := 1, kind := .roundSplit
          invocation := { command := "r_split", streaming := [1], outputs := [2, 3] } }),
      (2, stage 2 2 4 "sort" ⟨.roundRobin, .nary, 0, true⟩),
        (3, stage 3 3 5 "sort" ⟨.roundRobin, .nary, 0, true⟩)]⟩
  edges := ⟨[(0, ⟨{ ident := 0 }, none, if fed then some 0 else none⟩),
    (1, ⟨{ ident := 1 }, if fed then some 0 else none, some 1⟩),
      (2, ⟨{ ident := 2 }, some 1, some 2⟩),
    (3, ⟨{ ident := 3 }, some 1, some 3⟩), (4, ⟨{ ident := 4 }, some 2, none⟩),
      (5, ⟨{ ident := 5 }, some 3, none⟩)]⟩

theorem parted_acyclic (fed : Bool) : (parted fed).Acyclic := by
  refine acyclic_of_lt ?_
  rintro k k' ⟨i, hsource, htarget⟩
  simp only [view, edge?, parted, Table.get?, Table.lookup] at hsource htarget
  grind

theorem addBuffers_splitters_parted :
    (parted true).consistent? = .ok true ∧ (parted true).Acyclic ∧
      ∃ g' t', Yields (parted true).addBuffers { nextNode := 4 } g' t' ∧ g'.SplittersBuffered := by
  have hnode : ∀ k m, (parted true).node? k = some m → (k, m) ∈ (parted true).nodes.entries :=
    fun k m => Table.mem_entries_of_get?
  have hcons : (parted true).consistent? = .ok true := by decide
  simp only [parted, if_true, mem_append, mem_cons, not_mem_nil, Prod.mk.injEq, or_false] at hnode
  refine ⟨hcons, parted_acyclic true,
    (addBuffers_splitters_iff hcons (parted_acyclic true) ?_).2 ⟨⟨by decide, ?_⟩, ?_⟩⟩
  · intro k m hm
    obtain ⟨rfl, rfl⟩ | ⟨rfl, rfl⟩ | ⟨rfl, rfl⟩ | ⟨rfl, rfl⟩ := hnode k m hm <;> simp [stage]
  · intro k m hm _
    obtain ⟨rfl, rfl⟩ | ⟨rfl, rfl⟩ | ⟨rfl, rfl⟩ | ⟨rfl, rfl⟩ :=
      hnode k m hm <;> constructor <;> decide
  · intro k m hm i hi
    obtain ⟨rfl, rfl⟩ | ⟨rfl, rfl⟩ | ⟨rfl, rfl⟩ | ⟨rfl, rfl⟩ := hnode k m hm
    · cases hi
    · exact .inl ⟨⟨1, by decide, by decide⟩, by simp⟩
    · cases hi
    · cases hi

/-- No buffers come behind a splitter that reads from outside. -/
theorem addBuffers_misses_first_splitter :
    (parted false).consistent? = .ok true ∧ (parted false).Acyclic ∧
      ∃ g' t', Yields (parted false).addBuffers { nextNode := 4 } g' t' ∧
      ¬ g'.SplittersBuffered := by
  let test (g : Graph) : Bool :=
    (g.node? 1).any (·.parts.contains 2) && decide (g.view.target 2 = some 2) &&
    (g.node? 2).any (·.kind != .tee)
  obtain ⟨g', t', hy, htest⟩ : ∃ g' t', Yields (parted false).addBuffers { nextNode := 4 } g' t' ∧
    test g' = true :=
    exists_yields_of_any (by decide +kernel)
  simp only [test, Bool.and_eq_true, Option.any_eq_true, contains_iff_mem, decide_eq_true_eq,
    bne_iff_ne] at htest
  obtain ⟨⟨⟨m, hm, hpart⟩, htarget⟩, reader, hreader, hkind⟩ := htest
  refine ⟨by decide, parted_acyclic false, g', t', hy, fun hall => ?_⟩
  obtain ⟨b, n, hb, hn, htee⟩ := hall 1 m hm 2 hpart
  obtain rfl := Option.mem_unique htarget hb
  obtain rfl := Option.mem_unique hreader hn
  exact hkind htee

end Graph

end ShellFlow
