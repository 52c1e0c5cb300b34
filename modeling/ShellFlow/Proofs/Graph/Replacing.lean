import ShellFlow.Proofs.Graph.CommonFiles
import ShellFlow.Proofs.Graph.Partitioning

/-!
# Edges that are replaced

A new channel takes the place of an edge in the table of edges, and in what the nodes at its ends
list.  The node with number 0 is passed over there, so it goes on listing an edge that is gone.
-/

namespace ShellFlow.Graph

variable {g g' : Graph} {e : Edge} {c : Channel Int} {i k old : Int} {stop : Option Int}

theorem consistent_iff (htidy : g.Tidy) : g.consistent? = .ok true ↔
    (∀ i k, g.view.source i = some k ↔ i ∈ g.outputsAt k) ∧ ∀ i k, g.view.target i = some k ↔
    i ∈ g.inputsAt k := by
  simp only [mem_inputsAt, mem_outputsAt]
  exact ⟨listed_of_consistent, fun h => consistent_of_listed htidy h.1 h.2⟩

/-- The place of an edge at one of its ends, unless this is the node with number 0. -/
def placeAt (stop : Option Int) (old : Int) : List (Int × Int) :=
  match stop with
  | none => []
  | some k => if k = 0 then [] else [(k, old)]

theorem mem_placeAt : (k, i) ∈ placeAt stop old ↔ stop = some k ∧ k ≠ 0 ∧ i = old := by
  cases stop <;> grind [placeAt]

theorem exists_replaceAtEnd (h : ∀ k, stop = some k → k ∈ g.nodes.keys) (old new : Int) :
    ∃ g', g.replaceAtEnd stop old new = .ok g' ∧ g'.edges = g.edges ∧
    g.Puts new (placeAt stop old) g' := by
  cases stop with
  | none => exact ⟨g, rfl, rfl, puts_nil rfl⟩
  | some k =>
    rw [replaceAtEnd, placeAt]
    split
    · exact ⟨g, rfl, rfl, puts_nil rfl⟩
    · exact exists_replaceInNode (h k rfl) old new

theorem replaceEdge_spec (htidy : g.Tidy) (hcons : g.consistent? = .ok true)
    (he : g.edge? old = some e) (hne : c.ident ≠ old) :
        ∃ g', g.replaceEdge old c = .ok g' ∧ g'.Tidy ∧ (∀ i, g'.edge? i =
        if i = old then none else if i = c.ident then some { e with channel := c } else g.edge? i) ∧
      g.Puts c.ident (placeAt e.source old ++ placeAt e.target old) g' := by
  let g₀ := g.putEdge c.ident { e with channel := c }
  have hends : ∀ k, (e.source = some k → k ∈ g₀.nodes.keys) ∧
      (e.target = some k → k ∈ g₀.nodes.keys) := by
    obtain ⟨hsource, htarget⟩ := listed_of_consistent hcons
    refine fun k => ⟨fun hk => ?_, fun hk => ?_⟩
    · obtain ⟨m, hm, -⟩ := (hsource old k).1 (by simpa [view, he] using hk)
      exact Table.mem_keys_of_get? hm
    · obtain ⟨m, hm, -⟩ := (htarget old k).1 (by simpa [view, he] using hk)
      exact Table.mem_keys_of_get? hm
  obtain ⟨g₁, h₁, hedges₁, hputs₁⟩ := exists_replaceAtEnd (fun k => (hends k).1) old c.ident
  obtain ⟨g₂, h₂, hedges₂, hputs₂⟩ :=
    exists_replaceAtEnd (fun k => hputs₁.nodes ▸ (hends k).2) old c.ident
  have hedges : g₂.edges = g₀.edges := hedges₂.trans hedges₁
  refine ⟨{ g₂ with edges := g₂.edges.erase old }, bind_eq_ok.2 ⟨e, edge_eq_ok.2 he, bind_eq_ok.2
    ⟨g₁, h₁, bind_eq_ok.2 ⟨g₂, h₂, rfl⟩⟩⟩, ⟨?_, ?_⟩, fun i => ?_, ?_⟩
  · exact (hputs₂.nodes.trans hputs₁.nodes) ▸ htidy.nodes
  · exact Table.nodup_keys_erase (hedges ▸ Table.nodup_keys_insert htidy.edges _ _) old
  · show (g₂.edges.erase old).get? i = _
    rw [Table.get?_erase, hedges]
    exact if_congr Iff.rfl rfl (edge?_putEdge ..)
  · exact Puts.trans ⟨hputs₁.nodes, hputs₁.inputs, hputs₁.outputs⟩
      ⟨hputs₂.nodes, hputs₂.inputs, hputs₂.outputs⟩
      fun k hk => hne (mem_placeAt.1 hk).2.2

/-- A new channel is in the place of an edge: it has the ends of this edge, at the same positions,
and all else is as it was. -/
structure Replaced (g : Graph) (old : Int) (c : Channel Int) (g' : Graph) : Prop where
  consistent : g'.consistent? = .ok true
  edge i : g'.edge? i =
    if i = old then none else if i =
      c.ident then (g.edge? old).map ({ · with channel := c }) else g.edge? i
  nodes : g'.nodes.keys = g.nodes.keys
  inputs k : g'.inputsAt k = Invocation.replaceIn old c.ident (g.inputsAt k)
  outputs k : g'.outputsAt k = Invocation.replaceIn old c.ident (g.outputsAt k)

/-- The edges that nodes list are replaced along with those in the table. -/
theorem mem_replaceIn_iff {stop : Edge → Option Int} {is : Int → List Int}
    (he : g.edge? old = some e) (hnew : g.edge? c.ident = none) (hedge : ∀ i, g'.edge? i =
      if i = old then none else if i = c.ident then some { e with channel := c } else g.edge? i)
    (hstop : stop { e with channel := c } = stop e) (h : ∀ i k, (g.edge? i).bind stop = some k ↔
      i ∈ is k) (i k : Int) :
    (g'.edge? i).bind stop = some k ↔ i ∈ Invocation.replaceIn old c.ident (is k) := by
  have hold := h old k
  have hfresh := h c.ident k
  rw [hedge, Invocation.replaceIn, List.mem_map]
  grind

/-- **A new channel takes the place of an edge if and only if neither end of the edge is the node
with number 0.** -/
theorem replaceEdge_replaced_iff (htidy : g.Tidy) (hcons : g.consistent? = .ok true)
    (he : g.edge? old = some e) (hnew : g.edge? c.ident = none) :
    ∃ g', g.replaceEdge old c = .ok g' ∧
    (g.Replaced old c g' ↔ e.source ≠ some 0 ∧ e.target ≠ some 0) := by
  have hne : c.ident ≠ old := fun h => by simp [h, he] at hnew
  obtain ⟨g', hok, htidy', hedge, hputs⟩ := replaceEdge_spec htidy hcons he hne
  obtain ⟨hsource, htarget⟩ := (consistent_iff htidy).1 hcons
  have hwriter : ∀ k, e.source = some k ↔ old ∈ g.outputsAt k :=
    fun k => by simp [← hsource, view, he]
  have hreader : ∀ k, e.target = some k ↔ old ∈ g.inputsAt k :=
    fun k => by simp [← htarget, view, he]
  have hplace : ∀ {k i}, (k, i) ∈ placeAt e.source old ++ placeAt e.target old ↔
      (e.source = some k ∨ e.target = some k) ∧ k ≠ 0 ∧ i = old := by
    intro k i
    rw [List.mem_append, mem_placeAt, mem_placeAt, or_and_right]
  refine ⟨g', hok, fun h => ?_, ?_⟩
  · -- the node with number 0 goes on listing the old edge
    obtain ⟨hsource', htarget'⟩ := (consistent_iff htidy').1 h.consistent
    have hlisted : ∀ {is : List Int}, old ∈ is →
        old ∈ is.map fun i => if (0, i) ∈ placeAt e.source old ++
          placeAt e.target old then c.ident else i :=
      fun hmem => List.mem_map.2 ⟨old, hmem, if_neg fun h => (hplace.1 h).2.1 rfl⟩
    constructor
    · intro h0
      have hmem := (hsource' old 0).2 (hputs.outputs 0 ▸ hlisted ((hwriter 0).1 h0))
      simp [view, hedge] at hmem
    · intro h0
      have hmem := (htarget' old 0).2 (hputs.inputs 0 ▸ hlisted ((hreader 0).1 h0))
      simp [view, hedge] at hmem
  · rintro ⟨hs, ht⟩
    have hinputs : ∀ k, g'.inputsAt k = Invocation.replaceIn old c.ident (g.inputsAt k) := by
      intro k
      rw [hputs.inputs]
      exact List.map_congr_left fun i hi => by grind
    have houtputs : ∀ k, g'.outputsAt k = Invocation.replaceIn old c.ident (g.outputsAt k) := by
      intro k
      rw [hputs.outputs]
      exact List.map_congr_left fun i hi => by grind
    refine ⟨(consistent_iff htidy').2 ⟨fun i k => ?_, fun i k => ?_⟩,
      fun i => by simp [hedge, he], hputs.nodes,
      hinputs, houtputs⟩
    · rw [houtputs]
      exact mem_replaceIn_iff he hnew hedge rfl hsource i k
    · rw [hinputs]
      exact mem_replaceIn_iff he hnew hedge rfl htarget i k

theorem replaceEdge_diamond : diamond.Tidy ∧ diamond.consistent? = .ok true ∧
    ∃ g', diamond.replaceEdge 2 { ident := 5 } = .ok g' ∧ diamond.Replaced 2 { ident := 5 } g' := by
  have htidy : diamond.Tidy := ⟨by decide, by decide⟩
  have hcons : diamond.consistent? = .ok true := by decide
  obtain ⟨g', hok, hreplaced⟩ := replaceEdge_replaced_iff htidy hcons
    (show diamond.edge? 2 = some ⟨{ ident := 2 }, some 1, some 3⟩ from rfl)
      (c := { ident := 5 }) rfl
  exact ⟨htidy, hcons, g', hok, hreplaced.2 ⟨by decide, by decide⟩⟩

/-- The first node goes on writing the edge that is gone. -/
theorem replaceEdge_diamond_inconsistent : diamond.consistent? = .ok true ∧ diamond.edge? 5 = none ∧
    (diamond.replaceEdge 0 { ident := 5 } >>= consistent?) ≠ .ok true :=
  ⟨by decide, by decide, by decide⟩

end ShellFlow.Graph
