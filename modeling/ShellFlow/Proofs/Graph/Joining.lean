import Mathlib.Data.List.Nodup
import ShellFlow.Proofs.Graph.CommonFiles

/-!
# Joining graphs

A graph with one standard input and one standard output is a stage of a pipeline.  Two stages that
have nothing in common join to a stage again: the standard output of the first becomes a pipe to the
node that reads the standard input of the second, and that edge of the second is gone.  Joining is
associative, so a pipeline may be joined in any order.
-/

namespace ShellFlow

open List

/-! ### Ends of edges in two graphs -/

namespace Listed

variable {node node' : Int → Option Node} {edges : Node → List Int} {stop stop' : Int → Option Int}
  {m m' : Node}
  {r : Int}

/-- Two graphs with different nodes and edges, one beside the other. -/
theorem union (h : Listed node edges stop) (h' : Listed node' edges stop')
    (hnode : ∀ k, node k = none ∨ node' k = none) (hstop : ∀ i, stop i = none ∨ stop' i = none) :
    Listed (fun k => (node k).or (node' k)) edges (fun i => (stop i).or (stop' i)) := by
  intro i k
  have hfirst := h i k
  have hsecond := h' i k
  rcases hnode k with hk | hk <;> rcases hstop i with hi | hi <;> simp_all

/-- A reader of one edge reads another instead. -/
theorem rename (h : Listed node edges stop) {i j : Int} (hm : node r = some m)
    (hi : stop i = some r) (hj : stop j = none)
    (hedges : edges m' = Invocation.replaceIn i j (edges m)) :
    Listed (fun k => if k = r then some m' else node k) edges
      (fun l => if l = j then some r else if l = i then none else stop l) := by
  intro l k
  by_cases hk : k = r
  · subst hk
    have hold : ∀ x, x ∈ edges m ↔ stop x = some k := fun x => by simp [h x k, hm]
    simp only [if_true, Option.some.injEq, exists_eq_left', hedges, Invocation.replaceIn, mem_map,
      hold]
    by_cases hlj : l = j
    · subst hlj
      exact iff_of_true (if_pos rfl) ⟨i, hi, if_pos rfl⟩
    · rw [if_neg hlj]
      constructor
      · intro hl
        split at hl
        · cases hl
        · next hli => exact ⟨l, hl, if_neg hli⟩
      · rintro ⟨x, hx, rfl⟩
        split at hlj
        · exact absurd rfl hlj
        · next hxi => rw [if_neg hxi, if_neg hxi, hx]
  · have hold := h l k
    by_cases hlj : l = j
    · subst hlj
      rw [hj] at hold
      simpa [hk, Ne.symm hk] using hold
    · by_cases hli : l = i
      · subst hli
        rw [hi] at hold
        simpa [hk, hlj, Ne.symm hk] using hold
      · simpa [hk, hlj, hli] using hold

/-- A node with the same edges takes the place of another. -/
theorem replace (h : Listed node edges stop) (hm : node r = some m) (hedges : edges m' = edges m) :
    Listed (fun k => if k = r then some m' else node k) edges stop := by
  intro l k
  by_cases hk : k = r
  · subst hk
    simp [h l k, hm, hedges]
  · simp [h l k, hk]

end Listed

/-- A graph with the number of its standard input, of the node that reads it, and of its standard
output. -/
structure Stage where
  graph : Graph
  stdin : Int
  reader : Int
  stdout : Int

namespace Stage

/-- A valid graph in the foreground in which every edge stands for something and no file is on two
edges.  One edge is standard input, which is read and not written, and one is standard output, which
is written and not read. -/
structure Sound (s : Stage) : Prop where
  tidy : s.graph.Tidy
  id_eq : ∀ k m, s.graph.node? k = some m → m.id = k
  valid : s.graph.valid? = .ok true
  foreground : s.graph.background = false
  resourced : s.graph.Resourced
  unshared : s.graph.Unshared
  stdin_iff : ∀ i e, s.graph.edge? i = some e → (e.channel.isStdin ↔ i = s.stdin)
  stdin_edge : ∃ e, s.graph.edge? s.stdin = some e ∧ e.source = none ∧ e.target = some s.reader
  stdout_iff : ∀ i e, s.graph.edge? i = some e → (e.channel.isStdout ↔ i = s.stdout)
  stdout_edge : ∃ o, s.graph.edge? s.stdout = some o ∧ o.source ≠ none ∧ o.target = none

/-- Two stages that have neither nodes nor edges nor files in common. -/
structure Apart (s t : Stage) : Prop where
  nodes : s.graph.nodes.keys.Disjoint t.graph.nodes.keys
  edges : s.graph.edges.keys.Disjoint t.graph.edges.keys
  files : ∀ e ∈ s.graph.edges.values, ∀ d ∈ t.graph.edges.values, ¬ e.SharesFile d ∧
    ¬ d.SharesFile e

def pipeTo (r : Int) (e : Edge) : Edge :=
    { e with channel := e.channel.makeEphemeral, target := some r }

/-- The pipe of two stages: what `s` writes is read in `t` in place of its input. -/
def join (s t : Stage) : Stage where
  graph :=
    { nodes := s.graph.nodes.append (t.graph.nodes.update t.reader (·.replaceEdge t.stdin s.stdout))
      edges := (s.graph.edges.update s.stdout (pipeTo t.reader)).append
        (t.graph.edges.erase t.stdin)
      background := s.graph.background }
  stdin := s.stdin
  reader := s.reader
  stdout := t.stdout

variable {s t u : Stage}

/-! ### Standard edges of a stage -/

namespace Sound

section

variable (h : s.Sound)
include h

theorem listed : Listed s.graph.node? Node.outputs s.graph.view.source ∧
    Listed s.graph.node? Node.inputs s.graph.view.target :=
  Graph.listed_of_consistent (Graph.valid_iff.1 h.valid).2.1

theorem stdin_source : s.graph.view.source s.stdin = none := by
  obtain ⟨e, he, hsource, -⟩ := h.stdin_edge
  simp [Graph.view, he, hsource]

theorem stdin_target : s.graph.view.target s.stdin = some s.reader := by
  obtain ⟨e, he, -, htarget⟩ := h.stdin_edge
  simp [Graph.view, he, htarget]

theorem stdout_target : s.graph.view.target s.stdout = none := by
  obtain ⟨o, ho, -, htarget⟩ := h.stdout_edge
  simp [Graph.view, ho, htarget]

theorem exists_reader :
    ∃ m, s.graph.node? s.reader = some m ∧ s.stdin ∈ m.inputs ∧ s.stdin ∉ m.outputs := by
  obtain ⟨m, hm, hin⟩ := (h.listed.2 s.stdin s.reader).1 h.stdin_target
  exact ⟨m, hm, hin, h.listed.1.eq_none_iff.1 h.stdin_source s.reader m hm⟩

theorem stdin_ne_stdout : s.stdin ≠ s.stdout := by
  intro heq
  have htarget := h.stdin_target
  rw [heq, h.stdout_target] at htarget
  cases htarget

end

theorem stdinEdge (h : s.Sound) : s.graph.stdinEdge = .ok (some s.stdin) := by
  obtain ⟨e, he, -⟩ := h.stdin_edge
  exact Graph.stdinEdge_eq_ok.2
    ⟨h.resourced, Graph.edgesWhere_eq_singleton h.tidy (by simp [he]) h.stdin_iff⟩

theorem stdoutEdge (h : s.Sound) : s.graph.stdoutEdge = .ok (some s.stdout) := by
  obtain ⟨o, ho, -⟩ := h.stdout_edge
  refine Graph.stdoutEdge_eq_ok.2 ⟨h.resourced, ?_⟩
  rw [Graph.edgesWhere_eq_singleton h.tidy (by simp [ho]) h.stdout_iff]
  rfl

end Sound

/-! ### Two stages -/

theorem Apart.node (h : s.Apart t) (k : Int) : s.graph.node? k = none ∨ t.graph.node? k = none := by
  by_cases hk : k ∈ s.graph.nodes.keys
  · exact .inr (Table.get?_eq_none_iff.2 (h.nodes hk))
  · exact .inl (Table.get?_eq_none_iff.2 hk)

theorem Apart.edge (h : s.Apart t) (i : Int) : s.graph.edge? i = none ∨ t.graph.edge? i = none := by
  by_cases hi : i ∈ s.graph.edges.keys
  · exact .inr (Table.get?_eq_none_iff.2 (h.edges hi))
  · exact .inl (Table.get?_eq_none_iff.2 hi)

theorem Apart.symm (h : s.Apart t) : t.Apart s :=
  ⟨disjoint_symm h.nodes, disjoint_symm h.edges, fun e he d hd => (h.files d hd e he).symm⟩

theorem node_join (s t : Stage) (k : Int) : (s.join t).graph.node? k = (s.graph.node? k).or
    (if k = t.reader then (t.graph.node? k).map
      (·.replaceEdge t.stdin s.stdout) else t.graph.node? k) := by
  show (s.graph.nodes.append _).get? k = _
  rw [Table.get?_append, Table.get?_update]
  rfl

theorem edge_join (s t : Stage) (i : Int) : (s.join t).graph.edge? i =
    (if i = s.stdout then (s.graph.edge? i).map (pipeTo t.reader) else s.graph.edge? i).or
      (if i = t.stdin then none else t.graph.edge? i) := by
  show ((s.graph.edges.update _ _).append _).get? i = _
  rw [Table.get?_append, Table.get?_update, Table.get?_erase]
  rfl

section Lookup

variable {i k : Int} {e : Edge} {m : Node}

theorem node_join_of_left (hm : s.graph.node? k = some m) : (s.join t).graph.node? k = some m := by
  rw [node_join, hm, Option.some_or]

theorem Apart.node_join_of_right (h : s.Apart t) (hm : t.graph.node? k = some m)
    (hne : k ≠ t.reader) : (s.join t).graph.node? k = some m := by
  rw [node_join, (h.node k).resolve_right (by simp [hm]), Option.none_or, if_neg hne, hm]

theorem Apart.node_join_reader (h : s.Apart t) (hm : t.graph.node? t.reader = some m) :
    (s.join t).graph.node? t.reader = some (m.replaceEdge t.stdin s.stdout) := by
  rw [node_join, (h.node t.reader).resolve_right (by simp [hm]), Option.none_or, if_pos rfl, hm,
    Option.map_some]

theorem edge_join_of_left (he : s.graph.edge? i = some e) (hne : i ≠ s.stdout) :
    (s.join t).graph.edge? i = some e := by
  rw [edge_join, if_neg hne, he, Option.some_or]

theorem edge_join_stdout (he : s.graph.edge? s.stdout = some e) :
    (s.join t).graph.edge? s.stdout = some (pipeTo t.reader e) := by
  rw [edge_join, if_pos rfl, he, Option.map_some, Option.some_or]

theorem Apart.edge_join_of_right (h : s.Apart t) (he : t.graph.edge? i = some e)
    (hne : i ≠ t.stdin) : (s.join t).graph.edge? i = some e := by
  have hleft : s.graph.edge? i = none := (h.edge i).resolve_right (by simp [he])
  rw [edge_join, hleft, Option.map_none, ite_self, Option.none_or, if_neg hne, he]

end Lookup

/-- Everything that an edge of the join has it has from one of the two stages. -/
theorem edge_join_cases {i : Int} {e : Edge} (h : (s.join t).graph.edge? i = some e) :
    (i = s.stdout ∧ ∃ o, s.graph.edge? i = some o ∧ e = pipeTo t.reader o) ∨
      (i ≠ s.stdout ∧ s.graph.edge? i = some e) ∨ (i ≠ t.stdin ∧ t.graph.edge? i = some e) := by
  rw [edge_join, Option.or_eq_some_iff] at h
  rcases h with h | ⟨-, h⟩
  · split at h
    · next heq =>
      obtain ⟨o, ho, rfl⟩ := Option.map_eq_some_iff.1 h
      exact .inl ⟨heq, o, ho, rfl⟩
    · next hne => exact .inr (.inl ⟨hne, h⟩)
  · split at h
    · cases h
    · next hne => exact .inr (.inr ⟨hne, h⟩)

/-- At either end, an edge of the join is an edge of the first stage or of the second. -/
theorem bind_or {a b : Option Edge} (h : a = none ∨ b = none) (f : Edge → Option Int) :
    (a.or b).bind f = (a.bind f).or (b.bind f) := by
  rcases h with rfl | rfl <;> simp

theorem Apart.edge_join (h : s.Apart t) (i : Int) :
    (if i = s.stdout then (s.graph.edge? i).map (pipeTo t.reader) else s.graph.edge? i) = none ∨
      (if i = t.stdin then none else t.graph.edge? i) = none := by
  rcases h.edge i with hi | hi
  · exact .inl (by simp [hi])
  · exact .inr (by simp [hi])

theorem Sound.source_join (ht : t.Sound) (hapart : s.Apart t) :
    (s.join t).graph.view.source = fun i => (s.graph.view.source i).or (t.graph.view.source i) := by
  funext i
  have hfirst : (if i = s.stdout then (s.graph.edge? i).map (pipeTo t.reader) else s.graph.edge?
      i).bind Edge.source =
      s.graph.view.source i := by
    show _ = (s.graph.edge? i).bind Edge.source
    split
    · cases s.graph.edge? i <;> rfl
    · rfl
  have hsecond : (if i = t.stdin then none else t.graph.edge? i).bind Edge.source =
      t.graph.view.source i := by
    split
    · next heq => rw [heq, ht.stdin_source, Option.bind_none]
    · rfl
  show ((s.join t).graph.edge? i).bind Edge.source = _
  rw [Stage.edge_join, bind_or (hapart.edge_join i), hfirst, hsecond]

theorem Sound.target_join (hs : s.Sound) (hapart : s.Apart t) :
    (s.join t).graph.view.target = fun i => (s.graph.view.target i).or
      (if i = s.stdout then some t.reader else if i =
        t.stdin then none else t.graph.view.target i) := by
  funext i
  have hsecond : (if i = t.stdin then none else t.graph.edge? i).bind Edge.target =
      if i = t.stdin then none else t.graph.view.target i := by
    split <;> rfl
  show ((s.join t).graph.edge? i).bind Edge.target = _
  rw [Stage.edge_join, bind_or (hapart.edge_join i), hsecond]
  by_cases hout : i = s.stdout
  · obtain ⟨o, ho, -⟩ := hs.stdout_edge
    rw [hout, if_pos rfl, if_pos rfl, ho, hs.stdout_target]
    rfl
  · rw [if_neg hout, if_neg hout]
    rfl

/-- Both ends of every edge of the join are where the nodes say. -/
theorem Sound.listed_join (hs : s.Sound) (ht : t.Sound) (hapart : s.Apart t) :
    Listed (s.join t).graph.node? Node.outputs (s.join t).graph.view.source ∧
      Listed (s.join t).graph.node? Node.inputs (s.join t).graph.view.target := by
  obtain ⟨m, hm, hin, hout⟩ := ht.exists_reader
  have hnode : (s.join t).graph.node? = fun k => (s.graph.node? k).or
      (if k = t.reader then some (m.replaceEdge t.stdin s.stdout) else t.graph.node? k) := by
    funext k
    rw [node_join]
    split
    · next heq => rw [heq, hm, Option.map_some]
    · rfl
  have hnodes : ∀ k, s.graph.node? k = none ∨
      (if k = t.reader then some (m.replaceEdge t.stdin s.stdout) else t.graph.node? k) = none := by
    intro k
    rcases hapart.node k with hk | hk
    · exact .inl hk
    · refine .inr ?_
      rw [if_neg, hk]
      rintro rfl
      rw [hm] at hk
      cases hk
  have hends : ∀ (stop : Edge → Option Int) (i : Int),
      (s.graph.edge? i).bind stop = none ∨ (t.graph.edge? i).bind stop = none := by
    intro stop i
    rcases hapart.edge i with hi | hi
    · exact .inl (by rw [hi, Option.bind_none])
    · exact .inr (by rw [hi, Option.bind_none])
  obtain ⟨o, ho, -⟩ := hs.stdout_edge
  have hfree : t.graph.edge? s.stdout = none := (hapart.edge s.stdout).resolve_left (by simp [ho])
  have hinputs : (m.replaceEdge t.stdin s.stdout).inputs =
    Invocation.replaceIn t.stdin s.stdout m.inputs :=
    Node.inputs_replaceEdge m t.stdin s.stdout
  have houtputs : (m.replaceEdge t.stdin s.stdout).outputs = m.outputs :=
    (map_congr_left fun i hi => if_neg fun heq : i = t.stdin => hout (heq ▸ hi)).trans (map_id _)
  rw [hnode, ht.source_join hapart, hs.target_join hapart]
  constructor
  · exact hs.listed.1.union (ht.listed.1.replace hm houtputs) hnodes (hends Edge.source)
  · have hopen : t.graph.view.target s.stdout = none := by simp [Graph.view, hfree]
    refine hs.listed.2.union (ht.listed.2.rename hm ht.stdin_target hopen hinputs) hnodes fun i =>
      ?_
    by_cases hi : i = s.stdout
    · exact .inl (hi ▸ hs.stdout_target)
    · rcases hends Edge.target i with hnone | hnone
      · exact .inl hnone
      · refine .inr ?_
        rw [if_neg hi]
        split
        · rfl
        · exact hnone

/-- **Two stages that have nothing in common join to a stage.** -/
theorem Sound.join (hs : s.Sound) (ht : t.Sound) (hapart : s.Apart t) : (s.join t).Sound := by
  have htidy : (s.join t).graph.Tidy := by
    constructor
    · show (s.graph.nodes.append _).keys.Nodup
      rw [Table.keys_append, Table.keys_update]
      exact nodup_append'.2 ⟨hs.tidy.nodes, ht.tidy.nodes, hapart.nodes⟩
    · show ((s.graph.edges.update _ _).append _).keys.Nodup
      rw [Table.keys_append, Table.keys_update, Table.keys_erase]
      exact nodup_append'.2 ⟨hs.tidy.edges, ht.tidy.edges.filter _,
        disjoint_of_subset_right (filter_subset_self _) hapart.edges⟩
  have hother : ∀ {i : Int} {e d : Edge}, s.graph.edge? i = some e → t.graph.edge? i = some d →
      False := by
    intro i e d he hd
    rcases hapart.edge i with hi | hi
    · rw [he] at hi
      cases hi
    · rw [hd] at hi
      cases hi
  obtain ⟨e₀, he₀, hends₀⟩ := hs.stdin_edge
  obtain ⟨o, ho, hends⟩ := ht.stdout_edge
  obtain ⟨hlistedOut, hlistedIn⟩ := Sound.listed_join hs ht hapart
  refine ⟨htidy, ?_, ?_, hs.foreground, ?_, ?_, ?_, ?_, ?_, ?_⟩
  · -- nodes are filed under their numbers
    intro k m hm
    rw [node_join, Option.or_eq_some_iff] at hm
    rcases hm with hm | ⟨-, hm⟩
    · exact hs.id_eq k m hm
    · split at hm
      · obtain ⟨m₀, hm₀, rfl⟩ := Option.map_eq_some_iff.1 hm
        exact ht.id_eq k m₀ hm₀
      · exact ht.id_eq k m hm
  · refine Graph.valid_iff.2 ⟨?_, Graph.consistent_of_listed htidy hlistedOut hlistedIn, ?_⟩
    · exact append_ne_nil_of_left_ne_nil (Graph.valid_iff.1 hs.valid).1 _
    · intro hbackground
      rw [show (s.join t).graph.background = s.graph.background from rfl,
        hs.foreground] at hbackground
      cases hbackground
  · intro e he
    obtain ⟨i, hi⟩ := Graph.exists_edge_of_mem_values htidy he
    rcases edge_join_cases hi with ⟨-, o, -, rfl⟩ | ⟨-, he⟩ | ⟨-, he⟩
    · rfl
    · exact hs.resourced e (Table.mem_values_of_get? he)
    · exact ht.resourced e (Table.mem_values_of_get? he)
  · intro i e j d hi hj hne
    rcases edge_join_cases hi with ⟨-, o, -, rfl⟩ | ⟨-, he⟩ | ⟨-, he⟩
    · exact (Edge.not_sharesFile rfl d).1
    all_goals rcases edge_join_cases hj with ⟨-, o, -, rfl⟩ | ⟨-, hd⟩ | ⟨-, hd⟩
    · exact (Edge.not_sharesFile rfl e).2
    · exact hs.unshared i e j d he hd hne
    · exact (hapart.files e (Table.mem_values_of_get? he) d (Table.mem_values_of_get? hd)).1
    · exact (Edge.not_sharesFile rfl e).2
    · exact (hapart.files d (Table.mem_values_of_get? hd) e (Table.mem_values_of_get? he)).2
    · exact ht.unshared i e j d he hd hne
  · intro i e hi
    rcases edge_join_cases hi with ⟨rfl, o, -, rfl⟩ | ⟨-, he⟩ | ⟨hne, he⟩
    · exact iff_of_false
        (by simp [pipeTo, Channel.makeEphemeral, Channel.isStdin, Resource.isStdin])
        (Ne.symm hs.stdin_ne_stdout)
    · exact hs.stdin_iff i e he
    · refine iff_of_false (fun hstdin => hne ((ht.stdin_iff i e he).1 hstdin)) ?_
      rintro rfl
      exact hother he₀ he
  · exact ⟨e₀, edge_join_of_left he₀ hs.stdin_ne_stdout, hends₀⟩
  · intro i e hi
    rcases edge_join_cases hi with ⟨rfl, w, hw, rfl⟩ | ⟨hne, he⟩ | ⟨-, he⟩
    · refine iff_of_false
        (by simp [pipeTo, Channel.makeEphemeral, Channel.isStdout, Resource.isStdout]) ?_
      intro heq
      exact hother hw (heq ▸ ho)
    · refine iff_of_false (fun hstdout => hne ((hs.stdout_iff i e he).1 hstdout)) ?_
      rintro rfl
      exact hother he ho
    · exact ht.stdout_iff i e he
  · exact ⟨o, hapart.edge_join_of_right ho (Ne.symm ht.stdin_ne_stdout), hends⟩

/-- A stage that has nothing in common with two stages has nothing in common with their join. -/
theorem Apart.join (hs : s.Sound) (ht : t.Sound) (hapart : s.Apart t) (hsu : s.Apart u)
    (htu : t.Apart u) : (s.join t).Apart u := by
  refine ⟨?_, ?_, fun e he d hd => ?_⟩
  · show ((s.graph.nodes.append _).keys).Disjoint _
    rw [Table.keys_append, Table.keys_update]
    exact disjoint_append_left.2 ⟨hsu.nodes, htu.nodes⟩
  · show (((s.graph.edges.update _ _).append _).keys).Disjoint _
    rw [Table.keys_append, Table.keys_update, Table.keys_erase]
    exact disjoint_append_left.2
      ⟨hsu.edges, disjoint_of_subset_left (filter_subset_self _) htu.edges⟩
  · obtain ⟨i, hi⟩ := Graph.exists_edge_of_mem_values (hs.join ht hapart).tidy he
    rcases edge_join_cases hi with ⟨-, o, -, rfl⟩ | ⟨-, he⟩ | ⟨-, he⟩
    · exact Edge.not_sharesFile rfl d
    · exact hsu.files e (Table.mem_values_of_get? he) d hd
    · exact htu.files e (Table.mem_values_of_get? he) d hd

/-- **Piping one graph into another joins the stages.** -/
theorem Sound.pipeAppend_eq (hs : s.Sound) (ht : t.Sound) (hapart : s.Apart t) :
    s.graph.pipeAppend t.graph = .ok (s.join t).graph := by
  obtain ⟨e, he, hsource, htarget⟩ := ht.stdin_edge
  obtain ⟨m, hm, -⟩ := ht.exists_reader
  obtain ⟨o, ho, -, hopen⟩ := hs.stdout_edge
  have hjoined := hs.join ht hapart
  have hnodes : s.graph.nodes.merge (t.graph.nodes.insert m.id (m.replaceEdge t.stdin s.stdout)) =
      (s.join t).graph.nodes := by
    have hput : t.graph.nodes.insert m.id (m.replaceEdge t.stdin s.stdout) =
        t.graph.nodes.update t.reader (·.replaceEdge t.stdin s.stdout) := by
      rw [ht.id_eq t.reader m hm]
      exact Table.insert_eq_update ht.tidy.nodes hm (·.replaceEdge t.stdin s.stdout)
    have hnodup := hjoined.tidy.nodes
    rw [hput]
    exact Table.merge_eq_append ((Table.keys_append ..) ▸ hnodup)
  have hedges : (s.graph.edges.insert s.stdout (pipeTo t.reader o)).merge
      (t.graph.edges.erase t.stdin) =
      (s.join t).graph.edges := by
    have hnodup := hjoined.tidy.edges
    rw [Table.insert_eq_update hs.tidy.edges ho]
    exact Table.merge_eq_append ((Table.keys_append ..) ▸ hnodup)
  have hunion : (s.graph.putEdge s.stdout
      { o with channel := o.channel.makeEphemeral, target := e.target }).union
        { t.graph.putNode m.id (m.replaceEdge t.stdin s.stdout) with
          edges := t.graph.edges.erase t.stdin } = .ok (s.join t).graph := by
    have hgraph : (s.join t).graph = { (s.join t).graph with
        nodes := s.graph.nodes.merge (t.graph.nodes.insert m.id (m.replaceEdge t.stdin s.stdout))
        edges := (s.graph.edges.insert s.stdout (pipeTo t.reader o)).merge
          (t.graph.edges.erase t.stdin) } := by
      rw [hnodes, hedges]
    have hself := Graph.combineCommonFiles_eq_self hjoined.tidy
      (Graph.valid_iff.1 hjoined.valid).2.1 hjoined.unshared
    rw [htarget]
    rw [hgraph] at hself ⊢
    exact hself
  refine bind_eq_ok.2 ⟨(), bind_eq_ok.2 ⟨true, hs.valid, rfl⟩, ?_⟩
  refine bind_eq_ok.2 ⟨(), bind_eq_ok.2 ⟨true, ht.valid, rfl⟩, ?_⟩
  refine bind_eq_ok.2 ⟨_, hs.stdoutEdge, bind_eq_ok.2 ⟨_, ht.stdinEdge, ?_⟩⟩
  refine bind_eq_ok.2 ⟨s.stdout, rfl, bind_eq_ok.2 ⟨t.stdin, rfl, ?_⟩⟩
  refine bind_eq_ok.2 ⟨e, Graph.edge_eq_ok.2 he, bind_eq_ok.2 ⟨(), by rw [hsource]; rfl, ?_⟩⟩
  refine bind_eq_ok.2 ⟨m, by rw [htarget]; exact Graph.node_eq_ok.2 hm, ?_⟩
  exact bind_eq_ok.2 ⟨o, Graph.edge_eq_ok.2 ho, bind_eq_ok.2 ⟨(), by rw [hopen]; rfl, hunion⟩⟩

/-- **Joining is associative.** -/
theorem Sound.join_assoc (ht : t.Sound) (hst : s.Apart t) (htu : t.Apart u) :
    (s.join t).join u = s.join (t.join u) := by
  obtain ⟨e, he, -⟩ := ht.stdin_edge
  obtain ⟨o, ho, -⟩ := ht.stdout_edge
  obtain ⟨m, hm, -⟩ := ht.exists_reader
  have hreader : ∀ f : Node → Node, t.reader ∉ (u.graph.nodes.update u.reader f).keys := by
    intro f
    rw [Table.keys_update]
    exact htu.nodes (Table.mem_keys_of_get? hm)
  have hstdout : t.stdout ∉ s.graph.edges.keys := fun h => hst.edges h (Table.mem_keys_of_get? ho)
  have hstdin : t.stdin ∉ u.graph.edges.keys := htu.edges (Table.mem_keys_of_get? he)
  have hnodes : ((s.join t).join u).graph.nodes = (s.join (t.join u)).graph.nodes := by
    show (s.graph.nodes.append _).append _ =
      s.graph.nodes.append ((t.graph.nodes.append _).update t.reader _)
    rw [Table.update_append, Table.append_assoc, Table.update_of_notMem (hreader _)]
    rfl
  have hedges : ((s.join t).join u).graph.edges = (s.join (t.join u)).graph.edges := by
    show (((s.graph.edges.update _ _).append _).update t.stdout _).append _ =
      (s.graph.edges.update _ _).append (((t.graph.edges.update _ _).append _).erase t.stdin)
    have hlater : t.stdin ∉ (u.graph.edges.erase u.stdin).keys := by
      rw [Table.keys_erase]
      exact fun h => hstdin (mem_filter.1 h).1
    rw [Table.update_append, Table.append_assoc,
      Table.update_of_notMem (by rwa [Table.keys_update]), Table.erase_append,
      Table.erase_of_notMem hlater, Table.erase_update]
    rfl
  have hgraph : ((s.join t).join u).graph = (s.join (t.join u)).graph :=
    congrArg₂ (fun nodes edges => Graph.mk nodes edges s.graph.background) hnodes hedges
  exact congrArg (fun graph => Stage.mk graph s.stdin s.reader u.stdout) hgraph

end Stage

end ShellFlow
