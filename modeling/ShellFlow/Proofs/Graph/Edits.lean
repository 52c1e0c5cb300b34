import Mathlib.Logic.Relation
import ShellFlow.Proofs.Graph.View

/-!
# Elementary edits

Whatever happens to a graph when nodes are divided or buffers are put in, happens by a few
elementary edits: an end of an edge is set, a node is filed or taken out, and a channel is added
under the next number.  What all of these edits keep is kept by every operation that is made of
them.
-/

namespace ShellFlow

open List

/-- The channel stands for something, and not for standard input. -/
def Channel.Inner (c : Channel Int) : Prop := ∃ r, c.resource = some r ∧ r.isStdin = false

namespace Graph

variable {c : Channel Int} {e : Edge} {i : Int} {ids : List Int} {k : Option Int} {n : Node}
  {s : ChannelSource}

/-- One edit of a graph, together with the next number for a channel. -/
inductive Edit : Int × Graph → Int × Graph → Prop
  | setTarget {next i : Int} {k : Option Int} {g g' : Graph} :
      g.setTarget i k = .ok g' → Edit (next, g) (next, g')
  | setSource {next i : Int} {k : Option Int} {g g' : Graph} :
      g.setSource i k = .ok g' → Edit (next, g) (next, g')
  | putNode {next : Int} {g : Graph} (k : Int) (n : Node) : Edit (next, g) (next, g.putNode k n)
  | eraseNode {next : Int} {g : Graph} (k : Int) :
      Edit (next, g) (next, { g with nodes := g.nodes.erase k })
  | addEdge {next : Int} {c : Channel Int} {g g' : Graph} :
      c.ident = next → c.Inner → g.edge? next = none → g.addEdge c = .ok g' →
        Edit (next, g) (next + 1, g')

/-- Edits one after the other: from a next number and a graph to a next number and a graph. -/
def Edits (next : Int) (g : Graph) (next' : Int) (g' : Graph) : Prop :=
  Relation.ReflTransGen Edit (next, g) (next', g')

variable {next next' next'' : Int} {g g' g'' : Graph}

theorem Edits.refl (next : Int) (g : Graph) : Edits next g next g := Relation.ReflTransGen.refl

theorem Edits.trans (h : Edits next g next' g') (h' : Edits next' g' next'' g'') :
    Edits next g next'' g'' :=
  Relation.ReflTransGen.trans h h'

theorem Edit.edits (h : Edit (next, g) (next', g')) : Edits next g next' g' :=
    Relation.ReflTransGen.single h

/-- What every edit keeps, is kept. -/
theorem Edits.invariant {P : Int → Graph → Prop}
    (hstep : ∀ next g next' g', Edit (next, g) (next', g') → P next g → P next' g')
    (h : Edits next g next' g') (hP : P next g) : P next' g' := by
  have hpair : ∀ q, Relation.ReflTransGen Edit (next, g) q → P q.1 q.2 := by
    intro q hq
    induction hq with
    | refl => exact hP
    | tail _ hlast ih => exact hstep _ _ _ _ hlast ih
  exact hpair _ h

/-! ### Operations that are made of edits -/

theorem setTarget_edits (h : g.setTarget i k = .ok g') (next : Int) : Edits next g next g' :=
  (Edit.setTarget h).edits

theorem setSource_edits (h : g.setSource i k = .ok g') (next : Int) : Edits next g next g' :=
  (Edit.setSource h).edits

theorem foldlM_edits {α : Type} {f : Graph → α → Except Fault Graph} {as : List α}
    (hf : ∀ g a g', f g a = .ok g' → Edits next g next g') (h : as.foldlM f g = .ok g') :
    Edits next g next g' :=
  Except.foldlM_rel (Edits.refl next) (fun _ _ _ => Edits.trans) hf h

theorem setTargets_edits (h : g.setTargets ids k = .ok g') (next : Int) : Edits next g next g' :=
  foldlM_edits (fun _ _ _ hset => setTarget_edits hset next) h

theorem setSources_edits (h : g.setSources ids k = .ok g') (next : Int) : Edits next g next g' :=
  foldlM_edits (fun _ _ _ hset => setSource_edits hset next) h

theorem addNode_edits (h : g.addNode n = .ok g') (next : Int) : Edits next g next g' := by
  obtain ⟨g₁, htargets, hsources⟩ := bind_eq_ok.1 h
  have hput : Edits next g next (g.putNode n.id n) := (Edit.putNode n.id n).edits
  exact (hput.trans (setTargets_edits htargets next)).trans (setSources_edits hsources next)

theorem addNodes_edits {ns : List Node} (h : g.addNodes ns = .ok g') (next : Int) :
    Edits next g next g' :=
  foldlM_edits (fun _ _ _ hadd => addNode_edits hadd next) h

theorem removeNode_edits {k : Int} (h : g.removeNode k = .ok g') (next : Int) :
    Edits next g next g' := by
  obtain ⟨n, -, hrest⟩ := bind_eq_ok.1 h
  obtain ⟨g₁, htargets, hsources⟩ := bind_eq_ok.1 hrest
  have herase : Edits next g next { g with nodes := g.nodes.erase k } := (Edit.eraseNode k).edits
  exact (herase.trans (setTargets_edits htargets next)).trans (setSources_edits hsources next)

theorem replaceInNode_edits {k old new : Int} (h : g.replaceInNode k old new = .ok g')
    (next : Int) : Edits next g next g' := by
  obtain ⟨n, -, hput⟩ := bind_eq_ok.1 h
  cases hput
  exact (Edit.putNode k _).edits

theorem addEdge_edits (hc : c.Inner) (h : g.addEdge c = .ok g') :
    Edits c.ident g (c.ident + 1) g' :=
  (Edit.addEdge rfl hc (addEdge_eq_ok.1 h).1 h).edits

theorem addEdges_edits {cs : List (Channel Int)} (hids : cs.map (·.ident) = freshIds next cs.length)
    (hcs : ∀ c ∈ cs, c.Inner) (h : g.addEdges cs = .ok g') :
    Edits next g (next + cs.length) g' := by
  induction cs generalizing g next with
  | nil =>
    obtain rfl := pure_eq_ok.1 h
    simpa using Edits.refl next g
  | cons c cs ih =>
    obtain ⟨g₁, hfirst, hrest⟩ := bind_eq_ok.1 h
    obtain ⟨rfl, hids⟩ := List.cons.inj hids
    have hlast : c.ident + 1 + cs.length = c.ident + ((c :: cs).length : Nat) := by
      rw [length_cons]
      omega
    rw [← hlast]
    exact (addEdge_edits (hcs c mem_cons_self) hfirst).trans
      (ih hids (fun d hd => hcs d (mem_cons_of_mem _ hd)) hrest)

theorem inner_freshPipes (s : ChannelSource) (k : Nat) : ∀ c ∈ (s.freshPipes k).1, c.Inner := by
  induction k generalizing s with
  | zero =>
    intro c hc
    cases hc
  | succ k ih =>
    intro c hc
    rcases mem_cons.1 hc with rfl | hc
    · exact ⟨.ephemeral, rfl, rfl⟩
    · exact ih s.freshEphemeral.2 c hc

theorem length_freshPipes (s : ChannelSource) (k : Nat) : (s.freshPipes k).1.length = k := by
  have h := congrArg List.length (freshPipes_spec s k).1
  simpa using h

theorem addPipes_edits {s' : ChannelSource} {k : Nat} (h : g.addPipes s k = .ok (g', ids, s')) :
    Edits s.next g s'.next g' := by
  obtain ⟨g₁, hadd, hret⟩ := bind_eq_ok.1 h
  have hret := pure_eq_ok.1 hret
  obtain ⟨hids, hnext⟩ := freshPipes_spec s k
  cases hret
  have hlen := length_freshPipes s k
  rw [hnext]
  have hedits := @addEdges_edits s.next _ _ _ (by rw [hlen, hids]) (inner_freshPipes s k) hadd
  rwa [hlen] at hedits

/-! ### What edits keep -/

/-- All edges have smaller numbers. -/
def Below (g : Graph) (next : Int) : Prop := ∀ i e, g.edge? i = some e → i < next

/-- No number is used twice. -/
structure Tidy (g : Graph) : Prop where
  nodes : g.nodes.keys.Nodup
  edges : g.edges.keys.Nodup

theorem Below.putEdge (h : g.Below next) (e : Edge) (hle : next ≤ next') (hi : i < next') :
    (g.putEdge i e).Below next' := by
  intro j e' he'
  rw [edge?_putEdge] at he'
  split at he'
  · next heq => exact heq ▸ hi
  · exact Int.lt_of_lt_of_le (h j e' he') hle

/-- Fresh channels are numbered behind the edges of the graph. -/
theorem yields_channelSource {supply supply' : Supply}
    (h : Yields g.channelSource supply s supply') :
    g.lastEdge = .ok (s.next - 1) ∧ supply'.nextNode = supply.nextNode := by
  obtain ⟨last, hlast, hmake⟩ := h.lift_bind
  obtain ⟨unique, supply₁, hunique, hret⟩ := hmake.bind
  obtain ⟨rfl, rfl⟩ := hret.pure
  obtain ⟨a, supply₂, hget, hrest⟩ := hunique.bind
  obtain ⟨rfl, rfl⟩ := yields_get.1 hget
  obtain ⟨u, supply₃, hset, hret⟩ := hrest.bind
  obtain rfl := yields_set.1 hset
  obtain ⟨-, rfl⟩ := hret.pure
  exact ⟨by rw [hlast]; simp, rfl⟩

/-- **The next number is free**, so a channel can be added under it. -/
theorem Below.exists_addEdge {c : Channel Int} (h : g.Below c.ident) :
    ∃ g', g.addEdge c = .ok g' := by
  refine ⟨_, addEdge_eq_ok.2 ⟨Option.eq_none_iff_forall_ne_some.2 fun e he => ?_, rfl⟩⟩
  exact absurd (h c.ident e he) (Int.lt_irrefl _)

/-- An edit changes the nodes, or files one edge: the ends of an edge change, or a channel is added.
-/
theorem Edit.cases (h : Edit (next, g) (next', g')) :
    (∃ nodes, g' = { g with nodes } ∧ (g.nodes.keys.Nodup → nodes.keys.Nodup) ∧ next' = next) ∨
      ∃ i e, g' = g.putEdge i e ∧
      ((∃ e₀, g.edge? i = some e₀ ∧ e.channel = e₀.channel ∧ next' = next) ∨
        g.edge? i = none ∧ e.channel.Inner ∧ i = next ∧ next' = next + 1) := by
  cases h with
  | setTarget h =>
    obtain ⟨e, he, rfl⟩ := setTarget_eq_ok h
    exact .inr ⟨_, _, rfl, .inl ⟨e, he, rfl, rfl⟩⟩
  | setSource h =>
    obtain ⟨e, he, rfl⟩ := setSource_eq_ok h
    exact .inr ⟨_, _, rfl, .inl ⟨e, he, rfl, rfl⟩⟩
  | putNode k n => exact .inl ⟨_, rfl, fun h => Table.nodup_keys_insert h k n, rfl⟩
  | eraseNode k => exact .inl ⟨_, rfl, fun h => Table.nodup_keys_erase h k, rfl⟩
  | addEdge hid hc hfree h =>
    obtain ⟨-, rfl⟩ := addEdge_eq_ok.1 h
    exact .inr ⟨_, _, rfl, .inr ⟨hid ▸ hfree, hc, hid, rfl⟩⟩

theorem Edits.below (h : Edits next g next' g') (hbelow : g.Below next) : g'.Below next' := by
  refine h.invariant (P := fun next g => g.Below next) ?_ hbelow
  intro next g next' g' hedit hbelow
  rcases hedit.cases with ⟨nodes, rfl, -, rfl⟩ | ⟨i, e, rfl, ⟨e₀, he₀, -, rfl⟩ | ⟨-, -, rfl, rfl⟩⟩
  · exact hbelow
  · exact hbelow.putEdge e (Int.le_refl _) (hbelow i e₀ he₀)
  · exact hbelow.putEdge e (by omega) (by omega)

theorem Edits.channel (h : Edits next g next' g') (he : g.edge? i = some e) :
    ∃ e', g'.edge? i = some e' ∧ e'.channel = e.channel := by
  refine h.invariant (P := fun _ g => ∃ e', g.edge? i = some e' ∧ e'.channel = e.channel) ?_
    ⟨e, he, rfl⟩
  rintro next g next' g' hedit ⟨e', he', hchannel⟩
  rcases hedit.cases with ⟨nodes, rfl, -⟩ | ⟨j, d, rfl, hcase⟩
  · exact ⟨e', he', hchannel⟩
  · rw [edge?_putEdge]
    by_cases hij : i = j
    · subst hij
      rw [if_pos rfl]
      rcases hcase with ⟨e₀, he₀, hd, -⟩ | ⟨hnone, -⟩
      · obtain rfl := Option.mem_unique he' he₀
        exact ⟨d, rfl, hd.trans hchannel⟩
      · rw [hnone] at he'
        cases he'
    · rw [if_neg hij]
      exact ⟨e', he', hchannel⟩

/-- No edge is added under a number in front of the next. -/
theorem Edits.exists_edge (h : Edits next g next' g') (hi : i < next) {e' : Edge}
    (he' : g'.edge? i = some e') : ∃ e, g.edge? i = some e := by
  refine (h.invariant (P := fun next' g' => next ≤ next' ∧ ∀ e', g'.edge? i = some e' →
    ∃ e, g.edge? i = some e) ?_
    ⟨Int.le_refl _, fun e he => ⟨e, he⟩⟩).2 e' he'
  rintro next₁ g₁ next₂ g₂ hedit ⟨hle, hold⟩
  rcases hedit.cases with ⟨nodes, rfl, -, rfl⟩ | ⟨j, d, rfl, hcase⟩
  · exact ⟨hle, hold⟩
  · refine ⟨by rcases hcase with ⟨_, -, -, rfl⟩ | ⟨-, -, -, rfl⟩ <;> omega, fun e he => ?_⟩
    rw [edge?_putEdge] at he
    split at he
    · next hij =>
      subst hij
      rcases hcase with ⟨e₀, he₀, -⟩ | ⟨-, -, rfl, -⟩
      · exact hold e₀ he₀
      · omega
    · exact hold e he

/-! ### Operations that succeed -/

theorem exists_setTarget {i : Int} {e : Edge} (he : g.edge? i = some e) (k : Option Int) :
    ∃ g', g.setTarget i k = .ok g' :=
  ⟨_, bind_eq_ok.2 ⟨e, edge_eq_ok.2 he, rfl⟩⟩

/-- Edits of edges that are there succeed one after the other, as edits keep all edges. -/
theorem exists_foldlM_edits {f : Graph → Int → Except Fault Graph}
    (hf : ∀ g i e, g.edge? i = some e → ∃ g', f g i = .ok g')
    (hedits : ∀ g i g', f g i = .ok g' → Edits 0 g 0 g') (h : ∀ i ∈ ids, ∃ e, g.edge? i = some e) :
    ∃ g', ids.foldlM f g = .ok g' := by
  induction ids generalizing g with
  | nil => exact ⟨g, rfl⟩
  | cons i ids ih =>
    obtain ⟨⟨e, he⟩, htail⟩ := forall_mem_cons.1 h
    obtain ⟨g₁, hfirst⟩ := hf g i e he
    have hrest : ∀ j ∈ ids, ∃ e, g₁.edge? j = some e := by
      intro j hj
      obtain ⟨e, he⟩ := htail j hj
      obtain ⟨e', he', -⟩ := (hedits g i g₁ hfirst).channel he
      exact ⟨e', he'⟩
    obtain ⟨g₂, hlast⟩ := ih hrest
    exact ⟨g₂, bind_eq_ok.2 ⟨g₁, hfirst, hlast⟩⟩

theorem exists_addNode (h : ∀ i ∈ n.inputs ++ n.outputs, ∃ e, g.edge? i = some e) :
    ∃ g', g.addNode n = .ok g' := by
  obtain ⟨g₁, htargets⟩ := @exists_foldlM_edits n.inputs (g.putNode n.id n)
    (fun g i => g.setTarget i (some n.id)) (fun _ _ _ he => exists_setTarget he _)
    (fun _ _ _ hset => setTarget_edits hset 0) fun i hi => h i (mem_append_left _ hi)
  have hrest : ∀ i ∈ n.outputs, ∃ e, g₁.edge? i = some e := by
    intro i hi
    obtain ⟨e, he⟩ := h i (mem_append_right _ hi)
    obtain ⟨e', he', -⟩ := (setTargets_edits htargets 0).channel (i := i) (e := e) he
    exact ⟨e', he'⟩
  obtain ⟨g₂, hsources⟩ := @exists_foldlM_edits n.outputs g₁ (fun g i => g.setSource i (some n.id))
    (fun _ _ e he => ⟨_, bind_eq_ok.2 ⟨e, edge_eq_ok.2 he, rfl⟩⟩)
    (fun _ _ _ hset => setSource_edits hset 0) hrest
  exact ⟨g₂, bind_eq_ok.2 ⟨g₁, htargets, hsources⟩⟩

/-! ### The edges that a node lists -/

section Listing

variable {k : Int} {m : Node} {es : List (Int × Edge)}

theorem edgesOf_cons_eq_ok : g.edgesOf (i :: ids) = .ok es ↔
    ∃ e rest, g.edge? i = some e ∧ g.edgesOf ids = .ok rest ∧ (i, e) :: rest = es := by
  rw [edgesOf, mapM_cons_eq_ok]
  simp only [bind_eq_ok, pure_eq_ok, edge_eq_ok]
  constructor
  · rintro ⟨_, rest, ⟨e, he, rfl⟩, h⟩
    exact ⟨e, rest, he, h⟩
  · rintro ⟨e, rest, he, h⟩
    exact ⟨_, rest, ⟨e, he, rfl⟩, h⟩

theorem edgesOf_map_fst (h : g.edgesOf ids = .ok es) : es.map (·.1) = ids := by
  induction ids generalizing es with
  | nil =>
    cases h
    rfl
  | cons _ _ ih =>
    obtain ⟨e, rest, -, hrest, rfl⟩ := edgesOf_cons_eq_ok.1 h
    rw [map_cons, ih hrest]

theorem edge_of_mem_edgesOf (h : g.edgesOf ids = .ok es) : ∀ e ∈ es, g.edge? e.1 = some e.2 := by
  induction ids generalizing es with
  | nil =>
    cases h
    simp
  | cons _ _ ih =>
    obtain ⟨e, rest, he, hrest, rfl⟩ := edgesOf_cons_eq_ok.1 h
    exact forall_mem_cons.2 ⟨he, ih hrest⟩

theorem exists_edgesOf (h : ∀ i ∈ ids, ∃ e, g.edge? i = some e) : ∃ es, g.edgesOf ids = .ok es := by
  induction ids with
  | nil => exact ⟨[], rfl⟩
  | cons i _ ih =>
    obtain ⟨⟨e, he⟩, htail⟩ := forall_mem_cons.1 h
    obtain ⟨rest, hrest⟩ := ih htail
    exact ⟨(i, e) :: rest, edgesOf_cons_eq_ok.2 ⟨e, rest, he, hrest, rfl⟩⟩

/-- Where edges and nodes agree, a node lists edges of the graph. -/
theorem exists_edgesOf_node (hcons : g.consistent? = .ok true) (hm : g.node? k = some m) :
    (∃ ins, g.edgesOf m.inputs = .ok ins) ∧ ∃ outs, g.edgesOf m.outputs = .ok outs := by
  have hedge : ∀ {i : Int} {stop : Edge → Option Int}, (g.edge? i).bind stop = some k →
      ∃ e, g.edge? i = some e := by
    intro i stop h
    obtain ⟨e, he, -⟩ := Option.bind_eq_some_iff.1 h
    exact ⟨e, he⟩
  obtain ⟨hread, hwritten⟩ := consistent_nodes hcons hm
  exact ⟨exists_edgesOf fun i hi => hedge (hread i hi), exists_edgesOf fun i hi =>
    hedge (hwritten i hi)⟩

theorem inputEdges_eq_ok (hm : g.node? k = some m) {ins : List (Int × Edge)}
    (h : g.inputEdges k = .ok ins) : ins.map (·.1) = m.inputs := by
  obtain ⟨ids, hids, h⟩ := bind_eq_ok.1 h
  obtain ⟨m', hm', hids⟩ := bind_eq_ok.1 hids
  cases hids
  obtain rfl := Option.mem_unique hm (node_eq_ok.1 hm')
  exact edgesOf_map_fst h

theorem exists_inputEdges (hm : g.node? k = some m) (h : ∀ i ∈ m.inputs, ∃ e, g.edge? i = some e) :
    ∃ ins, g.inputEdges k = .ok ins := by
  obtain ⟨ins, hins⟩ := exists_edgesOf h
  exact ⟨ins, bind_eq_ok.2 ⟨m.inputs, bind_eq_ok.2 ⟨m, node_eq_ok.2 hm, rfl⟩, hins⟩⟩

end Listing

end Graph

end ShellFlow
