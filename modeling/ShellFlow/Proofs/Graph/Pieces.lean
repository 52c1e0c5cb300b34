import ShellFlow.Graph.Partition
import ShellFlow.Proofs.Graph.Validity
import ShellFlow.Proofs.Graph.Visiting

/-!
# Pieces of a graph

A piece of a graph has copies of some of its nodes, and of the edges of these nodes.  An end of an
edge that is no node of the piece is open there.
-/

namespace ShellFlow.Graph

open List

variable {g piece piece' : Graph} {id : Int} {c : Channel Int} {cs : List (Channel Int)} {e : Edge}

def channelAt (g : Graph) (i : Int) : Option (Channel Int) := (g.edge? i).map Edge.channel

/-! ### Channels that are attached -/

/-- A graph with some channels more, where it did not have them already. -/
structure Attaches (cs : List (Channel Int)) (piece piece' : Graph) : Prop where
  nodes : piece'.nodes = piece.nodes
  channelAt (i : Int) : piece'.channelAt i = (piece.channelAt i).or (cs.find? (·.ident = i))
  tidy : piece.Tidy → piece'.Tidy

theorem Attaches.refl (piece : Graph) : Attaches [] piece piece :=
  ⟨rfl, fun i => by simp, fun h => h⟩

theorem Attaches.cons {piece₁ : Graph} (h : Attaches [c] piece piece₁)
    (h' : Attaches cs piece₁ piece') : Attaches (c :: cs) piece piece' := by
  refine ⟨h'.nodes.trans h.nodes, fun i => ?_, fun htidy => h'.tidy (h.tidy htidy)⟩
  rw [h'.channelAt, h.channelAt, Option.or_assoc]
  congr 1
  by_cases hc : c.ident = i <;> simp [hc]

/-- An edge is filed: its channel is new, or was there already. -/
theorem attaches_putEdge
    (h : piece.channelAt c.ident = none ∨ piece.channelAt c.ident = some e.channel)
    (hnew : piece.channelAt c.ident = none → e.channel = c) :
    Attaches [c] piece (piece.putEdge c.ident e) := by
  refine ⟨rfl, fun i => ?_, fun htidy => ⟨htidy.nodes, Table.nodup_keys_insert htidy.edges _ _⟩⟩
  by_cases hi : i = c.ident
  · subst hi
    have hput : (piece.putEdge c.ident e).channelAt c.ident = some e.channel := by
      rw [Graph.channelAt, edge?_putEdge, if_pos rfl, Option.map_some]
    rw [hput]
    rcases h with h | h
    · simp [h, hnew h]
    · simp [h]
  · have hput : (piece.putEdge c.ident e).channelAt i = piece.channelAt i := by
      rw [Graph.channelAt, edge?_putEdge, if_neg hi]
      rfl
    simp [hput, Ne.symm hi]

/-- A channel can always be read. -/
theorem exists_attachInput (id : Int) (piece : Graph) (c : Channel Int) :
    ∃ piece', attachInput id piece c = .ok piece' ∧ Attaches [c] piece piece' ∧
      piece'.view = piece.view.setTarget c.ident (some id) := by
  cases he : piece.edge? c.ident with
  | none =>
    have hcontains : piece.edges.contains c.ident = false := by
      rw [Table.contains]
      exact Option.isSome_eq_false_iff.2 (Option.isNone_iff_eq_none.2 he)
    refine ⟨piece.putEdge c.ident { channel := c, target := some id }, ?_, ?_, ?_⟩
    · rw [attachInput, hcontains]
      exact insertEdge_eq_ok.2 ⟨he, rfl⟩
    · exact attaches_putEdge (.inl (by simp [Graph.channelAt, he])) fun _ => rfl
    · rw [putEdge_view, View.setSource_self (by simp [view, he])]
  | some e =>
    have hcontains : piece.edges.contains c.ident = true := by
      rw [Table.contains]
      exact Option.isSome_iff_exists.2 ⟨e, he⟩
    obtain ⟨piece', hset⟩ := exists_setTarget he (some id)
    obtain ⟨e', he', rfl⟩ := setTarget_eq_ok hset
    obtain rfl := Option.mem_unique he he'
    refine ⟨_, ?_, ?_, setTarget_view hset⟩
    · rw [attachInput, hcontains]
      exact hset
    · have hchannel : piece.channelAt c.ident = some e.channel := by simp [Graph.channelAt, he]
      exact attaches_putEdge (.inr hchannel) fun hnone => by simp [hchannel] at hnone

theorem exists_foldlM_attachInput (id : Int) (piece : Graph) (cs : List (Channel Int)) :
    ∃ piece', cs.foldlM (attachInput id) piece = .ok piece' ∧ Attaches cs piece piece' ∧
      piece'.view = piece.view.setTargets (cs.map (·.ident)) (some id) := by
  induction cs generalizing piece with
  | nil => exact ⟨piece, rfl, Attaches.refl piece, by simp [View.setTargets]⟩
  | cons c _ ih =>
    obtain ⟨piece₁, hfirst, hattaches, hview⟩ := exists_attachInput id piece c
    obtain ⟨piece', hrest, hattaches', hview'⟩ := ih piece₁
    refine ⟨piece', bind_eq_ok.2 ⟨piece₁, hfirst, hrest⟩, hattaches.cons hattaches', ?_⟩
    rw [hview', hview, map_cons, View.setTargets_cons]

/-- A channel can be written if the piece does not have it. -/
theorem attachOutput_eq_ok : attachOutput id piece c = .ok piece' ↔
    piece.edge? c.ident = none ∧
    piece' = piece.putEdge c.ident { channel := c, source := some id } :=
  insertEdge_eq_ok

theorem attachOutput_spec (h : attachOutput id piece c = .ok piece') :
    piece.edge? c.ident = none ∧ Attaches [c] piece piece' ∧
      piece'.view = piece.view.setSource c.ident (some id) := by
  obtain ⟨hnone, rfl⟩ := attachOutput_eq_ok.1 h
  refine ⟨hnone, attaches_putEdge (.inl (by simp [Graph.channelAt, hnone])) fun _ => rfl, ?_⟩
  rw [putEdge_view, View.setTarget_self (by simp [View.setSource, view, hnone])]

/-- An edge that was there is still there, and one that is there now was there or is attached. -/
theorem Attaches.edge?_eq_none_iff (h : Attaches cs piece piece') {i : Int} :
    piece'.edge? i = none ↔ piece.edge? i = none ∧ i ∉ cs.map (·.ident) := by
  have hchannel := h.channelAt i
  unfold Graph.channelAt at hchannel
  rw [← Option.map_eq_none_iff (f := Edge.channel), hchannel, Option.or_eq_none_iff,
    Option.map_eq_none_iff, find?_eq_none]
  simp

theorem foldlM_attachOutput_spec (h : cs.foldlM (attachOutput id) piece = .ok piece') :
    (cs.map (·.ident)).Nodup ∧ (∀ c ∈ cs, piece.edge? c.ident = none) ∧ Attaches cs piece piece' ∧
      piece'.view = piece.view.setSources (cs.map (·.ident)) (some id) := by
  induction cs generalizing piece with
  | nil =>
    cases h
    exact ⟨nodup_nil, by simp, Attaches.refl _, by simp [View.setSources]⟩
  | cons c cs ih =>
    obtain ⟨piece₁, hfirst, hrest⟩ := bind_eq_ok.1 h
    obtain ⟨hnone, hattaches, hview⟩ := attachOutput_spec hfirst
    obtain ⟨hnodup, hfree, hattaches', hview'⟩ := ih hrest
    have hback : ∀ d ∈ cs, piece.edge? d.ident = none ∧ d.ident ≠ c.ident := by
      intro d hd
      have hd' := hattaches.edge?_eq_none_iff.1 (hfree d hd)
      simpa using hd'
    refine ⟨nodup_cons.2 ⟨?_, hnodup⟩, forall_mem_cons.2 ⟨hnone, fun d hd => (hback d hd).1⟩,
      hattaches.cons hattaches', ?_⟩
    · intro hmem
      obtain ⟨d, hd, heq⟩ := mem_map.1 hmem
      exact (hback d hd).2 heq
    · rw [hview', hview, map_cons, View.setSources_cons]

/-- Channels can be written if they are different and the piece has none of them. -/
theorem exists_foldlM_attachOutput (id : Int) (hnodup : (cs.map (·.ident)).Nodup)
    (hfree : ∀ c ∈ cs, piece.edge? c.ident = none) :
    ∃ piece', cs.foldlM (attachOutput id) piece = .ok piece' := by
  induction cs generalizing piece with
  | nil => exact ⟨piece, rfl⟩
  | cons c cs ih =>
    obtain ⟨hnone, hfree⟩ := forall_mem_cons.1 hfree
    obtain ⟨hnotMem, hnodup⟩ := nodup_cons.1 hnodup
    have hfirst : attachOutput id piece c = .ok _ := attachOutput_eq_ok.2 ⟨hnone, rfl⟩
    have hstill : ∀ d ∈ cs, (piece.putEdge c.ident { channel := c, source := some id }).edge?
        d.ident = none := by
      intro d hd
      have hne : d.ident ≠ c.ident := fun heq => hnotMem (mem_map.2 ⟨d, hd, heq⟩)
      rw [edge?_putEdge, if_neg hne]
      exact hfree d hd
    obtain ⟨piece', hrest⟩ := ih hnodup hstill
    exact ⟨piece', bind_eq_ok.2 ⟨_, hfirst, hrest⟩⟩

/-! ### A node that joins a piece -/

theorem addNode_channelAt {n : Node} (h : piece.addNode n = .ok piece') :
    piece'.channelAt = piece.channelAt := by
  funext i
  have hedits := addNode_edits h (i + 1)
  unfold Graph.channelAt
  cases he : piece.edge? i with
  | none =>
    cases he' : piece'.edge? i with
    | none => rfl
    | some =>
      obtain ⟨e, hold⟩ := hedits.exists_edge (Int.lt_succ i) he'
      rw [he] at hold
      cases hold
  | some =>
    obtain ⟨e', he', hchannel⟩ := hedits.channel he
    rw [he', Option.map_some, Option.map_some, hchannel]

theorem addNode_nodes {n : Node} (h : piece.addNode n = .ok piece') :
    piece'.nodes = piece.nodes.insert n.id n := by
  obtain ⟨piece₁, hin, hout⟩ := bind_eq_ok.1 h
  have htargets : piece₁.nodes = piece.nodes.insert n.id n := by
    refine Except.foldlM_keeps (P := fun g => g.nodes = piece.nodes.insert n.id n)
      (fun i _ a b ha hset => ?_) rfl hin
    obtain ⟨e, -, rfl⟩ := setTarget_eq_ok hset
    exact ha
  refine Except.foldlM_keeps (P := fun g => g.nodes = piece.nodes.insert n.id n)
    (fun i _ a b ha hset => ?_) htargets
    hout
  obtain ⟨e, -, rfl⟩ := setSource_eq_ok hset
  exact ha

variable {n : Node} {ins outs : List (Channel Int)} {t t' : Supply}

theorem yields_extendPiece : Yields (piece.extendPiece n ins outs) t piece' t' ↔ ∃ piece₁ piece₂,
    ins.foldlM (attachInput t.nextNode) piece = .ok piece₁ ∧
      outs.foldlM (attachOutput t.nextNode) piece₁ = .ok piece₂ ∧
      piece₂.addNode { n with id := t.nextNode } = .ok piece' ∧
      t' = { t with nextNode := t.nextNode + 1 } := by
  have hfresh : ∀ {id : Int} {t₁ : Supply}, Yields Build.freshNode t id t₁ ↔
      (t.nextNode : Int) = id ∧ t₁ = { t with nextNode := t.nextNode + 1 } := by
    intro id t₁
    show ((Except.ok (t.nextNode : Int), { t with nextNode := t.nextNode + 1 }) : Except Fault Int ×
      Supply) =
      (.ok id, t₁) ↔ _
    simp [eq_comm]
  unfold extendPiece
  rw [yields_bind]
  constructor
  · rintro ⟨id, t₁, hid, h⟩
    obtain ⟨rfl, rfl⟩ := hfresh.1 hid
    obtain ⟨piece₁, hin, h⟩ := h.lift_bind
    obtain ⟨piece₂, hout, h⟩ := h.lift_bind
    obtain ⟨hadd, rfl⟩ := yields_lift.1 h
    exact ⟨piece₁, piece₂, hin, hout, hadd, rfl⟩
  · rintro ⟨piece₁, piece₂, hin, hout, hadd, rfl⟩
    exact ⟨t.nextNode, _, hfresh.2 ⟨rfl, rfl⟩,
      yields_lift_bind.2 ⟨piece₁, hin, yields_lift_bind.2 ⟨piece₂, hout,
      yields_lift.2 ⟨hadd, rfl⟩⟩⟩⟩

/-- What a piece becomes when a copy of a node joins it. -/
theorem extendPiece_spec (h : Yields (piece.extendPiece n ins outs) t piece' t') :
    t' = { t with nextNode := t.nextNode + 1 } ∧
      piece'.nodes = piece.nodes.insert t.nextNode { n with id := t.nextNode } ∧
      (∀ i, piece'.channelAt i = (piece.channelAt i).or ((ins ++ outs).find? (·.ident = i))) ∧
      (piece.Tidy → piece'.Tidy) ∧ (outs.map (·.ident)).Nodup := by
  obtain ⟨piece₁, piece₂, hin, hout, hadd, rfl⟩ := yields_extendPiece.1 h
  obtain ⟨_, hin', hattaches, -⟩ := exists_foldlM_attachInput t.nextNode piece ins
  obtain rfl := Except.ok.inj (hin.symm.trans hin')
  obtain ⟨hnodup, -, hattaches', -⟩ := foldlM_attachOutput_spec hout
  refine ⟨rfl, ?_, fun i => ?_, fun htidy => ?_, hnodup⟩
  · rw [addNode_nodes hadd, hattaches'.nodes, hattaches.nodes]
  · rw [addNode_channelAt hadd, hattaches'.channelAt, hattaches.channelAt, Option.or_assoc,
      find?_append]
  · exact (addNode_edits hadd 0).tidy (hattaches'.tidy (hattaches.tidy htidy))

/-- If the channels are those of its edges, the node is added to what is seen of the piece. -/
theorem extendPiece_view (h : Yields (piece.extendPiece n ins outs) t piece' t')
    (hins : ins.map (·.ident) = n.inputs) (houts : outs.map (·.ident) = n.outputs) :
    piece'.view = piece.view.add { n with id := t.nextNode } := by
  obtain ⟨piece₁, piece₂, hin, hout, hadd, -⟩ := yields_extendPiece.1 h
  obtain ⟨_, hin', -, hview⟩ := exists_foldlM_attachInput t.nextNode piece ins
  obtain rfl := Except.ok.inj (hin.symm.trans hin')
  obtain ⟨-, -, -, hview'⟩ := foldlM_attachOutput_spec hout
  rw [addNode_view hadd, hview', hview, hins, houts]
  ext1
  · rfl
  · funext i
    by_cases hi : i ∈ n.outputs
    · exact (if_pos hi).trans (if_pos hi).symm
    · exact (if_neg hi).trans ((if_neg hi).trans (if_neg hi).symm)
  · funext i
    by_cases hi : i ∈ n.inputs
    · exact (if_pos hi).trans (if_pos hi).symm
    · exact (if_neg hi).trans ((if_neg hi).trans (if_neg hi).symm)

/-- **A copy of a node can join a piece** that has none of the edges which it writes. -/
theorem exists_extendPiece (hins : ins.map (·.ident) = n.inputs)
    (houts : outs.map (·.ident) = n.outputs) (hnodup : n.outputs.Nodup)
    (hfree : ∀ i ∈ n.outputs, piece.edge? i = none ∧ i ∉ n.inputs) (t : Supply) :
    ∃ piece' t', Yields (piece.extendPiece n ins outs) t piece' t' := by
  obtain ⟨piece₁, hin, hattaches, -⟩ := exists_foldlM_attachInput t.nextNode piece ins
  have hfree₁ : ∀ c ∈ outs, piece₁.edge? c.ident = none := by
    intro c hc
    have hmem : c.ident ∈ n.outputs := houts ▸ mem_map_of_mem hc
    rw [hattaches.edge?_eq_none_iff, hins]
    exact hfree c.ident hmem
  obtain ⟨piece₂, hout⟩ := exists_foldlM_attachOutput t.nextNode (houts ▸ hnodup) hfree₁
  obtain ⟨-, -, hattaches', -⟩ := foldlM_attachOutput_spec hout
  have hedges : ∀ i ∈ n.inputs ++ n.outputs, ∃ e, piece₂.edge? i = some e := by
    intro i hi
    refine Option.ne_none_iff_exists'.1 fun hnone => ?_
    obtain ⟨hnone, hnotOut⟩ := hattaches'.edge?_eq_none_iff.1 hnone
    obtain ⟨-, hnotIn⟩ := hattaches.edge?_eq_none_iff.1 hnone
    rw [houts] at hnotOut
    rw [hins] at hnotIn
    exact (mem_append.1 hi).elim hnotIn hnotOut
  obtain ⟨piece', hadd⟩ := exists_addNode (n := { n with id := t.nextNode }) hedges
  exact ⟨piece', _, yields_extendPiece.2 ⟨piece₁, piece₂, hin, hout, hadd, rfl⟩⟩

/-! ### Copies of nodes -/

section Part

variable {copy copy' : Int → Int} {ks : List Int} {k k' : Int} {stop : Option Int}

/-- Copies of some nodes of a graph, under numbers of their own. -/
def copies (g : Graph) (copy : Int → Int) (ks : List Int) : List (Int × Node) :=
  ks.filterMap fun k => (g.node? k).map fun m => (copy k, { m with id := copy k })

/-- The end of an edge, in a piece with copies of some nodes: other nodes are outside. -/
def partEnd (copy : Int → Int) (ks : List Int) (stop : Option Int) : Option Int :=
  stop.bind fun k => if k ∈ ks then some (copy k) else none

theorem partEnd_eq_some : partEnd copy ks stop = some k' ↔ ∃ k ∈ ks, stop = some k ∧
    copy k = k' := by
  cases stop with
  | none => simp [partEnd]
  | some k =>
    by_cases hk : k ∈ ks
    · simp [partEnd, hk]
    · simp [partEnd, hk]

theorem partEnd_eq_none : partEnd copy ks stop = none ↔ ∀ k ∈ ks, stop ≠ some k := by
  rw [Option.eq_none_iff_forall_ne_some]
  constructor
  · intro h k hk hstop
    exact h (copy k) (partEnd_eq_some.2 ⟨k, hk, hstop, rfl⟩)
  · intro h k' hk'
    obtain ⟨k, hk, hstop, -⟩ := partEnd_eq_some.1 hk'
    exact h k hk hstop

theorem partEnd_concat (copy : Int → Int) (ks : List Int) (k : Int) (stop : Option Int) :
    partEnd copy (ks ++ [k]) stop = if stop =
      some k then some (copy k) else partEnd copy ks stop := by
  cases stop with
  | none => rfl
  | some l => by_cases hl : l = k <;> simp [partEnd, hl]

theorem feeds_of_nextNodes (hcons : g.consistent? = .ok true) {m : Node} {after : List Int}
    (hm : g.node? k = some m) (hafter : g.nextNodes k = .ok after) (hk' : k' ∈ after) :
    g.Feeds k k' := by
  obtain ⟨hsource, -⟩ := listed_of_consistent hcons
  rw [nextNodes_eq hsource hm] at hafter
  cases hafter
  obtain ⟨i, hi, htarget⟩ := mem_filterMap.1 hk'
  exact ⟨i, (hsource i k).2 ⟨m, hm, hi⟩, htarget⟩

/-- The first of a chain of nodes feeds all others, directly or through others. -/
theorem transGen_of_chain (hcons : g.consistent? = .ok true)
    (hknown : ∀ l ∈ k :: ks, ∃ m, g.node? l = some m)
    (hchain : (k :: ks).IsChain fun k k' => g.nextNodes k = .ok [k']) :
    ∀ l ∈ ks, Relation.TransGen g.Feeds k l := by
  have hfeeds : (k :: ks).IsChain (Relation.TransGen g.Feeds) := by
    refine hchain.imp_of_mem_imp fun a b ha _ hnext => ?_
    obtain ⟨m, hm⟩ := hknown a ha
    exact .single (feeds_of_nextNodes hcons hm hnext (mem_singleton_self b))
  exact (pairwise_cons.1 hfeeds.pairwise).1

/-- A graph has copies of some nodes of another, with their edges. -/
structure IsPart (g : Graph) (copy : Int → Int) (ks : List Int) (piece : Graph) : Prop where
  known (k : Int) : k ∈ ks → ∃ m, g.node? k = some m
  nodes : piece.nodes.entries = g.copies copy ks
  source (i : Int) : piece.view.source i = partEnd copy ks (g.view.source i)
  target (i : Int) : piece.view.target i = partEnd copy ks (g.view.target i)
  channel (i : Int) (c : Channel Int) : piece.channelAt i = some c →
    g.channelAt i = some c ∧ (piece.view.source i ≠ none ∨ piece.view.target i ≠ none)
  tidy : piece.Tidy

namespace IsPart

variable {m : Node}

theorem empty (g : Graph) (copy : Int → Int) : g.IsPart copy [] {} where
  known k hk := absurd hk not_mem_nil
  nodes := rfl
  source i := by
    rw [partEnd_eq_none.2 fun k hk => absurd hk not_mem_nil]
    rfl
  target i := by
    rw [partEnd_eq_none.2 fun k hk => absurd hk not_mem_nil]
    rfl
  channel i c hc := by cases hc
  tidy := ⟨nodup_nil, nodup_nil⟩

section

variable (h : g.IsPart copy ks piece)
include h

/-- Only the numbers of its own copies matter to a piece. -/
theorem congr (heq : ∀ k ∈ ks, copy' k = copy k) : g.IsPart copy' ks piece := by
  have hends : ∀ stop, partEnd copy' ks stop = partEnd copy ks stop := by
    intro stop
    refine Option.bind_congr fun k _ => ?_
    by_cases hk : k ∈ ks
    · rw [if_pos hk, if_pos hk, heq k hk]
    · rw [if_neg hk, if_neg hk]
  have hcopies : g.copies copy' ks = g.copies copy ks := by
    refine filterMap_congr fun k hk => ?_
    rw [heq k hk]
  exact ⟨h.known, h.nodes.trans hcopies.symm, fun i => (h.source i).trans (hends _).symm,
    fun i => (h.target i).trans (hends _).symm, h.channel, h.tidy⟩

theorem keys_eq : piece.nodes.keys = ks.map copy := by
  have hkeys : ∀ ls : List Int, (∀ k ∈ ls, k ∈ ks) →
      (g.copies copy ls).map (·.1) = ls.map copy := by
    intro ls hls
    induction ls with
    | nil => rfl
    | cons k _ ih =>
      obtain ⟨hk, hls⟩ := forall_mem_cons.1 hls
      obtain ⟨m, hm⟩ := h.known k hk
      rw [copies, filterMap_cons_some (b := (copy k, { m with id := copy k })) (by simp [hm]),
        map_cons, map_cons]
      exact congrArg _ (ih hls)
  show piece.nodes.entries.map (·.1) = ks.map copy
  rw [h.nodes]
  exact hkeys ks fun k hk => hk

theorem node?_eq_some {m' : Node} :
    piece.node? k' = some m' ↔ ∃ k ∈ ks, ∃ m, g.node? k = some m ∧ copy k = k' ∧
    m' = { m with id := k' } := by
  have hentry : piece.node? k' = some m' ↔ (k', m') ∈ g.copies copy ks := by
    rw [← h.nodes]
    exact ⟨Table.mem_entries_of_get?, Table.get?_of_mem h.tidy.nodes⟩
  rw [hentry, copies, mem_filterMap]
  refine exists_congr fun k => and_congr_right fun _ => ?_
  constructor
  · intro hk
    obtain ⟨m, hm, heq⟩ := Option.map_eq_some_iff.1 hk
    cases heq
    exact ⟨m, hm, rfl, rfl⟩
  · rintro ⟨m, hm, rfl, rfl⟩
    exact Option.map_eq_some_iff.2 ⟨m, hm, rfl⟩

theorem node?_copy (hk : k ∈ ks) (hm : g.node? k = some m) :
    piece.node? (copy k) = some { m with id := copy k } :=
  h.node?_eq_some.2 ⟨k, hk, m, hm, rfl, rfl⟩

/-- A piece lists at one side what the graph lists there. -/
theorem listed_of_ends {edges : Node → List Int} {stop stop' : Int → Option Int}
    (hedges : ∀ m : Node, ∀ k, edges { m with id := k } = edges m)
    (hlisted : Listed g.node? edges stop) (hstop : ∀ i, stop' i = partEnd copy ks (stop i)) :
      Listed piece.node? edges stop' := by
  intro i k'
  rw [hstop, partEnd_eq_some]
  constructor
  · rintro ⟨k, hk, hend, rfl⟩
    obtain ⟨m, hm, hi⟩ := (hlisted i k).1 hend
    exact ⟨_, h.node?_copy hk hm, (hedges m _).symm ▸ hi⟩
  · rintro ⟨m', hm', hi⟩
    obtain ⟨k, hk, m, hm, rfl, rfl⟩ := h.node?_eq_some.1 hm'
    rw [hedges] at hi
    exact ⟨k, hk, (hlisted i k).2 ⟨m, hm, hi⟩, rfl⟩

end

variable (hcons : g.consistent? = .ok true)
include hcons

theorem listed (h : g.IsPart copy ks piece) :
    Listed piece.node? Node.outputs piece.view.source ∧
    Listed piece.node? Node.inputs piece.view.target :=
  ⟨h.listed_of_ends (fun _ _ => rfl) (listed_of_consistent hcons).1 h.source,
    h.listed_of_ends (fun _ _ => rfl) (listed_of_consistent hcons).2 h.target⟩

/-- **Edges and nodes of a piece agree.** -/
theorem consistent (h : g.IsPart copy ks piece) : piece.consistent? = .ok true :=
  consistent_of_listed h.tidy (h.listed hcons).1 (h.listed hcons).2

section

variable (h : g.IsPart copy ks piece)
include h

/-- The readers of a copy are the copies of the readers, where these are in the piece. -/
theorem nextNodes_copy {after : List Int} (hk : k ∈ ks)
    (hafter : g.nextNodes k = .ok after) (hin : ∀ k' ∈ after, k' ∈ ks) :
    piece.nextNodes (copy k) = .ok (after.map copy) := by
  obtain ⟨m, hm⟩ := h.known k hk
  rw [nextNodes_eq (listed_of_consistent hcons).1 hm] at hafter
  cases hafter
  rw [nextNodes_eq (h.listed hcons).1 (h.node?_copy hk hm), map_filterMap]
  refine congrArg Except.ok (filterMap_congr fun i hi => ?_)
  rw [h.target]
  cases htarget : g.view.target i with
  | none => rfl
  | some k' =>
    have hk' : k' ∈ ks := hin k' (mem_filterMap.2 ⟨i, hi, htarget⟩)
    simp [partEnd, hk']

/-- Nodes that are read one by the other are copied into nodes that are read one by the other. -/
theorem chain (hchain : ks.IsChain fun k k' => g.nextNodes k = .ok [k']) :
    piece.nodes.keys.IsChain fun k k' => piece.nextNodes k = .ok [k'] := by
  rw [h.keys_eq, isChain_map]
  refine hchain.imp_of_mem_imp fun k k' hk hk' hnext => ?_
  exact h.nextNodes_copy hcons hk hnext fun l hl => mem_singleton.1 hl ▸ hk'

/-- A piece has no source only if it has no node: the first node of a chain is fed by none of the
others. -/
theorem sourceNodes_eq_nil (hacyclic : g.Acyclic)
    (hchain : ks.IsChain fun k k' => g.nextNodes k = .ok [k']) : piece.sourceNodes = [] ↔
    ks = [] := by
  constructor
  · intro hnone
    cases ks with
    | nil => rfl
    | cons k =>
      obtain ⟨m, hm⟩ := h.known k mem_cons_self
      have hnode := h.node?_copy mem_cons_self hm
      suffices hsource : copy k ∈ piece.sourceNodes by simp [hnone] at hsource
      rw [mem_sourceNodes]
      rcases eq_nil_or_concat m.inputs with hnil | ⟨front, i, hcons'⟩
      · exact .inr ⟨_, Table.mem_entries_of_get? hnode, hnil⟩
      · have hi : i ∈ m.inputs := by simp [hcons']
        obtain ⟨e, he, htarget⟩ :=
          Option.bind_eq_some_iff.1 (((h.listed hcons).2 i (copy k)).2 ⟨_, hnode, hi⟩)
        refine .inl ⟨e, Table.mem_values_of_get? he, ?_, htarget⟩
        have hopen : piece.view.source i = none := by
          rw [h.source, partEnd_eq_none]
          intro l hl hsource
          have hfeeds : g.Feeds l k :=
            ⟨i, hsource, ((listed_of_consistent hcons).2 i k).2 ⟨m, hm, hi⟩⟩
          rcases mem_cons.1 hl with rfl | hl
          · exact hacyclic l (.single hfeeds)
          · exact hacyclic k ((transGen_of_chain hcons h.known hchain l hl).tail hfeeds)
        simpa [view, he] using hopen
  · rintro rfl
    refine eq_nil_iff_forall_not_mem.2 fun k hk => ?_
    rcases mem_sourceNodes.1 hk with ⟨e, he, -, htarget⟩ | ⟨n, hn, -⟩
    · obtain ⟨⟨i, e⟩, hmem, rfl⟩ := mem_map.1 he
      have hopen : piece.view.target i = none := by
        rw [h.target, partEnd_eq_none]
        exact fun k hk => absurd hk not_mem_nil
      have hedge : piece.edge? i = some e := Table.get?_of_mem h.tidy.edges hmem
      rw [show piece.view.target i = e.target by simp [view, hedge], htarget] at hopen
      cases hopen
    · rw [h.nodes] at hn
      cases hn

omit hcons in
theorem edge?_eq_none {i : Int} (hsource : ∀ k ∈ ks, g.view.source i ≠ some k)
    (htarget : ∀ k ∈ ks, g.view.target i ≠ some k) : piece.edge? i = none := by
  refine Option.eq_none_iff_forall_ne_some.2 fun e he => ?_
  rcases (h.channel i e.channel (by rw [channelAt, he, Option.map_some])).2 with hend | hend
  · exact hend ((h.source i).trans (partEnd_eq_none.2 hsource))
  · exact hend ((h.target i).trans (partEnd_eq_none.2 htarget))

end

/-- **A piece that a copy of a node has joined is a piece with one node more.** -/
theorem extend {ins outs : List (Int × Edge)} (h : g.IsPart copy ks piece) (hm : g.node? k = some m)
    (hcopy : copy k = t.nextNode) (hfresh : ∀ l ∈ ks, copy l ≠ t.nextNode)
    (hins : g.edgesOf m.inputs = .ok ins) (houts : g.edgesOf m.outputs = .ok outs)
    (hnamed : ∀ e ∈ ins ++ outs, e.2.channel.ident = e.1)
    (hy : Yields (piece.extendPiece m (ins.map (·.2.channel)) (outs.map (·.2.channel))) t
      piece' t') :
    g.IsPart copy (ks ++ [k]) piece' := by
  obtain ⟨hsource, htarget⟩ := listed_of_consistent hcons
  obtain ⟨-, hnodes, hchannel, htidy, -⟩ := extendPiece_spec hy
  have hidents : ∀ {es : List (Int × Edge)} {ids : List Int}, g.edgesOf ids = .ok es →
      (∀ e ∈ es, e ∈ ins ++ outs) →
      (es.map (·.2.channel)).map (·.ident) = ids := by
    intro es ids hes hmem
    rw [map_map, ← edgesOf_map_fst hes]
    exact map_congr_left fun e he => hnamed e (hmem e he)
  have hview := extendPiece_view hy (hidents hins fun e he => mem_append_left _ he)
    (hidents houts fun e he => mem_append_right _ he)
  have hsources : ∀ i, piece'.view.source i =
    if i ∈ m.outputs then some ↑t.nextNode else piece.view.source i :=
    fun i => congrFun (congrArg View.source hview) i
  have htargets : ∀ i, piece'.view.target i =
    if i ∈ m.inputs then some ↑t.nextNode else piece.view.target i :=
    fun i => congrFun (congrArg View.target hview) i
  have hkeys : (t.nextNode : Int) ∉ piece.nodes.keys := by
    rw [h.keys_eq, mem_map]
    rintro ⟨l, hl, heq⟩
    exact hfresh l hl heq
  refine ⟨?_, ?_, fun i => ?_, fun i => ?_, fun i c hc => ?_, htidy h.tidy⟩
  · intro l hl
    rcases mem_append.1 hl with hl | hl
    · exact h.known l hl
    · exact ⟨m, mem_singleton.1 hl ▸ hm⟩
  · rw [hnodes, Table.entries_insert_of_notMem hkeys, h.nodes, copies, copies, filterMap_append]
    simp [hm, hcopy]
  · rw [hsources, partEnd_concat, hcopy, ← h.source]
    exact if_congr ((hsource i k).trans (by simp [hm])).symm rfl rfl
  · rw [htargets, partEnd_concat, hcopy, ← h.target]
    exact if_congr ((htarget i k).trans (by simp [hm])).symm rfl rfl
  · rw [hchannel] at hc
    rw [hsources, htargets]
    cases hold : piece.channelAt i with
    | some d =>
      rw [hold, Option.some_or] at hc
      obtain rfl := Option.some.inj hc
      -- an end that was there is still there
      obtain ⟨hd, hends⟩ := h.channel i d hold
      refine ⟨hd, hends.imp (fun hend => ?_) fun hend => ?_⟩
      · by_cases hi : i ∈ m.outputs <;> simp [hi, hend]
      · by_cases hi : i ∈ m.inputs <;> simp [hi, hend]
    | none =>
      rw [hold, Option.none_or, ← map_append] at hc
      have hident := find?_some hc
      obtain ⟨e, he, rfl⟩ := mem_map.1 (mem_of_find?_eq_some hc)
      obtain rfl : e.1 = i := by simpa [hnamed e he] using hident
      rcases mem_append.1 he with hin | hout
      · have hi : e.1 ∈ m.inputs := edgesOf_map_fst hins ▸ mem_map_of_mem hin
        refine ⟨?_, .inr (by simp [hi])⟩
        rw [channelAt, edge_of_mem_edgesOf hins e hin, Option.map_some]
      · have hi : e.1 ∈ m.outputs := edgesOf_map_fst houts ▸ mem_map_of_mem hout
        refine ⟨?_, .inl (by simp [hi])⟩
        rw [channelAt, edge_of_mem_edgesOf houts e hout, Option.map_some]

end IsPart

end Part

end ShellFlow.Graph
