import Mathlib.Data.List.Nodup
import ShellFlow.Compile.Command
import ShellFlow.Proofs.Graph.Validity

/-!
# Numbers of the nodes of a union

Joining writers and readers of the same file changes what the nodes read and write, but neither
which nodes there are nor their order.  So two graphs whose nodes have different numbers unite to a
graph with the nodes of both.
-/

namespace ShellFlow.Graph

variable {g g' u : Graph} {i k : Int} {input : Int × Resource} {n : Node}

/-- Every node is filed under its own number. -/
def Filed (g : Graph) : Prop := ∀ e ∈ g.nodes.entries, e.2.id = e.1

/-- Two graphs with the same numbers of nodes in the same order, both in the background or neither.
-/
structure Alike (g g' : Graph) : Prop where
  keys : g'.nodes.keys = g.nodes.keys
  background : g'.background = g.background
  filed : g.Filed → g'.Filed

theorem Alike.refl (g : Graph) : Alike g g := ⟨rfl, rfl, id⟩

theorem Alike.trans (h : Alike g g') (h' : Alike g' u) : Alike g u :=
  ⟨h'.keys.trans h.keys, h'.background.trans h.background, fun hg => h'.filed (h.filed hg)⟩

/-! ### One graph -/

/-- Another node of the same number takes the place of a node. -/
theorem putNode_alike {k : Int} {n n' : Node} (hn : g.node? k = some n) (hid : n'.id = n.id) :
    Alike g (g.putNode k n') := by
  constructor
  · show (g.nodes.insert k n').keys = _
    rw [Table.keys_insert, if_pos (Table.mem_keys_of_get? hn)]
  · rfl
  · intro hg e he
    rcases Table.mem_put he with rfl | he
    · exact hid.trans (hg (k, n) (Table.mem_entries_of_get? hn))
    · exact hg e he

theorem replaceInNode_alike {old new : Int} (h : g.replaceInNode k old new = .ok g') :
    Alike g g' := by
  obtain ⟨n, hn, h⟩ := bind_eq_ok.1 h
  cases h
  exact putNode_alike (node_eq_ok.1 hn) rfl

theorem setSource_alike {k : Option Int} (h : g.setSource i k = .ok g') : Alike g g' := by
  obtain ⟨e, -, rfl⟩ := setSource_eq_ok h
  exact ⟨rfl, rfl, id⟩

theorem joinWriter_alike {output : Int × Resource} {n : Int} {acc acc' : Graph × Nat}
    (h : joinWriter input n acc output = .ok acc') : Alike acc.1 acc'.1 := by
  unfold joinWriter at h
  split at h
  · obtain ⟨g₁, hreplace, h⟩ := bind_eq_ok.1 h
    obtain ⟨g₂, hset, h⟩ := bind_eq_ok.1 h
    obtain ⟨g₃, hopen, h⟩ := bind_eq_ok.1 h
    cases h
    exact ((replaceInNode_alike hreplace).trans (setSource_alike hset)).trans
      (setSource_alike hopen)
  · cases h
    exact Alike.refl _

theorem joinWriters_alike (h : joinWriters g input = .ok g') : Alike g g' := by
  obtain ⟨⟨g₁, k⟩, hfold, h⟩ := bind_eq_ok.1 h
  obtain ⟨-, -, h⟩ := bind_eq_ok.1 h
  cases h
  refine Except.foldlM_rel (R := fun a b : Graph × Nat => Alike a.1 b.1) (fun _ => Alike.refl _)
    (fun _ _ _ => Alike.trans) (fun acc n acc' hstep => ?_) hfold
  obtain ⟨outs, -, hstep⟩ := bind_eq_ok.1 hstep
  exact Except.foldlM_rel (R := fun a b : Graph × Nat => Alike a.1 b.1) (fun _ => Alike.refl _)
    (fun _ _ _ => Alike.trans) (fun _ _ _ => joinWriter_alike) hstep

/-- **Joining the writers and readers of files keeps the numbers of the nodes.** -/
theorem combineCommonFiles_alike (h : g.combineCommonFiles = .ok g') : Alike g g' := by
  refine Except.foldlM_rel Alike.refl (fun _ _ _ => Alike.trans) (fun g n g' hstep => ?_) h
  obtain ⟨ins, -, hstep⟩ := bind_eq_ok.1 hstep
  exact Except.foldlM_rel Alike.refl (fun _ _ _ => Alike.trans)
    (fun _ _ _ => joinWriters_alike) hstep

theorem redirectEdges_alike {standard : Channel Int → Bool} {target : Word} {ids : List Int}
    {r : Graph × Nat} (h : g.redirectEdges standard target ids = .ok r) : Alike g r.1 := by
  refine Except.foldlM_rel (R := fun a b : Graph × Nat => Alike a.1 b.1) (fun _ => Alike.refl _)
    (fun _ _ _ => Alike.trans) (fun acc i acc' hstep => ?_) h
  obtain ⟨e, -, hstep⟩ := bind_eq_ok.1 hstep
  split at hstep
  · cases hstep
    exact ⟨rfl, rfl, id⟩
  · cases hstep
    exact Alike.refl _

theorem redirect_alike {r : FileRedirection} (h : g.redirect n r = .ok g') : Alike g g' := by
  unfold redirect at h
  split at h
  · obtain ⟨⟨g₁, k⟩, hedges, h⟩ := bind_eq_ok.1 h
    obtain ⟨-, -, h⟩ := bind_eq_ok.1 h
    cases h
    exact redirectEdges_alike hedges
  · split at h
    · obtain ⟨⟨g₁, k⟩, hedges, h⟩ := bind_eq_ok.1 h
      obtain ⟨-, -, h⟩ := bind_eq_ok.1 h
      cases h
      exact redirectEdges_alike hedges
    · obtain ⟨-, -, h⟩ := bind_eq_ok.1 h
      cases h

theorem applyRedirections_alike (h : g.applyRedirections = .ok g') : Alike g g' := by
  obtain ⟨g₁, hredirect, h⟩ := bind_eq_ok.1 h
  refine Alike.trans ?_ (combineCommonFiles_alike h)
  refine Except.foldlM_rel Alike.refl (fun _ _ _ => Alike.trans) (fun g n g' hstep => ?_) hredirect
  exact Except.foldlM_rel Alike.refl (fun _ _ _ => Alike.trans) (fun _ _ _ => redirect_alike) hstep

theorem setTarget_alike {k : Option Int} (h : g.setTarget i k = .ok g') : Alike g g' := by
  obtain ⟨e, -, rfl⟩ := setTarget_eq_ok h
  exact ⟨rfl, rfl, id⟩

theorem nodeGraph_numbers {edges : Table Int Edge} (h : nodeGraph n edges = .ok g) :
    g.nodes.keys = [n.id] ∧ g.Filed := by
  obtain ⟨g₁, htargets, h⟩ := bind_eq_ok.1 h
  obtain ⟨g₂, hsources, h⟩ := bind_eq_ok.1 h
  have hends : Alike { nodes := .ofList [(n.id, n)], edges } g₂ :=
    (Except.foldlM_rel Alike.refl (fun _ _ _ => Alike.trans) (fun _ _ _ => setTarget_alike)
      htargets).trans
    (Except.foldlM_rel Alike.refl (fun _ _ _ => Alike.trans)
      (fun _ _ _ => setSource_alike) hsources)
  have hmade : Alike { g₂ with background := false } g := applyRedirections_alike h
  refine ⟨hmade.keys.trans hends.keys, hmade.filed (hends.filed ?_)⟩
  intro e he
  obtain rfl := List.mem_singleton.1 he
  rfl

/-! ### Two graphs -/

/-- **Graphs whose nodes have different numbers unite to a graph with the nodes of both.** -/
theorem keys_union (hdisjoint : (g.nodes.keys ++ g'.nodes.keys).Nodup) (h : g.union g' = .ok u) :
    u.nodes.keys = g.nodes.keys ++ g'.nodes.keys ∧ (g.Filed → g'.Filed → u.Filed) := by
  have hsame := combineCommonFiles_alike h
  have hmerge := Table.merge_eq_append hdisjoint
  refine ⟨hsame.keys.trans ?_, fun hg hg' => hsame.filed fun e he => ?_⟩
  · show (g.nodes.merge g'.nodes).keys = _
    rw [hmerge, Table.keys_append]
  · change e ∈ (g.nodes.merge g'.nodes).entries at he
    rw [hmerge] at he
    rcases List.mem_append.1 he with he | he
    · exact hg e he
    · exact hg' e he

/-- A graph in the background, beside another, takes from this whether it is in the background. -/
theorem backgroundUnion_eq_ok (h : g.backgroundUnion g' = .ok u) :
    ({ g with background := g'.background } : Graph).union g' = .ok u := by
  obtain ⟨-, -, h⟩ := bind_eq_ok.1 h
  obtain ⟨-, -, h⟩ := bind_eq_ok.1 h
  obtain ⟨-, -, h⟩ := bind_eq_ok.1 h
  exact h

theorem background_backgroundUnion (h : g.backgroundUnion g' = .ok u) :
    u.background = g'.background :=
  (combineCommonFiles_alike (backgroundUnion_eq_ok h)).background

theorem mem_keys_backgroundUnion (hk : k ∈ g.nodes.keys) (h : g.backgroundUnion g' = .ok u) :
    k ∈ u.nodes.keys := by
  rw [(combineCommonFiles_alike (backgroundUnion_eq_ok h)).keys]
  exact Table.mem_keys_merge hk

theorem present_eq_ok {i : Option Int} {j : Int} (h : present i = .ok j) : i = some j := by
  unfold present at h
  split at h
  · cases h
    rfl
  · cases h

/-- What is between two graphs when one is piped into the other: the edge that leaves the first and
the one that enters the second, with the node that reads it. -/
structure Seam (g g' : Graph) (out into : Int) (o e : Edge) (reader : Node) : Prop where
  stdout : g.stdoutEdge = .ok (some out)
  stdin : g'.stdinEdge = .ok (some into)
  left : g.edge? out = some o
  left_target : o.target = none
  right : g'.edge? into = some e
  right_source : e.source = none
  reads : ∃ k, e.target = some k ∧ g'.node? k = some reader

/-- The first graph, with its output led to the reader. -/
def leadOut (g : Graph) (out : Int) (o e : Edge) : Graph :=
  g.putEdge out { o with channel := o.channel.makeEphemeral, target := e.target }

/-- The second graph, with its reader reading the output of the first. -/
def leadIn (g' : Graph) (out into : Int) (reader : Node) : Graph :=
  { g'.putNode reader.id (reader.replaceEdge into out) with edges := g'.edges.erase into }

/-- **Piping one graph into another unites them along the seam.** -/
theorem pipeAppend_eq_ok (h : g.pipeAppend g' = .ok u) :
    ∃ out into o e reader, Seam g g' out into o e reader ∧
      (g.leadOut out o e).union (g'.leadIn out into reader) = .ok u := by
  obtain ⟨_, -, h⟩ := bind_eq_ok.1 h
  obtain ⟨_, -, h⟩ := bind_eq_ok.1 h
  obtain ⟨a, hstdout, h⟩ := bind_eq_ok.1 h
  obtain ⟨b, hstdin, h⟩ := bind_eq_ok.1 h
  obtain ⟨out, hout, h⟩ := bind_eq_ok.1 h
  obtain ⟨into, hinto, h⟩ := bind_eq_ok.1 h
  obtain ⟨e, he, h⟩ := bind_eq_ok.1 h
  obtain ⟨_, hsource, h⟩ := bind_eq_ok.1 h
  obtain ⟨reader, hreader, h⟩ := bind_eq_ok.1 h
  obtain ⟨o, ho, h⟩ := bind_eq_ok.1 h
  obtain ⟨_, htarget, hunion⟩ := bind_eq_ok.1 h
  obtain rfl := present_eq_ok hout
  obtain rfl := present_eq_ok hinto
  exact ⟨out, into, o, e, reader,
    { stdout := hstdout
      stdin := hstdin
      left := edge_eq_ok.1 ho
      left_target := Option.isNone_iff_eq_none.1 (require_eq_ok.1 htarget)
      right := edge_eq_ok.1 he
      right_source := Option.isNone_iff_eq_none.1 (require_eq_ok.1 hsource)
      reads := nodeAt_eq_ok hreader }, hunion⟩

/-- One graph piped into another has the nodes of both. -/
theorem keys_pipeAppend (hfiled : g.Filed) (hfiled' : g'.Filed)
    (hdisjoint : (g.nodes.keys ++ g'.nodes.keys).Nodup)
    (h : g.pipeAppend g' = .ok u) : u.nodes.keys = g.nodes.keys ++ g'.nodes.keys ∧ u.Filed := by
  obtain ⟨out, into, o, e, reader, hseam, h⟩ := pipeAppend_eq_ok h
  obtain ⟨k, -, hnode⟩ := hseam.reads
  -- The reader is put back under its own number, which is where it stood.
  have hid : reader.id = k := hfiled' (k, reader) (Table.mem_entries_of_get? hnode)
  have hput : Alike g' (g'.leadIn out into reader) := by
    obtain ⟨hkeys, hbackground, hputFiled⟩ :=
      @putNode_alike g' reader.id reader (reader.replaceEdge into out)
      (hid ▸ hnode) rfl
    exact ⟨hkeys, hbackground, hputFiled⟩
  have hled : (g.leadOut out o e).nodes.keys = g.nodes.keys := rfl
  rw [← hput.keys] at hdisjoint ⊢
  obtain ⟨hkeys, hunion⟩ := keys_union (hled ▸ hdisjoint) h
  exact ⟨hkeys, hunion hfiled (hput.filed hfiled')⟩

end ShellFlow.Graph
