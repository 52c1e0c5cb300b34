import ShellFlow.Proofs.Graph.Editing
import ShellFlow.Proofs.Graph.Parts

/-!
# Reduction trees in a graph

The calls of a reduction tree join a graph one by one, as the other parts of a division do.  A tree
whose command has more than one output ends in nodes that drain the outputs that nobody reads.
-/

namespace ShellFlow

open List
open ShellFlow.Graph (freshIds mem_freshIds nodup_freshIds length_freshIds)

variable {P : Node → Prop} {c : List Int × List Int} {calls : List (List Int × List Int)}
  {extra ids : List Int} {g g' : Graph} {groups groups' : List (List Int)} {next next' output : Int}
    {ns : List Node}
  {s s' : ChannelSource} {t t' : Supply} {tree : Reduction} {v : View} {w : Nat}
    {whole : Invocation}

/-- The nodes of a chain of calls read and write what the calls do. -/
theorem Chain.wired_mapM {command : List Int × List Int → Build Node}
    (h : Chain w next groups calls next' groups') (hnodup : groups.flatten.Nodup)
    (hlt : ∀ i ∈ groups.flatten, i < next)
    (hmakes : ∀ c ∈ calls, (c.1 ++ c.2).Nodup → Makes (command c) c.1 c.2 P)
    (hy : Yields (calls.mapM command) t ns t') : Wired P t.nextNode ns calls t'.nextNode := by
  induction h generalizing t ns with
  | nil =>
    obtain ⟨rfl, rfl⟩ := hy.pure
    exact .nil
  | @cons next _ front back _ a b calls _ _ _ ih =>
    rw [mapM_cons] at hy
    obtain ⟨n, t₁, hmake, hy⟩ := hy.bind
    obtain ⟨rest, t₂, hrest, hy⟩ := hy.bind
    obtain ⟨rfl, rfl⟩ := hy.pure
    -- outputs are numbered behind all open edges, so the open edges stay distinct
    have hfresh : ((front ++ a :: b :: back).flatten ++ freshIds next w).Nodup := by
      refine nodup_append.2 ⟨hnodup, nodup_freshIds _ _, ?_⟩
      rintro i hi j hj rfl
      have := hlt i hi
      have := (mem_freshIds.1 hj).1
      omega
    have hlt' := Chain.lt_step (w := w) hlt
    simp only [flatten_append, flatten_cons, List.append_assoc] at hfresh ih hlt'
    have hown : (a ++ b ++ freshIds next w).Nodup := by
      rw [List.append_assoc]
      exact hfresh.sublist
        ((((sublist_append_right _ _).append_left b).append_left a).trans
          (sublist_append_right _ _))
    have hopen : (front.flatten ++ (freshIds next w ++ back.flatten)).Nodup := by
      refine (perm_append_comm.append_left _).nodup_iff.1 (hfresh.sublist ?_)
      exact ((sublist_append_right b _).trans (sublist_append_right a _)).append_left _
    obtain ⟨hid, hcount, hin, hout, hP⟩ := hmakes _ mem_cons_self hown _ _ _ hmake
    exact .cons hid hin hout hP
      (hcount ▸ ih hopen hlt' (fun c hc => hmakes c (mem_cons_of_mem _ hc)) hrest)

/-- A tree is put in, and then the node that writes the last open edge is found and writes `output`
instead. -/
theorem Graph.yields_introduceTree
    (h : Yields (g.introduceTree whole groups output s) t (g', s') t') :
    ∃ tree v k n, Yields (reduceTree (binaryAggregator whole) groups s) t tree t' ∧
      s' = tree.source ∧ v = tree.nodes.foldl View.add g.view ∧ v.source tree.final = some k ∧
      v.node k = some n ∧
      g'.view = (({ v with
        node := fun j => if j = n.id then some (n.replaceEdge tree.final output) else v.node j } :
          View).setSource output (some n.id)).setSource tree.final none ∧
      Edits s.next g s'.next g' := by
  obtain ⟨tree, t₁, htree, h⟩ := h.bind
  obtain ⟨g₁, hedges, h⟩ := h.lift_bind
  obtain ⟨g₂, hnodes, h⟩ := h.lift_bind
  obtain ⟨e, he, h⟩ := h.lift_bind
  obtain ⟨n, hn, h⟩ := h.lift_bind
  obtain ⟨g₃, hsource, h⟩ := h.lift_bind
  obtain ⟨g₄, hopen, h⟩ := h.lift_bind
  obtain ⟨rfl, rfl, rfl⟩ := h.pure_pair
  obtain ⟨k, hk, hn⟩ := nodeAt_eq_ok hn
  have hjoin := ((fresh_reduceTree htree).edits hedges).trans (addNodes_edits hnodes _)
  have hput : Edits tree.source.next g₂ tree.source.next
    (g₂.putNode n.id (n.replaceEdge tree.final output)) :=
    (Edit.putNode _ _).edits
  refine ⟨tree, g₂.view, k, n, htree, rfl, ?_, ?_, hn, ?_,
    hjoin.trans (hput.trans ((setSource_edits hsource _).trans (setSource_edits hopen _)))⟩
  · rw [addNodes_view hnodes, addEdges_view hedges]
  · show (g₂.edge? tree.final).bind Edge.source = some k
    rw [edge_eq_ok.1 he, ← hk]
    rfl
  · rw [setSource_view hopen, setSource_view hsource]
    congr 2
    ext1
    · funext j
      exact Table.get?_insert g₂.nodes j n.id _
    · rfl
    · rfl

/-- The node of a call, whatever the width of the groups. -/
theorem Graph.makes_binaryAggregator_command (whole : Invocation) (hnodup : (c.1 ++ c.2).Nodup) :
    Makes (binaryAggregator whole c.1 c.2) c.1 c.2 fun n => n.kind = .plain ∧
      n.invocation.command = if c.2.length = 1 then "agg-" ++ whole.command else "agg2" := by
  by_cases hlen : c.2.length = 1
  · obtain ⟨ins, outs⟩ := c
    obtain ⟨output, rfl⟩ := length_eq_one_iff.1 hlen
    exact Node.makes_gather whole hnodup
  · intro t n t' hy
    rw [binaryAggregator, if_neg hlen] at hy
    obtain ⟨_, t₁, hrequire, hy⟩ := hy.bind
    obtain ⟨-, rfl⟩ := yields_require.1 hrequire
    split at hy
    · obtain ⟨_, _, hthrow, -⟩ := hy.bind
      exact (yields_throw.1 hthrow).elim
    · rw [if_neg hlen]
      exact Node.makes_gatherPair hnodup _ _ _ hy

/-- The node is one call of a binary aggregator, or drains a stream that is not needed; if every
stream comes alone, it is a call. -/
def Node.IsCall (whole : Invocation) (w : Nat) (m : Node) : Prop :=
  m.Placed ∧ m.kind = .plain ∧ (w = 1 → m.invocation.command = "agg-" ++ whole.command)

theorem Graph.makes_call (whole : Invocation) (hlen : c.2.length = w)
    (hnodup : (c.1 ++ c.2).Nodup) :
    Makes (binaryAggregator whole c.1 c.2) c.1 c.2 (Node.IsCall whole w) := by
  subst hlen
  refine (makes_binaryAggregator_command whole hnodup).mono fun n hn =>
    ⟨Node.placed_of_ne ?_ (by simp [hn.1]), hn.1, fun hw => ?_⟩
  · rw [hn.2]
    split
    · exact aggregator_ne_cat _
    · decide
  · rw [hn.2, if_pos hw]

/-- Streams that are not needed are swallowed, each by a node of its own. -/
theorem Node.yields_drains {sinks : List (Channel Int)} (hlen : extra.length = sinks.length)
    (hne : ∀ e ∈ extra, ∀ c ∈ sinks, e ≠ c.ident)
    (hy : Yields ((extra.zip sinks).mapM fun e => Node.cat [e.1] e.2.ident) t ns t') :
    Wired (fun m => m.Placed ∧ m.kind = .plain) t.nextNode ns (copies extra (sinks.map ([·.ident])))
      t'.nextNode := by
  induction extra generalizing sinks ns t with
  | nil =>
    obtain ⟨rfl, rfl⟩ := hy.pure
    exact .nil
  | cons e _ ih =>
    obtain _ | ⟨c, sinks⟩ := sinks
    · simp at hlen
    rw [zip_cons_cons, mapM_cons] at hy
    obtain ⟨n, t₁, hmake, hy⟩ := hy.bind
    obtain ⟨rest, t₂, hrest, hy⟩ := hy.bind
    obtain ⟨rfl, rfl⟩ := hy.pure
    obtain ⟨hid, hcount, hin, hout, hkind, hoperands⟩ :=
      Node.makes_cat (Node.nodup_pair (hne e mem_cons_self c mem_cons_self)) _ _ _ hmake
    have hfit : n.OperandsFit := .of_inputs (by rw [hoperands, hin]) (by rw [hin]; simp)
    refine .cons hid hin hout ⟨hfit.placed (by simp [hkind]), hkind⟩
      (hcount ▸ ih (by simpa using hlen) (fun e' he c' hc => ?_) hrest)
    exact hne e' (mem_cons_of_mem _ he) c' (mem_cons_of_mem _ hc)

/-- What was read or is open has smaller numbers than edges that are still to come. -/
theorem Chain.edges_lt (h : Chain w next groups calls next' groups')
    (hlt : ∀ i ∈ groups.flatten, i < next) : ∀ i ∈ reads calls ++ groups'.flatten, i < next' := by
  obtain ⟨k, hwrites, rfl⟩ := h.writes_eq
  intro i hi
  rcases mem_append.1 (h.perm.subset hi) with hi | hi
  · have := hlt i hi
    omega
  · rw [hwrites] at hi
    exact (mem_freshIds.1 hi).2

/-- A tree is made of the nodes of the calls, and of nodes that drain what is left of the last
group. -/
theorem yields_reduceTree {command : List Int → List Int → Build Node} {final : Int}
    (hgroups : (reducePlan s groups).groups = [final :: extra]) :
    Yields (reduceTree command groups s) t tree t' ↔ ∃ ns t₁ cats,
      Yields ((reducePlan s groups).calls.mapM fun c => command c.1 c.2) t ns t₁ ∧
      Yields ((extra.zip (drains (reducePlan s groups).source extra.length).1).mapM fun e =>
        Node.cat [e.1] e.2.ident) t₁ cats t' ∧
      tree = ⟨ns ++ cats, (reducePlan s groups).pipes ++
        (drains (reducePlan s groups).source extra.length).1, final,
        (drains (reducePlan s groups).source extra.length).2⟩ := by
  constructor
  · intro h
    obtain ⟨ns, t₁, hns, h⟩ := h.bind
    rw [hgroups] at h
    obtain ⟨cats, t₂, hcats, h⟩ := h.bind
    obtain ⟨rfl, rfl⟩ := h.pure
    exact ⟨ns, t₁, cats, hns, hcats, rfl⟩
  · rintro ⟨ns, t₁, cats, hns, hcats, rfl⟩
    refine yields_bind.2 ⟨ns, t₁, hns, ?_⟩
    rw [hgroups]
    exact yields_bind.2 ⟨cats, t', hcats, yields_pure.2 ⟨rfl, rfl⟩⟩

/-- **The wiring of a tree**, whatever the width of the groups: what is read, together with the last
open edge, is the given groups and what the calls write. -/
theorem Graph.reduceTree_wired (hne : groups ≠ []) (hwidth : ∀ ids ∈ groups, ids.length = w)
    (hnodup : groups.flatten.Nodup) (hlt : ∀ i ∈ groups.flatten, i < s.next)
    (h : Yields (reduceTree (binaryAggregator whole) groups s) t tree t') :
    ∃ (ws : List (List Int × List Int)) (calls all : Nat), 0 < w ∧ calls ≤ all ∧
      Wired (Node.IsCall whole w) t.nextNode tree.nodes ws t'.nextNode ∧
      writes ws = freshIds s.next all ∧ tree.source.next = s.next + all ∧
      (tree.final :: reads ws).Perm (groups.flatten ++ freshIds s.next calls) ∧ Causal ws ∧
      (w = 1 → ∃ next', Chain w s.next groups ws next' [[tree.final]]) := by
  obtain ⟨root, hgroups, hroot, hchain⟩ := reducePlan_chain (s := s) hne hwidth
  obtain ⟨calls, hwrites, hnext⟩ := hchain.writes_eq
  obtain _ | ⟨final, extra⟩ := root
  · obtain ⟨_, _, _, h⟩ := h.bind
    rw [hgroups] at h
    exact (yields_throw.1 h).elim
  obtain ⟨ns, t₁, cats, hns, hcats, rfl⟩ := (yields_reduceTree hgroups).1 h
  have hwired := hchain.wired_mapM hnodup hlt
    (fun c hc => makes_call whole (hchain.calls_width c hc).2) hns
  obtain ⟨hsinks, hlast⟩ := drains_spec (reducePlan s groups).source extra.length
  have hlen : (drains (reducePlan s groups).source extra.length).1.length = extra.length := by
    simpa using congrArg List.length hsinks
  have hperm := hchain.perm
  have hopen := hchain.edges_lt hlt
  rw [flatten_singleton] at hperm hopen
  have hdrains := Node.yields_drains hlen.symm (fun e he c hc heq => by
    have hmem : c.ident ∈ freshIds (reducePlan s groups).source.next extra.length :=
      hsinks ▸ mem_map_of_mem hc
    have := hopen e (mem_append_right _ (mem_cons_of_mem _ he))
    have := (mem_freshIds.1 hmem).1
    omega) hcats
  have hsingle : (drains (reducePlan s groups).source extra.length).1.map ([·.ident]) =
      (freshIds (reducePlan s groups).source.next extra.length).map ([·]) := by
    rw [← hsinks, map_map]
    rfl
  rw [hsingle] at hdrains
  have hdrained : Wired (Node.IsCall whole w) t₁.nextNode cats (copies extra
      ((freshIds (reducePlan s groups).source.next extra.length).map ([·]))) t'.nextNode := by
    -- without auxiliary streams nothing is drained
    obtain _ | ⟨e, extra⟩ := extra
    · obtain ⟨rfl, rfl⟩ := hcats.pure
      exact .nil
    · refine hdrains.imp fun m hm => ⟨hm.1, hm.2, fun hw => ?_⟩
      simp [hw] at hroot
  have hreads :=
    @reads_copies extra ((freshIds (reducePlan s groups).source.next extra.length).map ([·]))
    (by simp)
  have hwritten :=
    @writes_copies_singletons extra (freshIds (reducePlan s groups).source.next extra.length)
    (by simp)
  refine ⟨_, calls,
    calls + extra.length, by simp [← hroot], by omega, hwired.append hdrained, ?_, ?_, ?_, ?_, ?_⟩
  · rw [writes_append, hwrites, hwritten, freshIds_append, hnext]
  · show (drains (reducePlan s groups).source extra.length).2.next = _
    omega
  · rw [reads_append, hreads, ← hwrites]
    refine List.Perm.trans ?_ hperm
    exact perm_middle.symm
  · have hbehind : ∀ i ∈ reads (reducePlan s groups).calls ++ final :: extra,
        ∀ j ∈ freshIds (reducePlan s groups).source.next extra.length, i < j := fun i hi j hj =>
      Int.lt_of_lt_of_le (hopen i hi) (mem_freshIds.1 hj).1
    refine (hchain.causal hlt).append (.of_lt fun i hi j hj => ?_) fun i hi j hj => ?_
    · rw [hreads] at hi
      exact hbehind i (mem_append_right _ (mem_cons_of_mem _ hi)) j (hwritten ▸ hj)
    · exact hbehind i (mem_append_left _ hi) j (hwritten ▸ hj)
  · intro hw
    obtain rfl : extra = [] := by simpa [hw] using hroot
    exact ⟨_, by simpa [copies] using hchain⟩

end ShellFlow
