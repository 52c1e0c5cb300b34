import ShellFlow.Graph.Parallel
import ShellFlow.Proofs.Graph.Edits
import ShellFlow.Proofs.Graph.Reduction

/-!
# The steps of a division

The pipes of a reduction tree are numbered in a row.  A division takes a node out, and opens its
input, puts copies in, and finishes with what puts the copies together.
-/

namespace ShellFlow.Graph

variable {g g' : Graph} {s s' s'' : ChannelSource} {t t' : Supply} {p : Parallelizer}
  {fanOut : Nat} {k : Int}
  {batch : Option Int} {cs : List (Channel Int)} {groups : List (List Int)}

/-! ### Channels in a row -/

/-- Channels in a row, from the next number of `s` to that of `s'`. -/
structure Fresh (s : ChannelSource) (cs : List (Channel Int)) (s' : ChannelSource) : Prop where
  idents : cs.map (·.ident) = freshIds s.next cs.length
  next : s'.next = s.next + cs.length
  inner : ∀ c ∈ cs, c.Inner

theorem Fresh.nil (s : ChannelSource) : Fresh s [] s := ⟨rfl, by simp, by simp⟩

theorem Fresh.append {cs' : List (Channel Int)} (h : Fresh s cs s') (h' : Fresh s' cs' s'') :
    Fresh s (cs ++ cs') s'' := by
  constructor
  · rw [List.map_append, h.idents, h'.idents, h.next, List.length_append, freshIds_append]
  · rw [h'.next, h.next, List.length_append]
    omega
  · intro c hc
    exact (List.mem_append.1 hc).elim (h.inner c) (h'.inner c)

theorem Fresh.edits (h : Fresh s cs s') (hadd : g.addEdges cs = .ok g') :
    Edits s.next g s'.next g' := by
  rw [h.next]
  exact addEdges_edits h.idents h.inner hadd

theorem fresh_freshPipes (s : ChannelSource) (k : Nat) :
    Fresh s (s.freshPipes k).1 (s.freshPipes k).2 := by
  obtain ⟨hids, hnext⟩ := freshPipes_spec s k
  have hlen := length_freshPipes s k
  exact ⟨by rw [hids, hlen], by rw [hnext, hlen], inner_freshPipes s k⟩

theorem fresh_pairUp (s : ChannelSource) (shape groups : List (List Int)) :
    Fresh s (pairUp s shape groups).pipes (pairUp s shape groups).source := by
  fun_induction pairUp s shape groups with
  | case1 s _ _ _ _ _ _ _ ih => exact (fresh_freshPipes s _).append ih
  | case2 => exact .nil _

theorem fresh_reduceLevel (s : ChannelSource) (groups : List (List Int)) :
    Fresh s (reduceLevel s groups).pipes (reduceLevel s groups).source := by
  unfold reduceLevel
  split <;> exact fresh_pairUp _ _ _

/-- The pipes of a tree are in a row. -/
theorem fresh_reducePlan (s : ChannelSource) (groups : List (List Int)) :
    Fresh s (reducePlan s groups).pipes (reducePlan s groups).source := by
  fun_induction reducePlan s groups with
  | case1 s => exact .nil s
  | case2 s groups _ _ _ _ ih => exact (fresh_reduceLevel s groups).append ih

theorem fresh_drains (s : ChannelSource) (k : Nat) : Fresh s (drains s k).1 (drains s k).2 := by
  obtain ⟨hids, hnext⟩ := drains_spec s k
  have hlen : (drains s k).1.length = k := by simpa using congrArg List.length hids
  refine ⟨by rw [hids, hlen], by rw [hnext, hlen], ?_⟩
  clear hids hnext hlen
  induction k generalizing s with
  | zero => simp [drains]
  | succ k ih =>
    intro c hc
    rcases List.mem_cons.1 hc with rfl | hc
    · exact ⟨_, rfl, rfl⟩
    · exact ih _ c hc

theorem fresh_reduceTree {command : List Int → List Int → Build Node} {tree : Reduction}
    (h : Yields (reduceTree command groups s) t tree t') : Fresh s tree.pipes tree.source := by
  obtain ⟨nodes, t₁, -, h⟩ := h.bind
  split at h
  · next final extra rest hgroups =>
    obtain ⟨cats, t₂, -, h⟩ := h.bind
    obtain ⟨rfl, -⟩ := h.pure
    exact (fresh_reducePlan s groups).append (fresh_drains _ _)
  · exact (yields_throw.1 h).elim

/-! ### Divisions -/

/-- Whether a node ends a division of the kind that is asked for. -/
def endsKind (p : Parallelizer) : Node → Bool :=
    if p.splitter = .consecutive then isConcatenation else isMerge

def splitNode (p : Parallelizer) (batch : Option Int) (i : Int) (os : List Int) : Build Node :=
  match p.splitter with
  | .roundRobin => Node.roundSplit i os batch false
  | .roundRobinRaw => Node.roundSplit i os batch true
  | _ => Node.split i os

/-- What is put in front of the copies.  Without a node in front that was taken out, too, the input
is split; otherwise the operands of that node are read, or first rid of their tags. -/
inductive Opens (p : Parallelizer) (fanOut : Nat) (batch : Option Int) (x : Int) (g : Graph)
    (s : ChannelSource) (t : Supply) : Option (List Operand) → Graph → List Operand →
    ChannelSource → Supply → Prop
  | split {g' : Graph} {ids : List Int} {s' : ChannelSource} {t' : Supply}
      (h : Yields (g.introduceSplitter (splitNode p batch) fanOut s x) t (g', ids, s') t') :
      Opens p fanOut batch x g s t none g' (ids.map .edge) s' t'
  | kept (operands : List Operand) (hsplitter : p.splitter ≠ .roundRobinRaw) :
      Opens p fanOut batch x g s t (some operands) g operands s t
  | untagged {operands : List Operand} {g' : Graph} {ids : List Int} {s' : ChannelSource}
      {t' : Supply} (hsplitter : p.splitter = .roundRobinRaw)
      (h : Yields (g.introduceUnwraps s operands) t (g', ids, s') t') :
      Opens p fanOut batch x g s t (some operands) g' (ids.map .edge) s' t'

/-- What is put behind the copies. -/
inductive Finishes (p : Parallelizer) (whole : Invocation) (o : Int) (groups : List (List Int))
    (g : Graph) (s : ChannelSource) (t : Supply) : Graph → ChannelSource → Supply → Prop
  | missing (hsplitter : p.splitter = .roundRobin) (hagg : p.aggregator ≠ .concatenate) :
      Finishes p whole o groups g s t g s t
  | merge {ids : List Int} {m : Node} {g' : Graph} {t' : Supply}
      (hsplitter : p.splitter = .roundRobin) (hagg : p.aggregator = .concatenate)
      (hfirsts : firsts groups = .ok ids) (hmake : Yields (Node.merge ids o) t m t')
      (hadd : g.introduceAggregator m ids o = .ok g') : Finishes p whole o groups g s t g' s t'
  | gather {g' : Graph} {s' : ChannelSource} {t' : Supply} (hsplitter : p.splitter ≠ .roundRobin)
      (h : Yields (g.introduceGathering p whole groups o s) t (g', s') t') :
      Finishes p whole o groups g s t g' s' t'

/-- The steps of the division of a node. -/
inductive Divides (g : Graph) (k : Int) (p : Parallelizer) (fanOut : Nat) (batch : Option Int)
    (s : ChannelSource) (t : Supply) (g' : Graph) (s' : ChannelSource) (t' : Supply) : Prop
  | steps {n : Node} {x o : Int} {g₁ g₂ g₃ : Graph} {fused : Option (List Operand)}
      {ins : List Operand} {groups : List (List Int)} {s₂ s₃ : ChannelSource} {t₂ t₃ : Supply}
      (hn : g.node k = .ok n) (hstreams : n.singleStreams = .ok (x, o))
      (hremove : g.removeFused k (endsKind p) = .ok (g₁, fused))
      (hopens : Opens p fanOut batch x g₁ s t fused g₂ ins s₂ t₂)
      (hmappers : Yields (g₂.introduceMappers p n.invocation fanOut s₂ ins) t₂ (g₃, groups, s₃) t₃)
      (hfinishes : Finishes p n.invocation o groups g₃ s₃ t₃ g' s' t') :
      Divides g k p fanOut batch s t g' s' t'

/-- A division that keeps tags, or makes consecutive pieces. -/
theorem divides_of_pieces {fusible : Node → Bool} {splitter : Int → List Int → Build Node}
    (hsplitter : p.splitter ≠ .roundRobinRaw) (hfusible : fusible = endsKind p)
    (hnode : splitter = splitNode p batch)
    (finish : Node → Int → Graph → List (List Int) → ChannelSource → Build (Graph × ChannelSource))
    (hfinish : ∀ n o g₃ groups s₃ t₃, Yields (finish n o g₃ groups s₃) t₃ (g', s') t' →
      Finishes p n.invocation o groups g₃ s₃ t₃ g' s' t')
    (h : Yields (do
      let n ← Build.lift (g.node k)
      let (input, output) ← Build.lift n.singleStreams
      let (g, fused) ← Build.lift (g.removeFused k fusible)
      let (g, ins, s) ← match fused with
        | some operands => pure (g, operands, s)
        | none => do
          let (g, ids, s) ← g.introduceSplitter splitter fanOut s input
          pure (g, ids.map Operand.edge, s)
      let (g, groups, s) ← g.introduceMappers p n.invocation fanOut s ins
      finish n output g groups s) t (g', s') t') : g.Divides k p fanOut batch s t g' s' t' := by
  subst hfusible hnode
  obtain ⟨n, hn, h⟩ := h.lift_bind
  obtain ⟨⟨x, o⟩, hstreams, h⟩ := h.lift_bind
  obtain ⟨⟨g₁, fused⟩, hremove, h⟩ := h.lift_bind
  cases fused with
  | none =>
    obtain ⟨⟨g₂, ids, s₂⟩, t₂, hsplit, h⟩ := h.bind
    obtain ⟨_, _, hpieces, h⟩ := h.bind
    obtain ⟨rfl, rfl⟩ := hpieces.pure
    obtain ⟨⟨g₃, groups, s₃⟩, t₃, hmappers, h⟩ := h.bind
    exact .steps hn hstreams hremove (.split hsplit) hmappers (hfinish _ _ _ _ _ _ h)
  | some operands =>
    obtain ⟨_, _, hpieces, h⟩ := h.bind
    obtain ⟨rfl, rfl⟩ := hpieces.pure
    obtain ⟨⟨g₃, groups, s₃⟩, t₃, hmappers, h⟩ := h.bind
    exact .steps hn hstreams hremove (.kept operands hsplitter) hmappers (hfinish _ _ _ _ _ _ h)

theorem divides_of_roundRobin (hsplitter : p.splitter = .roundRobin)
    (h : Yields (g.divideRoundRobin k p s fanOut batch) t (g', s') t') :
    g.Divides k p fanOut batch s t g' s' t' := by
  have hends : isMerge = endsKind p := by simp [endsKind, hsplitter]
  have hnode : (fun i os => Node.roundSplit i os batch false) = splitNode p batch := by
    funext i os
    simp [splitNode, hsplitter]
  unfold divideRoundRobin at h
  cases hagg : p.aggregator with
  | concatenate =>
    rw [hagg] at h
    refine divides_of_pieces (by simp [hsplitter]) hends hnode (fun _ o g groups s => do
      let ids ← Build.lift (firsts groups)
      let m ← Node.merge ids o
      let g ← Build.lift (g.introduceAggregator m ids o)
      return (g, s)) (fun n o g₃ groups s₃ t₃ h => ?_) h
    obtain ⟨ids, hfirsts, h⟩ := h.lift_bind
    obtain ⟨m, t₂, hmake, h⟩ := h.bind
    obtain ⟨g₂, hadd, h⟩ := h.lift_bind
    obtain ⟨rfl, rfl, rfl⟩ := h.pure_pair
    exact .merge hsplitter hagg hfirsts hmake hadd
  | adjacentMerge | adjacentSequence | adjacentFunction =>
    rw [hagg] at h
    obtain ⟨_, _, hthrow, -⟩ := h.bind
    exact (yields_throw.1 hthrow).elim
  | nary | binary | other =>
    rw [hagg] at h
    refine divides_of_pieces (by simp [hsplitter]) hends hnode (fun _ o g groups s => do
      let _ ← Build.lift (firsts groups)
      return (g, s)) (fun n o g₃ groups s₃ t₃ h => ?_) h
    obtain ⟨ids, -, h⟩ := h.lift_bind
    obtain ⟨rfl, rfl, rfl⟩ := h.pure_pair
    exact .missing hsplitter (by simp [hagg])

theorem divides_of_raw (hsplitter : p.splitter = .roundRobinRaw)
    (h : Yields (g.divideRaw k p s fanOut batch) t (g', s') t') :
    g.Divides k p fanOut batch s t g' s' t' := by
  have hends : isMerge = endsKind p := by simp [endsKind, hsplitter]
  have hnode : (fun i os => Node.roundSplit i os batch true) = splitNode p batch := by
    funext i os
    simp [splitNode, hsplitter]
  rw [divideRaw, hends, hnode] at h
  obtain ⟨n, hn, h⟩ := h.lift_bind
  obtain ⟨⟨x, o⟩, hstreams, h⟩ := h.lift_bind
  obtain ⟨⟨g₁, fused⟩, hremove, h⟩ := h.lift_bind
  have hgather : p.splitter ≠ .roundRobin := by simp [hsplitter]
  cases fused with
  | none =>
    obtain ⟨⟨g₂, ids, s₂⟩, t₂, hfront, h⟩ := h.bind
    obtain ⟨⟨g₃, groups, s₃⟩, t₃, hmappers, h⟩ := h.bind
    exact .steps hn hstreams hremove (.split hfront) hmappers (.gather hgather h)
  | some =>
    obtain ⟨⟨g₂, ids, s₂⟩, t₂, hfront, h⟩ := h.bind
    obtain ⟨⟨g₃, groups, s₃⟩, t₃, hmappers, h⟩ := h.bind
    exact .steps hn hstreams hremove (.untagged hsplitter hfront) hmappers (.gather hgather h)

/-- **What a division does, step by step.** -/
theorem divides_of_parallelize (h : Yields (g.parallelize k p s fanOut batch) t (g', s') t') :
    g.Divides k p fanOut batch s t g' s' t' := by
  unfold parallelize at h
  split at h
  · next hsplitter => exact divides_of_roundRobin hsplitter h
  · next hsplitter => exact divides_of_raw hsplitter h
  · next hsplitter =>
    refine divides_of_pieces (by simp [hsplitter]) (by simp [endsKind, hsplitter]) ?_
      (fun n o g groups s => g.introduceGathering p n.invocation groups o s)
      (fun _ _ _ _ _ _ h => .gather (by simp [hsplitter]) h) h
    funext i os
    simp [splitNode, hsplitter]
  · exact (yields_throw.1 h).elim

end ShellFlow.Graph
