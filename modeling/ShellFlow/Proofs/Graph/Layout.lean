import ShellFlow.Proofs.Graph.Trees

/-!
# The layout of a division

However a node is divided, the division has one shape: the node is taken out, alone or with the node
in front of it; something is put in front of the copies; the copies are put in; and something is put
in behind them.  The layout of a division lists what each of these parts reads and writes.  All that
is said about a graph with a node divided, and not about its streams, follows from the layout.
-/

namespace ShellFlow.Graph

open List

variable {g g' : Graph} {s s' : ChannelSource} {t t' : Supply} {n : Node} {p : Parallelizer}
  {fanOut : Nat} {x : Int}
  {fusible : Node → Bool} {groups : List (List Int)} {g₁ g₂ : Graph} {ids outs : List Int}
    {ins : List Operand}
  {next : Int} {splitter : Int → List Int → Build Node} {s₂ : ChannelSource} {t₂ : Supply} {w : Nat}

/-! ### The node in front -/

theorem onlyPrevious_cases {prev : Option Node} (hn : g.node? n.id = some n) (hin : n.inputs = [x])
    (h : g.onlyPrevious n.id = .ok prev) :
    prev = none ∧ g.view.source x = none ∨ ∃ m k, prev = some m ∧ g.view.source x = some k ∧
    g.node? k = some m := by
  obtain ⟨before, hbefore, h⟩ := bind_eq_ok.1 h
  obtain ⟨n', hn', rfl⟩ := previousNodes_eq_ok hbefore
  obtain rfl := Option.mem_unique hn hn'
  rw [hin, filterMap_cons, filterMap_nil] at h
  cases hsource : g.view.source x with
  | none =>
    rw [hsource] at h
    exact .inl ⟨(pure_eq_ok.1 h).symm, rfl⟩
  | some k =>
    rw [hsource] at h
    obtain ⟨m, hm, h⟩ := bind_eq_ok.1 h
    exact .inr ⟨m, k, (pure_eq_ok.1 h).symm, rfl, node_eq_ok.1 hm⟩

theorem removeFused_cases {fused : Option (List Operand)} {count : Int}
    (hv : g.view.Sound count next) (hn : g.node? n.id = some n) (hin : n.inputs = [x])
    (h : g.removeFused n.id fusible = .ok (g', fused)) :
    Edits next g next g' ∧ ((fused = none ∧ g'.view = g.view.remove n ∧
      ∀ m, g.view.source x = some m.id → g.node? m.id = some m → fusible m = false) ∨
    ∃ m, g.node? m.id = some m ∧ m.id ≠ n.id ∧ x ∈ m.outputs ∧ fusible m ∧
      fused = some m.invocation.operands ∧ g'.view = (g.view.remove n).remove m) := by
  obtain ⟨prev, hprev, h⟩ := bind_eq_ok.1 h
  obtain ⟨g₁, hremove, h⟩ := bind_eq_ok.1 h
  obtain ⟨n', hn', hview⟩ := removeNode_view hremove
  obtain rfl := Option.mem_unique hn hn'
  replace hview := hview rfl
  have hedits := removeNode_edits hremove next
  obtain ⟨rfl, hnone⟩ | ⟨m, k, rfl, hsource, hm⟩ := onlyPrevious_cases hn hin hprev
  · cases h
    refine ⟨hedits, .inl ⟨rfl, hview, fun m hm => ?_⟩⟩
    rw [hnone] at hm
    cases hm
  · obtain rfl : m.id = k := hv.id_eq hm
    dsimp only at h
    split at h
    · next hfusible =>
      obtain ⟨g₂, hremove', h⟩ := bind_eq_ok.1 h
      cases h
      -- the node in front is looked up again behind the first removal, so it is not the node itself
      obtain ⟨m', hm', hview'⟩ := removeNode_view hremove'
      have hnode : (g.view.remove n).node m.id = some m' := hview ▸ hm'
      have hne : m.id ≠ n.id := by
        intro heq
        simp [View.remove, heq] at hnode
      rw [View.remove_node_of_ne _ hne] at hnode
      obtain rfl := Option.mem_unique hm hnode
      obtain ⟨m', hm', hwrites⟩ := (hv.source x m.id).1 hsource
      obtain rfl := Option.mem_unique hm hm'
      exact ⟨hedits.trans (removeNode_edits hremove' next),
        .inr ⟨m, hm, hne, hwrites, hfusible, rfl, hview ▸ hview' rfl⟩⟩
    · next hfusible =>
      cases h
      refine ⟨hedits, .inl ⟨rfl, hview, fun m' hm' hnode => ?_⟩⟩
      have hid : m'.id = m.id := Option.mem_unique hm' hsource
      obtain rfl := Option.mem_unique hnode (hid ▸ hm)
      simpa using hfusible

theorem singleStreams_eq_ok {o : Int} (h : n.singleStreams = .ok (x, o)) :
    n.inputs = [x] ∧ n.outputs = [o] := by
  unfold Node.singleStreams at h
  split at h
  · next hstream hconfig hout =>
    cases h
    exact ⟨by rw [Node.inputs, Invocation.inputs, hstream, hconfig]; rfl, hout⟩
  · cases h

theorem firsts_singletons (h : firsts (outs.map ([·])) = .ok ids) : ids = outs := by
  have hmap := @Except.mapM_eq_map _ _ _ _ (fun ids : List Int => ids.headD 0)
    (fun group id hid => by
    obtain _ | ⟨first, rest⟩ := group
    · cases hid
    · exact (Except.ok.inj hid).symm) _ _ h
  simpa [Function.comp_def] using hmap

/-! ### In front of the copies and behind them -/

/-- A node splits as a division asks for. -/
def Splits (p : Parallelizer) (m : Node) : Prop :=
  match p.splitter with
  | .roundRobin => m.kind = .roundSplit ∧ m.invocation.flags.isEmpty
  | .roundRobinRaw => m.kind = .roundSplit ∧ m.invocation.flags.isEmpty = false
  | _ => m.kind = .split

/-- The node stands in front of the copies: it splits the input, or drops tags if the node in front
was taken out. -/
def IsFront (p : Parallelizer) (fused : Option Node) (m : Node) : Prop :=
  m.invocation.command ≠ "cat" ∧ if fused = none then Splits p m else m.kind = .unwrap

theorem IsFront.kind_ne {fused : Option Node} {m : Node} (h : IsFront p fused m) :
    m.kind ≠ .merge := by
  obtain ⟨-, h⟩ := h
  unfold Splits at h
  split at h
  · split at h <;> simp [h]
  · simp [h]

/-- The node helps to put the copies together. -/
def IsBack (p : Parallelizer) (whole : Invocation) (m : Node) : Prop :=
  if p.splitter = .roundRobin then
    m.kind = .merge ∧ m.invocation.command ≠ "cat" ∧ m.invocation.operands = m.inputs.map .edge
  else m.kind = .plain ∧ (p.extra = 0 → m.invocation.command = "agg-" ++ whole.command)

/-- What is put in front of the copies, and what the copies are then put behind.  Without a node in
front that is taken out, too, the input is split; otherwise the operands of that node are read, or
first rid of their tags. -/
inductive Front (p : Parallelizer) (x next : Int) (fanOut : Nat) :
    Option (List Operand) → List (List Int × List Int) → List Operand → Int → Prop
  | split : Front p x next fanOut none [([x], freshIds next fanOut)]
      ((freshIds next fanOut).map .edge) (next + fanOut)
  | kept (operands : List Operand) : p.splitter ≠ .roundRobinRaw →
      Front p x next fanOut (some operands) [] operands next
  | untagged {operands : List Operand} {us : List Int} : p.splitter = .roundRobinRaw →
      operands.map Operand.edge? = us.map some →
      Front p x next fanOut (some operands) (copies us ((freshIds next operands.length).map ([·])))
        ((freshIds next operands.length).map .edge) (next + operands.length)

theorem Front.next_le {next' : Int} {operands : Option (List Operand)}
    {ws : List (List Int × List Int)} (h : Front p x next fanOut operands ws ins next') :
    next ≤ next' := by
  cases h with
  | split => omega
  | kept => exact Int.le_refl _
  | untagged => omega

/-- What is put behind the copies, and the open edge of a tree. -/
inductive Back (o next : Int) (p : Parallelizer) (groups : List (List Int)) :
    List (List Int × List Int) → Option Int → Int → Prop
  | missing : p.splitter = .roundRobin → p.aggregator ≠ .concatenate →
      Back o next p groups [] none next
  | one {ids : List Int} : (p.splitter = .roundRobin → p.aggregator = .concatenate) →
      p.aggregator ≠ .binary → firsts groups = .ok ids → Back o next p groups [(ids, [o])] none next
  | tree {ws : List (List Int × List Int)} {final : Int} {calls all : Nat} :
      p.splitter ≠ .roundRobin → (∀ ids ∈ groups, ids ≠ []) → calls ≤ all →
      writes ws = freshIds next all →
      (final :: reads ws).Perm (groups.flatten ++ freshIds next calls) →
      Causal ws → p.aggregator = .binary →
      (p.extra = 0 → ∃ next next' : Int, Chain 1 next groups ws next' [[final]]) →
      Back o next p groups ws (some final) (next + all)

/-- The writer of the open edge of a tree, if there is one, writes another edge instead. -/
def Redirected (o : Int) (v v' : View) : Option Int → Prop
  | none => v' = v
  | some final => ∃ k m, v.source final = some k ∧ v.node k = some m ∧
      v' = (({ v with
        node := fun j => if j = m.id then some (m.replaceEdge final o) else v.node j } :
          View).setSource o (some m.id)).setSource final none

/-- The parts of a division. -/
structure Layout where
  input : Int
  output : Int
  /-- The node in front, if it was taken out, too. -/
  fused : Option Node
  front : List (List Int × List Int)
  /-- The edges that copies read. -/
  pieces : List Int
  /-- What the copies write, if there are enough of them. -/
  groups : List (List Int)
  back : List (List Int × List Int)
  /-- The open edge of a tree. -/
  final : Option Int

/-- The node `m` in front of the node `n` ends a division of the kind that is asked for, and is
taken out with it. -/
def Fuses (g : Graph) (n : Node) (p : Parallelizer) (m : Node) : Prop :=
  (∃ i ∈ n.inputs, g.view.source i = some m.id) ∧ g.node? m.id = some m ∧
    if p.splitter = .consecutive then m.invocation.command = "cat" else m.kind = .merge

namespace Layout

/-- What is put in reads and writes these edges. -/
def wires (L : Layout) : List (List Int × List Int) := L.front ++ copies L.pieces L.groups ++ L.back

/-- The view without the nodes that are taken out. -/
def base (L : Layout) (v : View) (n : Node) : View := L.fused.elim (v.remove n) (v.remove n).remove

/-- The parts are put in, one behind the other. -/
def Joins (L : Layout) (n : Node) (p : Parallelizer) (v : View) (t : Supply) (v' : View)
    (t' : Supply) : Prop :=
  ∃ v₁ c₁ v₂ c₂, Lays (IsFront p L.fused) (L.base v n) t.nextNode L.front v₁ c₁ ∧
    Lays (fun m => m.Placed ∧ IsCopy p n.invocation m) v₁ c₁ (copies L.pieces L.groups) v₂ c₂ ∧
    Lays (fun m => m.Placed ∧ IsBack p n.invocation m) v₂ c₂ L.back v' t'.nextNode

/-- The layout tells how the division of the node `n` of `g` gave `g'`. -/
structure Describes (L : Layout) (n : Node) (p : Parallelizer) (fanOut : Nat) (g : Graph)
    (s : ChannelSource) (t : Supply) (g' : Graph) (s' : ChannelSource) (t' : Supply) : Prop where
  inputs : n.inputs = [L.input]
  outputs : n.outputs = [L.output]
  fused (m : Node) : L.fused = some m ↔ g.Fuses n p m
  other (m : Node) : L.fused = some m → m.id ≠ n.id
  front : ∃ ins next, Front p L.input s.next fanOut (L.fused.map (·.invocation.operands)) L.front
    ins next ∧
    (ins.take fanOut).map Operand.edge? = L.pieces.map some ∧
      L.groups = groupIds next (p.extra + 1).toNat fanOut ∧
    Back L.output (next + (fanOut * (p.extra + 1).toNat : Nat)) p L.groups L.back L.final s'.next
  joins : ∃ v, L.Joins n p g.view t v t' ∧ Redirected L.output v g'.view L.final

variable {L : Layout} {v v' : View}

theorem Joins.lays (h : L.Joins n p v t v' t') :
    Lays Node.Placed (L.base v n) t.nextNode L.wires v' t'.nextNode := by
  obtain ⟨v₁, c₁, v₂, c₂, hfront, hcopies, hback⟩ := h
  have hfront := hfront.imp fun m hm => Node.placed_of_ne hm.1 hm.kind_ne
  exact (hfront.trans (hcopies.imp fun _ hm => hm.1)).trans (hback.imp fun _ hm => hm.1)

theorem Describes.view (h : L.Describes n p fanOut g s t g' s' t') :
    ∃ v, Lays Node.Placed (L.base g.view n) t.nextNode L.wires v t'.nextNode ∧
      Redirected L.output v g'.view L.final := by
  obtain ⟨v, hjoins, hredirected⟩ := h.joins
  exact ⟨v, hjoins.lays, hredirected⟩

end Layout

theorem firsts_cons_eq_ok {group : List Int} (h : firsts (group :: groups) = .ok ids) :
    ∃ first others rest, group = first :: others ∧ firsts groups = .ok rest ∧
    ids = first :: rest := by
  obtain ⟨id, rest, hid, hrest, rfl⟩ := mapM_cons_eq_ok.1 h
  obtain _ | ⟨first, others⟩ := group
  · cases hid
  · cases hid
    exact ⟨_, others, rest, rfl, hrest, rfl⟩

theorem firsts_sublist (h : firsts groups = .ok ids) : ids.Sublist groups.flatten := by
  induction groups generalizing ids with
  | nil =>
    cases h
    exact List.Sublist.refl _
  | cons _ _ ih =>
    obtain ⟨first, others, rest, rfl, hrest, rfl⟩ := firsts_cons_eq_ok h
    exact ((ih hrest).trans (sublist_append_right others _)).cons_cons first

theorem firsts_ne_nil (hne : groups ≠ []) (h : firsts groups = .ok ids) : ids ≠ [] := by
  obtain ⟨group, rest, rfl⟩ := exists_cons_of_ne_nil hne
  obtain ⟨first, -, ids', -, -, rfl⟩ := firsts_cons_eq_ok h
  exact cons_ne_nil first ids'

theorem groupIds_ne_nil (hpos : 1 ≤ fanOut) : groupIds next w fanOut ≠ [] := by
  refine ne_nil_of_length_pos ?_
  rw [length_groupIds]
  omega

/-! ### Behind the copies -/

section Back

variable {whole : Invocation} {o : Int}

/-- What puts the copies together is put in. -/
def Closes (p : Parallelizer) (whole : Invocation) (o : Int) (groups : List (List Int)) (g : Graph)
    (s : ChannelSource) (t : Supply) (g' : Graph) (s' : ChannelSource) (t' : Supply) : Prop :=
  ∃ back final v, Back o s.next p groups back final s'.next ∧
    Lays (fun m => m.Placed ∧ IsBack p whole m) g.view t.nextNode back v t'.nextNode ∧
      Redirected o v g'.view final

/-- One node puts all copies together. -/
theorem back_one {x : Build Node} {m : Node}
    (hagg : p.splitter = .roundRobin → p.aggregator = .concatenate)
    (hbinary : p.aggregator ≠ .binary) (hfirsts : firsts groups = .ok ids)
    (hmakes : Makes x ids [o] fun m => m.Placed ∧ IsBack p whole m) (hy : Yields x t m t')
    (hadd : g.introduceAggregator m ids o = .ok g') :
    Closes p whole o groups g s t g' s t' ∧ Edits s.next g s.next g' := by
  obtain ⟨hid, hcount, hin, hout, hfit⟩ := hmakes _ _ _ hy
  subst hin
  obtain ⟨hview, hedits⟩ := introduceAggregator_view s.next hout hadd
  refine ⟨⟨[(m.inputs, [o])], none, g.view.add m, .one hagg hbinary hfirsts, ?_, hview⟩, hedits⟩
  exact ⟨[m], .single hid hcount rfl hout hfit, rfl⟩

/-- A tree of nodes puts all copies together. -/
theorem back_tree (hagg : p.splitter ≠ .roundRobin) (hbinary : p.aggregator = .binary)
    (hpos : 1 ≤ fanOut) (hextra : p.extra = 0 → w = 1) (hgroups : groups = groupIds next w fanOut)
    (hnext : s.next = next + (fanOut * w : Nat))
    (hy : Yields (g.introduceTree whole groups o s) t (g', s') t') :
    Closes p whole o groups g s t g' s' t' ∧ Edits s.next g s'.next g' := by
  obtain ⟨tree, v, k, m, htree, rfl, hv, hk, hm, hview, hedits⟩ := yields_introduceTree hy
  have hflatten : groups.flatten = freshIds next (fanOut * w) :=
    hgroups ▸ flatten_groupIds next w fanOut
  have hne : groups ≠ [] := hgroups ▸ groupIds_ne_nil hpos
  obtain ⟨ws, calls, all, hw, hle, hwired, hwrites, hsource, hperm, hcausal, hplan⟩ :=
    reduceTree_wired hne
    (hgroups ▸ width_groupIds next w fanOut) (hflatten ▸ nodup_freshIds _ _)
    (fun i hi => by
      rw [hflatten] at hi
      have := (mem_freshIds.1 hi).2
      omega) htree
  have hcalls := hwired.imp fun m hm => show m.Placed ∧ IsBack p whole m from
    ⟨hm.1, by rw [IsBack, if_neg hagg]; exact ⟨hm.2.1, fun h => hm.2.2 (hextra h)⟩⟩
  refine ⟨⟨ws, some tree.final, v, ?_, ⟨tree.nodes, hcalls, hv⟩, k, m, hk, hm, hview⟩, hedits⟩
  rw [hsource]
  refine .tree hagg (fun ids hids => ?_) hle hwrites hperm hcausal hbinary
        fun h => ⟨s.next, hextra h ▸ hplan (hextra h)⟩
  have := width_groupIds next w fanOut ids (hgroups ▸ hids)
  exact ne_nil_of_length_pos (by omega)

theorem nodup_firsts (hgroups : groups = groupIds next w fanOut) (ho : o < next)
    (hfirsts : firsts groups = .ok ids) : (ids ++ [o]).Nodup := by
  have hsub := firsts_sublist hfirsts
  rw [hgroups, flatten_groupIds] at hsub
  refine nodup_append.2 ⟨(nodup_freshIds _ _).sublist hsub, by simp, ?_⟩
  rintro i hi j hj rfl
  obtain rfl : i = o := by simpa using hj
  have := (mem_freshIds.1 (hsub.subset hi)).1
  omega

theorem introduceGathering_back (hagg : p.splitter ≠ .roundRobin) (hpos : 1 ≤ fanOut)
    (hgroups : groups = groupIds next (p.extra + 1).toNat fanOut)
    (hnext : s.next = next + (fanOut * (p.extra + 1).toNat : Nat)) (ho : o < next)
    (hy : Yields (g.introduceGathering p whole groups o s) t (g', s') t') :
    Closes p whole o groups g s t g' s' t' ∧ Edits s.next g s'.next g' := by
  have hone : ∀ {ids}, p.aggregator ≠ .binary → firsts groups = .ok ids → Yields (do
      let m ← Node.plain (Parallelizer.gather whole ids o)
      let g ← Build.lift (g.introduceAggregator m ids o)
      return (g, s)) t (g', s') t' → Closes p whole o groups g s t g' s' t' ∧
        Edits s.next g s'.next g' := by
    intro ids hbinary hfirsts hy
    obtain ⟨m, t₁, hmake, hrest⟩ := hy.bind
    obtain ⟨g₁, hadd, hret⟩ := hrest.lift_bind
    obtain ⟨rfl, rfl, rfl⟩ := hret.pure_pair
    refine back_one (fun h => absurd h hagg) hbinary hfirsts ?_ hmake hadd
    refine (Node.makes_gather whole (nodup_firsts hgroups ho hfirsts)).mono fun n hn => ⟨?_, ?_⟩
    · exact Node.placed_of_ne (hn.2 ▸ aggregator_ne_cat _) (by simp [hn.1])
    · rw [IsBack, if_neg hagg]
      exact ⟨hn.1, fun _ => hn.2⟩
  unfold introduceGathering at hy
  split at hy
  · next hextra =>
    obtain ⟨ids, hfirsts, hrest⟩ := hy.lift_bind
    have hsize : (p.extra + 1).toNat = 1 := by rw [hextra]; rfl
    split at hrest
    · next h => exact hone (by simp [h]) hfirsts hrest
    · next h => exact hone (by simp [h]) hfirsts hrest
    · next hbinary =>
      rw [hsize] at hgroups hnext
      obtain rfl : ids = freshIds next fanOut := by
        rw [hgroups, groupIds_one] at hfirsts
        exact firsts_singletons hfirsts
      rw [← groupIds_one, ← hgroups] at hrest
      exact back_tree hagg hbinary hpos (fun _ => rfl) hgroups hnext hrest
    · exact (yields_throw.1 hrest).elim
  · next hextra =>
    obtain ⟨_, t₁, hrequire, hrest⟩ := hy.bind
    obtain ⟨hbinary, rfl⟩ := yields_require.1 hrequire
    exact back_tree hagg (by simpa using hbinary) hpos (fun h => absurd h hextra) hgroups
      hnext hrest

end Back

/-! ### Divisions -/

variable {batch : Option Int} {o : Int}

/-- The edges among the operands of the node that is taken out with the node `n` are not fresh. -/
def OperandsBelow (g : Graph) (n : Node) (p : Parallelizer) (next : Int) : Prop :=
  ∀ m, g.Fuses n p m → ∀ i ∈ m.invocation.operands.filterMap Operand.edge?, i < next

theorem endsKind_iff (m : Node) : endsKind p m ↔
    if p.splitter = .consecutive then m.invocation.command = "cat" else m.kind = .merge := by
  unfold endsKind
  split <;> simp [isMerge, isConcatenation, Invocation.isConcatenation]

/-- What is taken out, and what is known of it. -/
theorem removeFused_layout {fused : Option (List Operand)} (hv : g.view.Sound t.nextNode s.next)
    (hn : g.node? n.id = some n) (hin : n.inputs = [x])
    (h : g.removeFused n.id (endsKind p) = .ok (g₁, fused)) :
    ∃ m : Option Node, fused = m.map (·.invocation.operands) ∧
      g₁.view = m.elim (g.view.remove n) (g.view.remove n).remove ∧
      (∀ m', m = some m' ↔ g.Fuses n p m') ∧ (∀ m', m = some m' → m'.id ≠ n.id) ∧
      Edits s.next g s.next g₁ := by
  have hfuses : ∀ m, g.Fuses n p m ↔ g.view.source x = some m.id ∧ g.node? m.id = some m ∧
      endsKind p m = true := by
    intro m
    simp only [Fuses, hin, mem_singleton, exists_eq_left, endsKind_iff]
  obtain ⟨hedits, ⟨rfl, hview, hnot⟩ | ⟨m, hm, hne, hx, hends, rfl, hview⟩⟩ :=
    removeFused_cases hv hn hin h
  · refine ⟨none, rfl, hview, fun m' => ?_, fun m' hm' => (by cases hm'), hedits⟩
    rw [hfuses]
    constructor
    · intro hm'
      cases hm'
    · rintro ⟨hsource, hm', hends⟩
      rw [hnot m' hsource hm'] at hends
      cases hends
  · have hsource : g.view.source x = some m.id := (hv.source x m.id).2 ⟨m, hm, hx⟩
    refine ⟨some m, rfl, hview, fun m' => ?_, fun m' hm' => Option.some.inj hm' ▸ hne, hedits⟩
    rw [hfuses]
    constructor
    · rintro ⟨⟩
      exact ⟨hsource, hm, hends⟩
    · rintro ⟨hsource', hm', -⟩
      have hid : m.id = m'.id := Option.mem_unique hsource hsource'
      rw [← hid, hm] at hm'
      exact hm'

theorem Fuses.ends_division {m : Node} (h : g.Fuses n p m) :
    m.invocation.command = "cat" ∨ m.kind = .merge := by
  obtain ⟨-, -, hends⟩ := h
  split at hends
  · exact .inl hends
  · exact .inr hends

theorem makes_splitNode (h : (outs ++ [x]).Nodup) :
    Makes (splitNode p batch x outs) [x] outs (IsFront p none) := by
  have hround : ∀ raw, Makes (Node.roundSplit x outs batch raw) [x] outs fun m =>
      m.invocation.command ≠ "cat" ∧
      m.kind = .roundSplit ∧ m.invocation.flags.isEmpty = !raw := fun raw =>
    (Node.makes_roundSplit h batch raw).mono fun m hm =>
      ⟨hm.2.1 ▸ Settings.program_ne_cat (by decide), hm.1, hm.2.2⟩
  have hsplit := (Node.makes_split h).mono fun m hm =>
    show m.invocation.command ≠ "cat" ∧
      m.kind = .split from ⟨hm.2 ▸ Settings.program_ne_cat (by decide), hm.1⟩
  unfold splitNode IsFront Splits
  cases p.splitter with
  | roundRobin => exact hround false
  | roundRobinRaw => exact hround true
  | consecutive | other => exact hsplit

theorem nodup_freshIds_append (hx : x < s.next) : (freshIds s.next fanOut ++ [x]).Nodup := by
  refine nodup_append.2 ⟨nodup_freshIds _ _, by simp, ?_⟩
  rintro i hi j hj rfl
  obtain rfl : i = x := by simpa using hj
  have := (mem_freshIds.1 hi).1
  omega

/-- The front that is put in, and the edges that the copies are put behind. -/
theorem Opens.exists_front {m : Option Node} (hx : x < s.next)
    (hops : ∀ m', m = some m' → ∀ i ∈ m'.invocation.operands.filterMap Operand.edge?, i < s.next)
    (h : Opens p fanOut batch x g s t (m.map (·.invocation.operands)) g' ins s' t') :
    ∃ front, Front p x s.next fanOut (m.map (·.invocation.operands)) front ins s'.next ∧
      Lays (IsFront p m) g.view t.nextNode front g'.view t'.nextNode ∧
      (∀ i ∈ ins.filterMap Operand.edge?, i < s'.next) ∧ Edits s.next g s'.next g' := by
  have hlt : ∀ {k : Nat}, s'.next = s.next + k →
      ∀ i ∈ ((freshIds s.next k).map Operand.edge).filterMap Operand.edge?, i < s'.next := by
    intro k hnext i hi
    rw [filterMap_edge] at hi
    have := (mem_freshIds.1 hi).2
    omega
  cases m with
  | none =>
    cases h with
    | split hsplit =>
      obtain ⟨rfl, hnext, hedits, m, hwired, hview⟩ :=
        introduceSplitter_wired (makes_splitNode (nodup_freshIds_append hx)) hsplit
      exact ⟨_, hnext ▸ .split, ⟨[m], hwired, hview⟩, hlt hnext, hedits⟩
  | some m =>
    cases h with
    | kept _ hsplitter => exact ⟨[], .kept _ hsplitter, .nil, hops m rfl, .refl _ _⟩
    | untagged hsplitter hunwraps =>
      obtain ⟨rfl, hnext, hedits, us, ns, hus, hwired, hview⟩ :=
        introduceUnwraps_wired (hops m rfl) hunwraps
      have hunwrap := hwired.imp fun m' hm' => show IsFront p (some m) m' from
        ⟨hm'.2 ▸ Settings.program_ne_cat (by decide), hm'.1⟩
      exact ⟨_, hnext ▸ .untagged hsplitter hus, ⟨ns, hunwrap, hview⟩, hlt hnext, hedits⟩

theorem Finishes.closes {whole : Invocation} (hpos : 1 ≤ fanOut)
    (hgroups : groups = groupIds next (p.extra + 1).toNat fanOut)
    (hnext : s.next = next + (fanOut * (p.extra + 1).toNat : Nat)) (ho : o < next)
    (h : Finishes p whole o groups g s t g' s' t') :
    Closes p whole o groups g s t g' s' t' ∧ Edits s.next g s'.next g' := by
  cases h with
  | missing hsplitter hagg =>
    exact ⟨⟨[], none, g.view, .missing hsplitter hagg, .nil, rfl⟩, .refl _ _⟩
  | gather hsplitter hy => exact introduceGathering_back hsplitter hpos hgroups hnext ho hy
  | merge hsplitter hagg hfirsts hmake hadd =>
    have hnodup := nodup_firsts hgroups ho hfirsts
    refine back_one (fun _ => hagg) (by simp [hagg]) hfirsts (fun t n t' hy => ?_) hmake hadd
    obtain ⟨hid, hcount, hin, hout, hkind, hcommand, hoperands⟩ := Node.makes_merge hnodup _ _ _ hy
    have hedges : n.invocation.operands = n.inputs.map .edge := by rw [hoperands, hin]
    refine ⟨hid, hcount, hin, hout, ⟨.of_inputs hedges ?_, fun _ => ?_⟩, ?_⟩
    · rw [hin]
      exact (nodup_append.1 hnodup).1
    · rw [hoperands]
      simpa using firsts_ne_nil (hgroups ▸ groupIds_ne_nil hpos) hfirsts
    · rw [IsBack, if_pos hsplitter]
      exact ⟨hkind, hcommand ▸ Settings.program_ne_cat (by decide), hedges⟩

/-- **Every division has a layout**, and is made of edits. -/
theorem parallelize_layout (hv : g.view.Sound t.nextNode s.next) (hops : g.OperandsBelow n p s.next)
    (hn : g.node? n.id = some n) (hpos : 1 ≤ fanOut)
    (hy : Yields (g.parallelize n.id p s fanOut batch) t (g', s') t') :
    ∃ L : Layout, L.Describes n p fanOut g s t g' s' t' ∧ Edits s.next g s'.next g' := by
  obtain @⟨n', x, o, g₁, g₂, g₃, fused, ins, groups, s₂, s₃, t₂, t₃, hn', hstreams, hremove,
    hopens, hmappers,
    hfinishes⟩ := divides_of_parallelize hy
  obtain rfl := Option.mem_unique hn (node_eq_ok.1 hn')
  obtain ⟨hin, hout⟩ := singleStreams_eq_ok hstreams
  obtain ⟨m, rfl, hbase, hfused, hother, hremoved⟩ := removeFused_layout hv hn hin hremove
  have ho : o < s.next := hv.outputs_lt hn o (by simp [hout])
  obtain ⟨front, hfront, hlays, hlt, hopened⟩ :=
    hopens.exists_front (hv.inputs_lt hn x (by simp [hin]))
    fun m' hm' => hops m' ((hfused m').1 hm')
  obtain ⟨hgroups, hnext, hcopied, us, ns, hus, hwired, hview⟩ :=
    introduceMappers_wired hlt hmappers
  obtain ⟨⟨back, final, v, hback, hlays', hredirected⟩, hclosed⟩ :=
    hfinishes.closes hpos hgroups hnext (Int.lt_of_lt_of_le ho hfront.next_le)
  have hcopies := hwired.imp fun m hm => show m.Placed ∧ IsCopy p n.invocation m from
    ⟨(Node.OperandsFit.of_no_edge hm.2).placed hm.1.kind_ne, hm.1⟩
  refine ⟨⟨x, o, m, front, us, groups, back, final⟩, ⟨hin, hout, hfused, hother,
    ⟨ins, s₂.next, hfront, hus, hgroups, hnext ▸ hback⟩, v, ?_, hredirected⟩,
    hremoved.trans (hopened.trans (hcopied.trans hclosed))⟩
  refine ⟨g₂.view, t₂.nextNode, g₃.view, t₃.nextNode, ?_, ⟨ns, hcopies, hview⟩, hlays'⟩
  rwa [Layout.base, ← hbase]

end ShellFlow.Graph
