import ShellFlow.Graph.Parallel
import ShellFlow.Proofs.Graph.Edits
import ShellFlow.Proofs.Graph.Streams

/-!
# The parts of a division

Splitters, copies and nodes that drop tags join a graph one by one: each reads open edges and writes
fresh ones.  An aggregator reads all open edges and writes the edge that the divided node wrote.
-/

namespace ShellFlow

open List
open ShellFlow.Graph (freshIds mem_freshIds nodup_freshIds length_freshIds)

variable {P : Node → Prop} {i : Invocation} {ins outs : List Int} {kind : NodeKind} {m : Node}

/-! ### Making nodes -/

/-- The computation gives a node with a new number that reads and writes given edges. -/
def Makes (x : Build Node) (ins outs : List Int) (P : Node → Prop) : Prop :=
  ∀ t n t', Yields x t n t' →
    (t.nextNode : Int) ≤ n.id ∧ (t'.nextNode : Int) = n.id + 1 ∧ n.inputs = ins ∧
      n.outputs = outs ∧ P n

theorem Node.yields_make {t t' : Supply} {n : Node} (h : Yields (Node.make kind i) t n t') :
    n = { id := t.nextNode, kind := kind, invocation := i } ∧ t'.nextNode = t.nextNode + 1 := by
  obtain ⟨id, t₁, hid, hret⟩ := h.bind
  obtain ⟨rfl, rfl⟩ := hret.pure
  obtain ⟨a, t₂, hget, hrest⟩ := hid.bind
  obtain ⟨rfl, rfl⟩ := yields_get.1 hget
  obtain ⟨u, t₃, hset, hret⟩ := hrest.bind
  obtain rfl := yields_set.1 hset
  obtain ⟨rfl, rfl⟩ := hret.pure
  exact ⟨rfl, rfl⟩

theorem Makes.mono {x : Build Node} {Q : Node → Prop} (h : Makes x ins outs P)
    (hPQ : ∀ n, P n → Q n) : Makes x ins outs Q := by
  intro t n t' hy
  obtain ⟨hid, hnext, hin, hout, hP⟩ := h t n t' hy
  exact ⟨hid, hnext, hin, hout, hPQ n hP⟩

theorem Node.makes_make (h : i.inputs = ins ∧ i.outputs = outs)
    (hP : ∀ id, P { id, kind, invocation := i }) : Makes (Node.make kind i) ins outs P := by
  intro t n t' hy
  obtain ⟨rfl, hnext⟩ := Node.yields_make hy
  exact ⟨Int.le_refl _, by rw [hnext]; rfl, h.1, h.2, hP _⟩

namespace Invocation

variable {command : String} {flags : List Flag} {operands : List Operand}
  {implicitIn implicitOut : Option Int}

theorem edgesWith_ofList {ids ids' : List Int} (h : (ids ++ ids').Nodup) (a b : Access)
    (p : Access → Bool) :
      edgesWith (.ofList (ids.map (fun id => (id, a)) ++ ids'.map fun id => (id, b))) p =
      (if p a then ids else []) ++ if p b then ids' else [] := by
  have hkeys : ((ids.map (fun id => (id, a)) ++ ids'.map fun id => (id, b)).map (·.1)).Nodup := by
    simpa [Function.comp_def] using h
  have hfilter : ∀ (ids : List Int) (a : Access),
      ((ids.map fun id => (id, a)).filter fun e => p e.2).map (·.1) = if p a then ids else [] := by
    intro ids a
    cases hpa : p a <;> simp [filter_map, Function.comp_def, hpa]
  rw [edgesWith, Table.entries_ofList hkeys, filter_append, map_append, hfilter, hfilter]

/-- Some edges are read and others are written. -/
theorem ofAccess_gathering {ins outs : List Int} (h : (ins ++ outs).Nodup) :
    let i := ofAccess command flags operands implicitIn implicitOut
      (.ofList (ins.map (fun id => (id, .streamInput)) ++ outs.map fun id => (id, .streamOutput)))
    i.inputs = ins ∧ i.outputs = outs := by
  simp [inputs, ofAccess, edgesWith_ofList h]

/-- Some edges are read and others, which are listed first, are written. -/
theorem ofAccess_splitting (h : (outs ++ ins).Nodup) :
    let i := ofAccess command flags operands implicitIn implicitOut
      (.ofList (outs.map (fun id => (id, .streamOutput)) ++ ins.map fun id => (id, .streamInput)))
    i.inputs = ins ∧ i.outputs = outs := by
  simp [inputs, ofAccess, edgesWith_ofList h]

end Invocation

namespace Node

variable {input output : Int} (whole : Invocation)

theorem makes_roundSplit (h : (outs ++ [input]).Nodup) (batch : Option Int) (raw : Bool) :
    Makes (roundSplit input outs batch raw) [input] outs fun n => n.kind = .roundSplit ∧
      n.invocation.command = Settings.standard.program Settings.standard.roundSplit ∧
      n.invocation.flags.isEmpty = !raw :=
  makes_make (Invocation.ofAccess_splitting h) fun _ => ⟨rfl, rfl, by cases raw <;> rfl⟩

theorem makes_split (h : (outs ++ [input]).Nodup) :
    Makes (split input outs) [input] outs fun n => n.kind = .split ∧
      n.invocation.command = Settings.standard.program Settings.standard.autoSplit :=
  makes_make (Invocation.ofAccess_splitting h) fun _ => ⟨rfl, rfl⟩

theorem makes_merge (h : (ins ++ [output]).Nodup) :
    Makes (merge ins output) ins [output] fun n => n.kind = .merge ∧
      n.invocation.command = Settings.standard.program Settings.standard.roundMerge ∧
      n.invocation.operands = ins.map .edge :=
  makes_make (Invocation.ofAccess_gathering h) fun _ => ⟨rfl, rfl, rfl⟩

theorem makes_cat (h : (ins ++ [output]).Nodup) :
    Makes (cat ins output) ins [output] fun n => n.kind = .plain ∧
    n.invocation.operands = ins.map .edge :=
  makes_make (Invocation.ofAccess_gathering h) fun _ => ⟨rfl, rfl⟩

theorem makes_gather (h : (ins ++ [output]).Nodup) :
    Makes (plain (Parallelizer.gather whole ins output)) ins [output] fun n => n.kind = .plain ∧
      n.invocation.command = "agg-" ++ whole.command :=
  makes_make (Invocation.ofAccess_gathering h) fun _ => ⟨rfl, rfl⟩

theorem makes_gatherPair (h : (ins ++ outs).Nodup) :
    Makes (plain (Parallelizer.gatherPair ins outs)) ins outs fun n => n.kind = .plain ∧
      n.invocation.command = "agg2" :=
  makes_make (Invocation.ofAccess_gathering h) fun _ => ⟨rfl, rfl⟩

theorem nodup_pair (h : input ≠ output) : ([input] ++ [output]).Nodup := by simpa using h

theorem makes_unwrap (h : input ≠ output) :
    Makes (unwrap [input] output) [input] [output] fun n => n.kind = .unwrap ∧
      n.invocation.command = Settings.standard.program Settings.standard.roundUnwrap :=
  makes_make (Invocation.ofAccess_gathering (nodup_pair h)) fun _ => ⟨rfl, rfl⟩

theorem makes_mapper {extra : List Int} (h : ([input] ++ output :: extra).Nodup) :
    Makes (plain (Parallelizer.mapper whole input output extra)) [input] (output :: extra) fun n =>
      n.kind = .plain ∧ n.invocation.command = whole.command ∧ n.invocation.operands = [] :=
  makes_make (Invocation.ofAccess_gathering h) fun _ => ⟨rfl, rfl, rfl⟩

/-- The wrapping node reads and writes what the wrapped one did, which has one output. -/
theorem yields_wrap {n inner w : Node} {channel : ChannelLookup} {t t' : Supply}
    (hnodup : ([input] ++ outs).Nodup) (hin : n.inputs = [input]) (hout : n.outputs = outs)
    (h : Yields (n.wrap channel) t (inner, w) t') :
    outs.length = 1 ∧ (t.nextNode : Int) ≤ w.id ∧ (t'.nextNode : Int) = w.id + 1 ∧
      w.inputs = [input] ∧ w.outputs = outs ∧ (∃ name, w.kind = .wrap name) ∧
      w.invocation.command = Settings.standard.program Settings.standard.roundWrap ∧
      w.invocation.operands.filterMap Operand.edge? = [] := by
  rw [Node.wrap, hin, hout] at h
  obtain _ | ⟨output, _ | ⟨_, _⟩⟩ := outs
  · exact (yields_throw.1 h).elim
  · obtain ⟨quoted, t₁, hquoted, h⟩ := h.bind
    obtain ⟨-, rfl⟩ := yields_lift.1 hquoted
    obtain ⟨node, t₂, hnode, h⟩ := h.bind
    obtain ⟨rfl, hnext⟩ := yields_make hnode
    split at h
    · obtain ⟨-, rfl, rfl⟩ := h.pure_pair
      exact ⟨rfl, Int.le_refl _, by rw [hnext]; rfl, (Invocation.ofAccess_gathering hnodup).1,
        (Invocation.ofAccess_gathering hnodup).2, ⟨_, rfl⟩, rfl, rfl⟩
    · exact (yields_throw.1 h).elim
  · exact (yields_throw.1 h).elim

end Node

/-! ### Names and operands -/

theorem Path.length_le_join (dir name : String) : name.length ≤ (Path.join dir name).length := by
  unfold Path.join
  split
  · exact Nat.le_refl _
  · split <;> simp only [String.length_append] <;> omega

/-- No helper program is taken for a concatenation. -/
theorem Settings.program_ne_cat {settings : Settings} {name : String} (h : 3 < name.length) :
    settings.program name ≠ "cat" := by
  intro heq
  have hle := Path.length_le_join settings.top name
  rw [show Path.join settings.top name = "cat" from heq] at hle
  exact absurd hle (Nat.not_le.2 h)

theorem aggregator_ne_cat (name : String) : "agg-" ++ name ≠ "cat" := by
  intro h
  have := congrArg String.toList h
  simp at this

/-- If the node may be taken for the end of a division, the edges among its operands are inputs of
it, each of them listed once. -/
def Node.OperandsFit (m : Node) : Prop :=
  m.invocation.command = "cat" ∨ m.kind = .merge →
    (m.invocation.operands.filterMap Operand.edge?).Nodup ∧
      ∀ i ∈ m.invocation.operands.filterMap Operand.edge?, i ∈ m.inputs

theorem filterMap_edge (ids : List Int) : (ids.map Operand.edge).filterMap Operand.edge? = ids := by
  rw [filterMap_map]
  exact filterMap_some

namespace Node.OperandsFit

theorem of_ne (hname : m.invocation.command ≠ "cat") (hkind : m.kind ≠ .merge) : m.OperandsFit := by
  rintro (h | h)
  · exact absurd h hname
  · exact absurd h hkind

theorem of_no_edge (h : m.invocation.operands.filterMap Operand.edge? = []) : m.OperandsFit := by
  intro _
  rw [h]
  exact ⟨nodup_nil, fun i hi => by cases hi⟩

theorem of_inputs (h : m.invocation.operands = m.inputs.map .edge) (hnodup : m.inputs.Nodup) :
    m.OperandsFit := by
  intro _
  rw [h, filterMap_edge]
  exact ⟨hnodup, fun i hi => hi⟩

end Node.OperandsFit

/-- What all nodes have that a division puts in: their operands fit, and the end of a division with
tags has some. -/
structure Node.Placed (m : Node) : Prop where
  fit : m.OperandsFit
  rejoins : m.kind = .merge → m.invocation.operands ≠ []

theorem Node.OperandsFit.placed (h : m.OperandsFit) (hkind : m.kind ≠ .merge) : m.Placed :=
  ⟨h, fun hmerge => absurd hmerge hkind⟩

theorem Node.placed_of_ne (hname : m.invocation.command ≠ "cat") (hkind : m.kind ≠ .merge) :
    m.Placed :=
  (OperandsFit.of_ne hname hkind).placed hkind

/-! ### Nodes with one input -/

/-- Each edge is read by a node of its own, which writes a group. -/
def copies (us : List Int) (groups : List (List Int)) : List (List Int × List Int) :=
  List.zipWith (fun u outs => ([u], outs)) us groups

theorem mem_copies {us : List Int} {groups : List (List Int)} {c : List Int × List Int}
    (h : c ∈ copies us groups) : ∃ u outs, u ∈ us ∧ outs ∈ groups ∧ c = ([u], outs) := by
  rw [copies, ← map_uncurry_zip_eq_zipWith] at h
  obtain ⟨⟨u, outs⟩, hmem, rfl⟩ := mem_map.1 h
  obtain ⟨hu, houts⟩ := of_mem_zip hmem
  exact ⟨u, outs, hu, houts, rfl⟩

theorem reads_copies {us : List Int} {groups : List (List Int)} (h : us.length ≤ groups.length) :
    reads (copies us groups) = us := by
  induction us generalizing groups with
  | nil => rfl
  | cons u us ih =>
    obtain _ | ⟨outs, groups⟩ := groups
    · simp at h
    · show u :: reads (copies us groups) = u :: us
      rw [ih (by simpa using h)]

theorem writes_copies (us : List Int) (groups : List (List Int)) :
    writes (copies us groups) = (groups.take us.length).flatten := by
  induction us generalizing groups with
  | nil => rfl
  | cons u us ih =>
    obtain _ | ⟨outs, groups⟩ := groups
    · rfl
    · show outs ++ writes (copies us groups) = (outs :: groups.take us.length).flatten
      rw [ih, flatten_cons]

theorem writes_copies_singletons {us outs : List Int} (h : us.length = outs.length) :
    writes (copies us (outs.map ([·]))) = outs := by
  rw [writes_copies, take_of_length_le (by simp [h]), ← flatMap_def]
  exact flatMap_singleton' outs

section

variable {S : Type} {J : Behaviour S} {f : S → S} {count count' : Int} {ns : List Node}
  (h : Wired P count ns (copies ins (outs.map ([·]))) count')
  (hJ : ∀ n ∈ ns, ∀ x, J n [x] = [f x])
include h hJ

/-- What flows behind nodes with one input and one output is what each of them makes. -/
theorem Wired.map_copies {σ : Int → S} (hlen : ins.length = outs.length)
    (hholds : ∀ n ∈ ns, n.Holds J σ) : outs.map σ = (ins.map σ).map f := by
  induction ins generalizing count ns outs with
  | nil =>
    obtain rfl : outs = [] := eq_nil_of_length_eq_zero hlen.symm
    rfl
  | cons _ _ ih =>
    obtain _ | ⟨output, outs⟩ := outs
    · simp at hlen
    cases h with
    | @cons _ _ n ns _ _ _ _ hin hout _ hrest =>
      have hn := hholds n mem_cons_self
      rw [Node.Holds, hin, hout, map_singleton, map_singleton, hJ n mem_cons_self] at hn
      rw [map_cons, map_cons, map_cons,
        ih hrest (fun m hm => hJ m (mem_cons_of_mem _ hm)) (by simpa using hlen)
        fun m hm => hholds m (mem_cons_of_mem _ hm), (List.cons.inj hn).1]

theorem Wired.length_copies :
    ∀ n ∈ ns, ∀ xs, xs.length = n.inputs.length → (J n xs).length = n.outputs.length := by
  intro n hn xs hxs
  obtain ⟨u, group, -, hgroup, heq⟩ := mem_copies (h.map_eq ▸ mem_map_of_mem hn)
  obtain ⟨hin, hout⟩ := Prod.mk.inj heq
  obtain ⟨o, -, rfl⟩ := mem_map.1 hgroup
  rw [hin] at hxs
  obtain ⟨x, rfl⟩ := length_eq_one_iff.1 hxs
  rw [hJ n hn, hout]
  rfl

end

namespace Graph

variable {g g' : Graph} {s s' : ChannelSource} {t t' : Supply} {fanOut k size : Nat}
  {groups : List (List Int)} {ids : List Int} {input : Int} {ins : List Operand} {n : Node}
  {p : Parallelizer} {splitter : Int → List Int → Build Node} {whole : Invocation} (next : Int)

/-! ### Splitters -/

theorem introduceSplitter_wired
    (hmakes : Makes (splitter input (freshIds s.next fanOut)) [input] (freshIds s.next fanOut) P)
    (h : Yields (g.introduceSplitter splitter fanOut s input) t (g', ids, s') t') :
    ids = freshIds s.next fanOut ∧ s'.next = s.next + fanOut ∧ Edits s.next g s'.next g' ∧
      ∃ n, Wired P t.nextNode [n] [([input], ids)] t'.nextNode ∧ g'.view = g.view.add n := by
  obtain ⟨⟨g₁, ids₁, s₁⟩, hpipes, h⟩ := h.lift_bind
  obtain ⟨hview₁, rfl, hnext⟩ := addPipes_view hpipes
  obtain ⟨n, t₁, hmake, h⟩ := h.bind
  obtain ⟨hid, hcount, hin, hout, hP⟩ := hmakes _ _ _ hmake
  obtain ⟨g₂, htarget, h⟩ := h.lift_bind
  obtain ⟨g₃, hsources, h⟩ := h.lift_bind
  obtain ⟨g₄, hadd, h⟩ := h.lift_bind
  obtain ⟨heq, rfl⟩ := h.pure
  cases heq
  have hends := (setTarget_edits htarget s'.next).trans (setSources_edits hsources s'.next)
  refine ⟨rfl, hnext, (addPipes_edits hpipes).trans (hends.trans (addNode_edits hadd s'.next)), n,
    .single hid hcount hin hout hP, ?_⟩
  rw [addNode_view hadd, setSources_view hsources, setTarget_view htarget, hview₁]
  refine @View.foldl_add_congr _ _ [n] rfl (fun i hi => ?_) (fun i hi => ?_)
  · have hi : i ∉ freshIds s.next fanOut := by simpa [hout] using hi
    simp [View.setSources, View.setTarget, hi]
  · have hi : i ≠ input := by simpa [hin] using hi
    simp [View.setSources, View.setTarget, hi]

/-! ### Copies -/

/-- Groups of numbers, of one size. -/
def groupIds (next : Int) (size : Nat) : Nat → List (List Int)
  | 0 => []
  | k + 1 => freshIds next size :: groupIds (next + size) size k

theorem groupIds_one (k : Nat) : groupIds next 1 k = (freshIds next k).map ([·]) := by
  induction k generalizing next with
  | zero => rfl
  | succ k ih =>
    rw [groupIds, ih]
    rfl

theorem flatten_groupIds (size k : Nat) :
    (groupIds next size k).flatten = freshIds next (k * size) := by
  induction k generalizing next with
  | zero => rw [Nat.zero_mul]; rfl
  | succ k ih => rw [groupIds, flatten_cons, ih, Nat.succ_mul, Nat.add_comm, freshIds_append]

@[simp] theorem length_groupIds (size k : Nat) : (groupIds next size k).length = k := by
  induction k generalizing next with
  | zero => rfl
  | succ k ih => rw [groupIds, length_cons, ih]

theorem width_groupIds (size k : Nat) : ∀ ids ∈ groupIds next size k, ids.length = size := by
  induction k generalizing next with
  | zero =>
    intro ids hids
    cases hids
  | succ k ih => exact forall_mem_cons.2 ⟨length_freshIds _ _, ih _⟩

theorem mem_groupIds {next : Int} (h : ids ∈ groupIds next size k) :
    ids.Nodup ∧ ∀ i ∈ ids, next ≤ i := by
  induction k generalizing next with
  | zero => cases h
  | succ k ih =>
    rcases mem_cons.1 h with rfl | h
    · exact ⟨nodup_freshIds _ _, fun i hi => (mem_freshIds.1 hi).1⟩
    · obtain ⟨hnodup, hle⟩ := ih h
      refine ⟨hnodup, fun i hi => ?_⟩
      have := hle i hi
      omega

theorem addPipeGroups_view (h : g.addPipeGroups s size k = .ok (g', groups, s')) :
    g'.view = g.view ∧ groups = groupIds s.next size k ∧ s'.next = s.next + (k * size : Nat) ∧
      Edits s.next g s'.next g' := by
  induction k generalizing g s groups with
  | zero =>
    cases h
    exact ⟨rfl, rfl, by simp, .refl _ _⟩
  | succ k ih =>
    obtain ⟨⟨g₁, ids, s₁⟩, hpipes, h⟩ := bind_eq_ok.1 h
    obtain ⟨hview, rfl, hnext⟩ := addPipes_view hpipes
    obtain ⟨⟨g₂, rest, s₂⟩, hrest, h⟩ := bind_eq_ok.1 h
    have heq := pure_eq_ok.1 h
    cases heq
    obtain ⟨hview', rfl, hnext', hedits⟩ := ih hrest
    refine ⟨hview'.trans hview, by rw [groupIds, hnext], ?_, (addPipes_edits hpipes).trans hedits⟩
    rw [hnext', hnext, Nat.succ_mul]
    omega

/-- A copy of a command: wrapped if batches are tagged, and plain otherwise. -/
def IsCopy (p : Parallelizer) (whole : Invocation) (n : Node) : Prop :=
  if p.splitter = .roundRobin then
    (∃ name, n.kind = .wrap name) ∧
      n.invocation.command = Settings.standard.program Settings.standard.roundWrap
  else n.kind = .plain ∧ n.invocation.command = whole.command

theorem IsCopy.kind_ne (h : IsCopy p whole n) : n.kind ≠ .merge := by
  unfold IsCopy at h
  split at h
  · obtain ⟨⟨name, hkind⟩, -⟩ := h
    simp [hkind]
  · simp [h.1]

/-- Only some ends of edges differ. -/
structure SameBut (v v' : View) (sources targets : List Int) : Prop where
  node : v.node = v'.node
  source : ∀ i, i ∉ sources → v.source i = v'.source i
  target : ∀ i, i ∉ targets → v.target i = v'.target i

theorem SameBut.trans {v v' v'' : View} {sources sources' targets targets' : List Int}
    (h : SameBut v v' sources targets) (h' : SameBut v' v'' sources' targets') :
    SameBut v v'' (sources' ++ sources) (targets' ++ targets) := by
  refine ⟨h.node.trans h'.node, fun i hi => ?_, fun i hi => ?_⟩
  · rw [mem_append, not_or] at hi
    exact (h.source i hi.2).trans (h'.source i hi.1)
  · rw [mem_append, not_or] at hi
    exact (h.target i hi.2).trans (h'.target i hi.1)

theorem operandEdge_eq_ok {input : Operand} {u : Int} (h : operandEdge input = .ok u) :
    input.edge? = some u := by
  unfold operandEdge at h
  split at h
  · next id hid => rw [hid, Except.ok.inj h]
  · obtain ⟨_, _, h⟩ := bind_eq_ok.1 h
    cases h

theorem introduceMapper_spec {input : Operand}
    (hnodup : ∀ u, input.edge? = some u → ([u] ++ outs).Nodup)
    (h : Yields (introduceMapper p whole g input outs) t (g', n) t') :
    ∃ u, input.edge? = some u ∧ (t.nextNode : Int) ≤ n.id ∧ (t'.nextNode : Int) = n.id + 1 ∧
      n.inputs = [u] ∧ n.outputs = outs ∧
      (IsCopy p whole n ∧ n.invocation.operands.filterMap Operand.edge? = []) ∧
      SameBut g'.view g.view outs [u] ∧ Edits next g next g' := by
  obtain _ | ⟨out, extra⟩ := outs
  · exact (yields_throw.1 h).elim
  obtain ⟨u, hu, h⟩ := h.lift_bind
  have hu := operandEdge_eq_ok hu
  obtain ⟨m, t₁, hmake, h⟩ := h.bind
  obtain ⟨hid, hcount, hin, hout, hkind, hcommand, hoperands⟩ :=
    Node.makes_mapper whole (hnodup u hu) _ _ _ hmake
  obtain ⟨g₁, htarget, h⟩ := h.lift_bind
  obtain ⟨g₂, hsources, h⟩ := h.lift_bind
  have hview₂ : g₂.view = (g.view.setTarget u (some m.id)).setSources (out :: extra)
      (some m.id) := by
    rw [setSources_view hsources, setTarget_view htarget]
  have hends := (setTarget_edits htarget next).trans (setSources_edits hsources next)
  refine ⟨u, hu, ?_⟩
  split at h
  · next hrr =>
    -- the wrapping node takes the place of the copy, which never joins the graph
    obtain ⟨⟨inner, w⟩, t₂, hwrap, h⟩ := h.bind
    obtain ⟨-, hid', hcount', hin', hout', hkind', hcommand', hoperands'⟩ :=
      Node.yields_wrap (hnodup u hu) hin hout hwrap
    obtain ⟨g₃, htarget', h⟩ := h.lift_bind
    obtain ⟨g₄, hsource', h⟩ := h.lift_bind
    obtain ⟨rfl, rfl, rfl⟩ := h.pure_pair
    refine ⟨by omega, hcount', hin', hout',
      ⟨by rw [IsCopy, if_pos hrr]; exact ⟨hkind', hcommand'⟩, hoperands'⟩, ?_,
      hends.trans ((setTarget_edits htarget' next).trans (setSource_edits hsource' next))⟩
    rw [setSource_view hsource', setTarget_view htarget', hview₂]
    refine ⟨rfl, fun i hi => ?_, fun i hi => ?_⟩
    · simp_all [View.setSource, View.setTarget, View.setSources]
    · simp_all [View.setSource, View.setTarget, View.setSources]
  · next hrr =>
    obtain ⟨rfl, rfl, rfl⟩ := h.pure_pair
    refine ⟨hid, hcount, hin, hout,
      ⟨by rw [IsCopy, if_neg hrr]; exact ⟨hkind, hcommand⟩, by rw [hoperands]; rfl⟩, ?_,
      hends⟩
    rw [hview₂]
    refine ⟨rfl, fun i hi => ?_, fun i hi => ?_⟩
    · simp_all [View.setTarget, View.setSources]
    · simp_all [View.setTarget, View.setSources]

theorem introduceMapperList_spec {ns : List Node}
    (hnodup : ∀ input ∈ ins, ∀ u, input.edge? = some u → ∀ outs ∈ groups, ([u] ++ outs).Nodup)
    (h : Yields (introduceMapperList p whole g (ins.zip groups)) t (g', ns) t') :
    ∃ us, (ins.take groups.length).map Operand.edge? = us.map some ∧
      Wired (fun n => IsCopy p whole n ∧ n.invocation.operands.filterMap Operand.edge? = [])
        t.nextNode ns (copies us groups) t'.nextNode ∧
      SameBut g'.view g.view (writes (copies us groups)) (reads (copies us groups)) ∧
      Edits next g next g' := by
  induction ins generalizing g groups ns t with
  | nil =>
    obtain ⟨rfl, rfl, rfl⟩ := h.pure_pair
    exact ⟨[], by simp, .nil, ⟨rfl, fun _ _ => rfl, fun _ _ => rfl⟩, .refl next _⟩
  | cons input _ ih =>
    obtain _ | ⟨outs, groups⟩ := groups
    · obtain ⟨rfl, rfl, rfl⟩ := h.pure_pair
      exact ⟨[], rfl, .nil, ⟨rfl, fun _ _ => rfl, fun _ _ => rfl⟩, .refl next _⟩
    obtain ⟨⟨g₁, n⟩, t₁, hfirst, h⟩ := h.bind
    obtain ⟨u, hu, hid, hcount, hin, hout, hcopy, hsame, hedits⟩ := introduceMapper_spec next
      (fun u hu => hnodup input mem_cons_self u hu outs mem_cons_self) hfirst
    obtain ⟨⟨g₂, rest⟩, t₂, hrest, h⟩ := h.bind
    obtain ⟨rfl, rfl, rfl⟩ := h.pure_pair
    obtain ⟨us, hus, hwired, hsame', hedits'⟩ := ih (fun other ho u hu outs houts =>
      hnodup other (mem_cons_of_mem _ ho) u hu outs (mem_cons_of_mem _ houts)) hrest
    refine ⟨u :: us, ?_, .cons hid hin hout hcopy (hcount ▸ hwired), hsame'.trans hsame,
      hedits.trans hedits'⟩
    rw [length_cons, take_succ_cons, map_cons, map_cons, hu, hus]

/-- Copies are put in behind as many edges as there are groups. -/
theorem introduceMappers_wired (hlt : ∀ i ∈ ins.filterMap Operand.edge?, i < s.next)
    (h : Yields (g.introduceMappers p whole fanOut s ins) t (g', groups, s') t') :
    groups = groupIds s.next (p.extra + 1).toNat fanOut ∧
      s'.next = s.next + (fanOut * (p.extra + 1).toNat : Nat) ∧
      Edits s.next g s'.next g' ∧ ∃ us ns, (ins.take fanOut).map Operand.edge? = us.map some ∧
        Wired (fun n => IsCopy p whole n ∧ n.invocation.operands.filterMap Operand.edge? = [])
          t.nextNode ns (copies us groups) t'.nextNode ∧
        g'.view = ns.foldl View.add g.view := by
  obtain ⟨⟨g₁, groups₁, s₁⟩, hgroups, h⟩ := h.lift_bind
  obtain ⟨hview₁, rfl, hnext, hpipes⟩ := addPipeGroups_view hgroups
  obtain ⟨⟨g₂, ns⟩, t₁, hlist, h⟩ := h.bind
  have hnodup : ∀ input ∈ ins, ∀ u, input.edge? = some u →
      ∀ outs ∈ groupIds s.next (p.extra + 1).toNat fanOut, ([u] ++ outs).Nodup := by
    intro input hinput u hu outs houts
    obtain ⟨hnodup, hle⟩ := mem_groupIds houts
    have hu := hlt u (mem_filterMap.2 ⟨input, hinput, hu⟩)
    refine nodup_append.2 ⟨by simp, hnodup, ?_⟩
    rintro i hi j hj rfl
    obtain rfl : i = u := by simpa using hi
    have := hle i hj
    omega
  obtain ⟨us, hus, hwired, hsame, hedits⟩ := introduceMapperList_spec s₁.next hnodup hlist
  obtain ⟨g₃, hadd, h⟩ := h.lift_bind
  obtain ⟨heq, rfl⟩ := h.pure
  cases heq
  rw [length_groupIds] at hus
  refine ⟨rfl, hnext, hpipes.trans (hedits.trans (addNodes_edits hadd s'.next)), us, ns, hus,
    hwired, ?_⟩
  -- the ends that were set beforehand are set again when the copies are added
  rw [addNodes_view hadd, ← hview₁]
  refine View.foldl_add_congr hsame.node (fun i hi => hsame.source i fun hmem => ?_)
    (fun i hi => hsame.target i fun hmem => ?_)
  · obtain ⟨n, hn, hmem⟩ := hwired.mem_outputs hmem
    exact hi n hn hmem
  · obtain ⟨n, hn, hmem⟩ := hwired.mem_inputs hmem
    exact hi n hn hmem

/-! ### Dropping tags -/

theorem introduceUnwrapList_spec (hlen : ins.length = outs.length)
    (hne : ∀ i ∈ ins.filterMap Operand.edge?, ∀ o ∈ outs, i ≠ o)
    (h : Yields (introduceUnwrapList g (ins.zip outs)) t g' t') :
    ∃ us ns, ins.map Operand.edge? = us.map some ∧ Wired (fun n => n.kind = .unwrap ∧
        n.invocation.command = Settings.standard.program Settings.standard.roundUnwrap)
        t.nextNode ns (copies us (outs.map ([·]))) t'.nextNode ∧
      g'.view = ns.foldl View.add g.view ∧ Edits next g next g' := by
  induction ins generalizing g outs t with
  | nil =>
    obtain rfl : outs = [] := eq_nil_of_length_eq_zero hlen.symm
    obtain ⟨rfl, rfl⟩ := h.pure
    exact ⟨[], [], rfl, .nil, rfl, .refl next _⟩
  | cons _ _ ih =>
    obtain _ | ⟨output, outs⟩ := outs
    · simp at hlen
    obtain ⟨u, hu, h⟩ := h.lift_bind
    have hu := operandEdge_eq_ok hu
    rw [filterMap_cons_some hu] at hne
    obtain ⟨n, t₁, hmake, h⟩ := h.bind
    obtain ⟨hid, hcount, hin, hout, hP⟩ :=
      Node.makes_unwrap (hne u mem_cons_self output mem_cons_self) _ _ _ hmake
    obtain ⟨g₁, hadd, h⟩ := h.lift_bind
    obtain ⟨g₂, htarget, h⟩ := h.lift_bind
    obtain ⟨g₃, hsource, h⟩ := h.lift_bind
    obtain ⟨us, ns, hus, hwired, hview, hedits⟩ := ih (by simpa using hlen)
      (fun i hi o ho => hne i (mem_cons_of_mem _ hi) o (mem_cons_of_mem _ ho)) h
    have hends := (setTarget_edits htarget next).trans (setSource_edits hsource next)
    refine ⟨u :: us,
      n :: ns, by rw [map_cons, map_cons, hu, hus], .cons hid hin hout hP (hcount ▸ hwired), ?_,
      (addNode_edits hadd next).trans (hends.trans hedits)⟩
    rw [hview, setSource_view hsource, setTarget_view htarget, addNode_view hadd,
      View.setTarget_self (if_pos (by simp [hin])), View.setSource_self (if_pos (by simp [hout])),
      foldl_cons]

theorem introduceUnwraps_wired (hlt : ∀ i ∈ ins.filterMap Operand.edge?, i < s.next)
    (h : Yields (g.introduceUnwraps s ins) t (g', ids, s') t') :
    ids = freshIds s.next ins.length ∧ s'.next = s.next + ins.length ∧ Edits s.next g s'.next g' ∧
      ∃ us ns, ins.map Operand.edge? = us.map some ∧
        Wired (fun n => n.kind = .unwrap ∧
          n.invocation.command = Settings.standard.program Settings.standard.roundUnwrap)
          t.nextNode ns (copies us (ids.map ([·]))) t'.nextNode ∧
        g'.view = ns.foldl View.add g.view := by
  obtain ⟨⟨g₁, ids₁, s₁⟩, hpipes, h⟩ := h.lift_bind
  obtain ⟨hview₁, rfl, hnext⟩ := addPipes_view hpipes
  obtain ⟨g₂, t₁, hlist, h⟩ := h.bind
  obtain ⟨us, ns, hus, hwired, hview, hedits⟩ :=
    introduceUnwrapList_spec s₁.next (by simp) (fun i hi o ho => by
    have := hlt i hi
    have := (mem_freshIds.1 ho).1
    omega) hlist
  obtain ⟨heq, rfl⟩ := h.pure
  cases heq
  exact ⟨rfl, hnext, (addPipes_edits hpipes).trans hedits, us, ns, hus, hwired,
    hview.trans (by rw [hview₁])⟩

/-! ### Aggregators -/

theorem introduceAggregator_view {output : Int} (hout : n.outputs = [output])
    (h : g.introduceAggregator n n.inputs output = .ok g') :
    g'.view = g.view.add n ∧ Edits next g next g' := by
  obtain ⟨g₁, htargets, h⟩ := bind_eq_ok.1 h
  obtain ⟨g₂, hsource, hadd⟩ := bind_eq_ok.1 h
  have hends := (setTargets_edits htargets next).trans (setSource_edits hsource next)
  refine ⟨?_, hends.trans (addNode_edits hadd next)⟩
  rw [addNode_view hadd, setSource_view hsource, setTargets_view htargets]
  refine @View.foldl_add_congr _ _ [n] rfl (fun i hi => ?_) (fun i hi => ?_)
  · have hi : i ≠ output := by simpa [hout] using hi
    simp [View.setSource, View.setTargets, hi]
  · have hi : i ∉ n.inputs := by simpa using hi
    simp [View.setSource, View.setTargets, hi]

end Graph

end ShellFlow
