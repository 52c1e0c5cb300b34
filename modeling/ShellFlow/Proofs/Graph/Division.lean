import ShellFlow.Proofs.Graph.Parts
import ShellFlow.Proofs.Graph.Reduction

/-!
# What the nodes of a divided graph do

Every node of a graph is given a function of its input streams.  A node that a division has put in
is one of a few parts, and does what such a part does for the node that was divided.
-/

namespace ShellFlow

variable {S : Type}

/-- Functions for nodes and for the parts of divisions. -/
structure Interpretation (S : Type) where
  /-- What the node with a number makes of its input streams. -/
  node : Int → List S → List S
  /-- Deals batches, with tags. -/
  split : Nat → S → List S
  /-- Deals batches, without tags. -/
  rawSplit : Nat → S → List S
  /-- Cuts into consecutive pieces. -/
  chunk : Nat → S → List S
  /-- Restores the order of tagged batches. -/
  merge : List S → S
  /-- Drops tags. -/
  unwrap : S → S
  /-- Runs a command on every tagged batch. -/
  wrap : (S → S) → S → S
  /-- A copy of the node with a number. -/
  mapper : Int → S → S
  /-- The aggregator of the node with a number. -/
  gather : Int → List S → S
  length_split (k : Nat) (x : S) : (split k x).length = k
  length_rawSplit (k : Nat) (x : S) : (rawSplit k x).length = k
  length_chunk (k : Nat) (x : S) : (chunk k x).length = k

namespace Interpretation

variable (I : Interpretation S)

/-- The function of a node with one input and one output. -/
def single (w : Node) (x : S) : S := (I.node w.id [x]).headD x

/-- What the node `m` does that was put in when `w` was divided. -/
def part (w m : Node) (xs : List S) : List S :=
  match m.kind with
  | .roundSplit =>
    xs.flatMap (if m.invocation.flags.isEmpty then I.split m.outputs.length else I.rawSplit
      m.outputs.length)
  | .split => xs.flatMap (I.chunk m.outputs.length)
  | .merge => [I.merge xs]
  | .unwrap => xs.map I.unwrap
  | .wrap _ => xs.map (I.wrap (I.single w))
  | .plain | .eager | .tee =>
    if m.invocation.command =
      w.invocation.command then xs.map (I.mapper w.id) else [I.gather w.id xs]

/-- What every node does, if `own` tells for which node it was put in. -/
def meaning (own : Int → Option Node) : Behaviour S := fun m xs =>
  match own m.id with
  | some w => I.part w m xs
  | none => I.node m.id xs

/-- The outputs of the copies of a node put together, all at once or by twos. -/
def combine (w : Node) (p : Parallelizer) (xs : List S) : S :=
  match p.aggregator with
  | .binary => foldFirst (fun a b => I.gather w.id [a, b]) (I.gather w.id []) xs
  | _ => I.gather w.id xs

/-- The node `w` may be divided into `fanOut` copies as `p` says. -/
structure Supports (fanOut : Nat) (w : Node) (p : Parallelizer) : Prop where
  single (x : S) : I.node w.id [x] = [I.single w x]
  roundRobin : p.splitter = .roundRobin → (∀ x, I.merge (I.split fanOut x) = x) ∧
    ∀ ys, ys.length = fanOut → I.merge (ys.map (I.wrap (I.single w))) = I.single w (I.merge ys)
  roundRobinRaw : p.splitter = .roundRobinRaw →
    (∀ x, I.combine w p ((I.rawSplit fanOut x).map (I.mapper w.id)) = I.single w x) ∧
    ∀ ys, ys.length = fanOut → I.combine w p ((ys.map I.unwrap).map (I.mapper w.id)) =
      I.single w (I.merge ys)
  consecutive : p.splitter = .consecutive →
    ∀ x, I.combine w p ((I.chunk fanOut x).map (I.mapper w.id)) = I.single w x
  assoc : p.splitter ≠ .roundRobin → p.aggregator = .binary → ∀ a b c,
    I.gather w.id [I.gather w.id [a, b], c] = I.gather w.id [a, I.gather w.id [b, c]]

variable {I} {w m : Node} {own : Int → Option Node}

theorem meaning_congr {own' : Int → Option Node} (h : own m.id = own' m.id) :
    I.meaning own m = I.meaning own' m := by
  funext xs
  rw [meaning, meaning, h]

/-! ### Parts -/

theorem part_merge (hkind : m.kind = .merge) (xs : List S) : I.part w m xs = [I.merge xs] := by
  simp [part, hkind]

theorem part_gather (hkind : m.kind = .plain)
    (hcommand : m.invocation.command = "agg-" ++ w.invocation.command)
    (xs : List S) : I.part w m xs = [I.gather w.id xs] := by
  simp [part, hkind, hcommand]

/-- What a node does does not depend on the numbers of its edges. -/
theorem meaning_replaceEdge (old new : Int) :
    I.meaning own (m.replaceEdge old new) = I.meaning own m := by
  have hlen : (m.replaceEdge old new).outputs.length = m.outputs.length := by
    simp [Node.outputs_replaceEdge, Invocation.replaceIn]
  funext xs
  rw [meaning, meaning]
  show (match own m.id with
    | some w => I.part w (m.replaceEdge old new) xs
    | none => I.node m.id xs) = _
  cases own m.id with
  | none => rfl
  | some =>
    simp only [part, hlen]
    rfl

end Interpretation

namespace Graph

variable {first k : Int} {own : Int → Option Node} {w : Option Node}

/-- From the number `first` on, nodes are put in for `w`. -/
def ownFrom (own : Int → Option Node) (first : Int) (w : Option Node) :
    Int → Option Node := fun k =>
  if first ≤ k then w else own k

theorem ownFrom_of_lt (h : k < first) : ownFrom own first w k = own k :=
  if_neg (Int.not_le.2 h)

/-- Goes on from nodes of which the owners are known: what is put in for a node is its own. -/
def ownersFrom (fanOut : Nat) (batch : Option Int) (own : Int → Option Node) (g : Graph)
    (s : ChannelSource) (supply : Supply) : List (Int × Option Parallelizer) → Int → Option Node
  | [] => own
  | (_, none) :: rest => ownersFrom fanOut batch own g s supply rest
  | (n, some p) :: rest =>
    match (g.parallelize n p s fanOut batch).outcome supply with
    | (.ok (g', s'), supply') =>
      ownersFrom fanOut batch (ownFrom own supply.nextNode (g.node? n)) g' s' supply' rest
    | (.error _, _) => own

/-- For every number that is given out when all nodes are divided, the node that was divided then.
-/
def owner (g : Graph) (fanOut : Nat) (batch : Option Int) (supply : Supply) : Int → Option Node :=
  match g.choices supply.order, g.channelSource.outcome supply with
  | .ok chosen, (.ok s, supply') => ownersFrom fanOut batch (fun _ => none) g s supply' chosen
  | _, _ => fun _ => none

end Graph

/-!
### Dividing one node

A node that is divided is taken out first, alone or with the node in front of it.  From then on
there is an edge that nobody writes, and a condition on what must flow there.
-/

open List

/-- What is given while a node is divided. -/
structure Division (S : Type) where
  /-- Functions for nodes and for parts. -/
  interp : Interpretation S
  /-- What every node does. -/
  behaviour : Behaviour S
  /-- The number of copies. -/
  fanOut : Nat
  /-- The edges that nodes wrote before any node was divided. -/
  inner : Int → Prop
  /-- The edges that are seen from outside. -/
  seen : Int → Prop

namespace Division

variable (D : Division S)

/-- The node puts tagged batches into their order, where another node wrote in the beginning. -/
structure Rejoins (m : Node) : Prop where
  operands : m.invocation.operands = m.inputs.map .edge
  length : m.inputs.length = D.fanOut
  nodup : m.inputs.Nodup
  outputs : ∃ o, m.outputs = [o] ∧ D.inner o
  merges (xs : List S) : D.behaviour m xs = [D.interp.merge xs]

/-- A node that a later division may meet: it is not taken for a concatenation, and if it looks like
the end of a division with tags, it is one. -/
structure Tame (m : Node) : Prop where
  name : m.invocation.command ≠ "cat"
  rejoins : m.kind = .merge → D.Rejoins m

/-- The division of the node `n` takes the view `v` to `v'`, in which the same streams are seen. -/
structure Divided (v : View) (n : Node) (count next : Int) (v' : View) (count' next' : Int) :
    Prop where
  sound : v'.Sound count' next'
  count_le : count ≤ count'
  next_le : next ≤ next'
  same : SameStreams D.seen (v.Runs D.behaviour) (v'.Runs D.behaviour)
  keeps (k : Int) (m : Node) : v.node k = some m → k ≠ n.id → m.kind ≠ .merge → v'.node k = some m
  tame (k : Int) (m : Node) : v'.node k = some m → D.Tame m

/-- The node `n` of the view `v` may be divided; nodes and edges are put in with numbers from
`count` and `next` on. -/
structure Starts (v : View) (n : Node) (count next : Int) : Prop where
  sound : v.Sound count next
  node : v.node n.id = some n
  single (x : S) : D.behaviour n [x] = [D.interp.single n x]
  tame (k : Int) (m : Node) : v.node k = some m → D.Tame m
  seen_lt (i : Int) : D.seen i → i < next
  inner_lt (i : Int) : D.inner i → i < next
  inner_output (i : Int) : i ∈ n.outputs → D.inner i
  shut (i : Int) : i ∈ n.inputs → D.inner i → ¬ D.seen i
  part (m : Node) : count ≤ m.id → D.behaviour m = D.interp.part n m
  replaceEdge (m : Node) (old new : Int) : D.behaviour (m.replaceEdge old new) = D.behaviour m

variable {D} {v : View} {n m : Node} {x o count next : Int}

theorem Tame.of_kind_ne (hname : m.invocation.command ≠ "cat") (hkind : m.kind ≠ .merge) :
    D.Tame m :=
  ⟨hname, fun h => absurd h hkind⟩

theorem Tame.fit (h : D.Tame m) : m.OperandsFit := by
  rintro (hname | hkind)
  · exact absurd hname h.name
  · obtain ⟨hoperands, -, hnodup, -⟩ := h.rejoins hkind
    exact Node.OperandsFit.of_inputs hoperands hnodup (.inr hkind)

/-! ### Taking nodes out -/

variable (h : D.Starts v n count next) (hin : n.inputs = [x]) (hout : n.outputs = [o])
include h hin hout

theorem Starts.runs_remove (σ : Int → S) : v.Runs D.behaviour σ ↔
    (v.remove n).Runs D.behaviour σ ∧ σ o = D.interp.single n (σ x) := by
  rw [View.runs_remove h.node, Node.Holds, hin, hout, map_singleton, map_singleton, h.single,
    singleton_inj]
  exact and_congr_right' eq_comm

/-- The node in front puts tagged batches into their order and goes, too.  The edge between the two
is then free, and what flowed there can be put back. -/
theorem Starts.fuse (hm : v.node m.id = some m) (hne : m.id ≠ n.id) (hx : x ∈ m.outputs)
    (hkind : m.kind = .merge) : SameStreams D.seen (v.Runs D.behaviour) fun σ =>
      ((v.remove n).remove m).Runs D.behaviour σ ∧
      σ o = D.interp.single n (D.interp.merge (m.inputs.map σ)) := by
  have hv := h.sound
  obtain ⟨-, -, -, ⟨x', hout', hx'⟩, hmerges⟩ := (h.tame m.id m hm).rejoins hkind
  obtain rfl : x = x' := by simpa [hout'] using hx
  have hm' : (v.remove n).node m.id = some m := by rwa [View.remove_node_of_ne v hne]
  have hread : v.target x = some n.id := (hv.target x n.id).2 ⟨n, h.node, by simp [hin]⟩
  have hwritten : v.source x = some m.id := (hv.source x m.id).2 ⟨m, hm, hx⟩
  -- no other node has the edge between the two
  have hfree : ∀ k p, ((v.remove n).remove m).node k = some p →
      ∀ i ∈ p.inputs ++ p.outputs, i ≠ x := by
    rintro k p hp i hi rfl
    obtain ⟨hkm, hp⟩ := View.node_of_remove hp
    obtain ⟨hkn, hp⟩ := View.node_of_remove hp
    obtain hi | hi := mem_append.1 hi
    · exact hkn (Option.some.inj (((hv.target i k).2 ⟨p, hp, hi⟩).symm.trans hread))
    · exact hkm (Option.some.inj (((hv.source i k).2 ⟨p, hp, hi⟩).symm.trans hwritten))
  have hox : o ≠ x := by
    rintro rfl
    have := ((hv.source o n.id).2 ⟨n, h.node, by simp [hout]⟩).symm.trans hwritten
    exact hne (Option.some.inj this).symm
  have hloop : x ∉ m.inputs := by
    intro hi
    exact hne (Option.some.inj (((hv.target x m.id).2 ⟨m, hm, hi⟩).symm.trans hread))
  have hruns : ∀ σ, v.Runs D.behaviour σ ↔ (((v.remove n).remove m).Runs D.behaviour σ ∧
      D.interp.merge (m.inputs.map σ) = σ x) ∧ σ o = D.interp.single n (σ x) := by
    intro σ
    rw [h.runs_remove hin hout, View.runs_remove hm', Node.Holds, hout', hmerges, map_singleton,
      singleton_inj]
  refine .of_update (e := fun σ => D.interp.merge (m.inputs.map σ)) (h.shut x (by simp [hin]) hx')
    (fun σ hσ => ((hruns σ).1 hσ).1.2.symm) fun τ => ?_
  have hrest := View.runs_congr (J := D.behaviour) fun k p hp i hi =>
    Function.update_of_ne (hfree k p hp i hi) (D.interp.merge (m.inputs.map τ)) τ
  -- what flows between the two is only asked for by the equation that is solved for it
  rw [hruns, hrest, map_update_of_notMem hloop, Function.update_self, Function.update_of_ne hox,
    eq_self, and_true]

end Division

end ShellFlow
