import ShellFlow.Graph.Check
import ShellFlow.Proofs.Outcome
import ShellFlow.Proofs.Table

/-!
# What matters of a graph

How streams flow through a graph depends on its nodes and on the ends of its edges, and on nothing
else.  The view of a graph holds these.  An edit of a graph is described by what it does to the
view.
-/

namespace ShellFlow

open List

/-- What matters of a graph: the node of every number, and the ends of every edge. -/
@[ext] structure View where
  node : Int → Option Node
  source : Int → Option Int
  target : Int → Option Int

namespace View

variable {i k : Int} {m n : Node} {v : View}

/-- A node is put in. -/
def add (v : View) (n : Node) : View where
  node k := if k = n.id then some n else v.node k
  source i := if i ∈ n.outputs then some n.id else v.source i
  target i := if i ∈ n.inputs then some n.id else v.target i

/-- A node is taken out. -/
def remove (v : View) (n : Node) : View where
  node k := if k = n.id then none else v.node k
  source i := if i ∈ n.outputs then none else v.source i
  target i := if i ∈ n.inputs then none else v.target i

def setSource (v : View) (i : Int) (k : Option Int) : View :=
  { v with source := fun j => if j = i then k else v.source j }

def setTarget (v : View) (i : Int) (k : Option Int) : View :=
  { v with target := fun j => if j = i then k else v.target j }

/-- The view with several writing ends set. -/
def setSources (v : View) (ids : List Int) (k : Option Int) : View :=
  { v with source := fun j => if j ∈ ids then k else v.source j }

/-- The view with several reading ends set. -/
def setTargets (v : View) (ids : List Int) (k : Option Int) : View :=
  { v with target := fun j => if j ∈ ids then k else v.target j }

theorem add_node_of_ne (v : View) {n : Node} {k : Int} (h : k ≠ n.id) :
    (v.add n).node k = v.node k :=
  if_neg h

theorem add_source_of_notMem (v : View) (h : i ∉ n.outputs) : (v.add n).source i = v.source i :=
  if_neg h

theorem add_target_of_notMem (v : View) (h : i ∉ n.inputs) : (v.add n).target i = v.target i :=
  if_neg h

theorem remove_node_of_ne (v : View) (h : k ≠ n.id) : (v.remove n).node k = v.node k :=
  if_neg h

theorem node_of_add (h : (v.add n).node k = some m) : (k = n.id ∧ m = n) ∨ v.node k = some m := by
  by_cases hk : k = n.id
  · exact .inl ⟨hk, by simpa [add, hk, eq_comm] using h⟩
  · exact .inr (by rwa [add_node_of_ne v hk] at h)

theorem node_of_remove (h : (v.remove n).node k = some m) : k ≠ n.id ∧ v.node k = some m := by
  by_cases hk : k = n.id
  · simp [remove, hk] at h
  · exact ⟨hk, by rwa [remove_node_of_ne v hk] at h⟩

theorem setSource_self {k : Option Int} (h : v.source i = k) : v.setSource i k = v := by
  ext1
  · rfl
  · funext j
    by_cases hj : j = i <;> simp [setSource, hj, h]
  · rfl

theorem setTarget_self {k : Option Int} (h : v.target i = k) : v.setTarget i k = v := by
  ext1
  · rfl
  · rfl
  · funext j
    by_cases hj : j = i <;> simp [setTarget, hj, h]

theorem setSources_cons (v : View) (i : Int) (ids : List Int) (k : Option Int) :
    (v.setSource i k).setSources ids k = v.setSources (i :: ids) k := by
  ext1
  · rfl
  · funext j
    by_cases hi : j = i <;> by_cases hj : j ∈ ids <;> simp [setSources, setSource, hi, hj]
  · rfl

theorem setTargets_cons (v : View) (i : Int) (ids : List Int) (k : Option Int) :
    (v.setTarget i k).setTargets ids k = v.setTargets (i :: ids) k := by
  ext1
  · rfl
  · rfl
  · funext j
    by_cases hi : j = i <;> by_cases hj : j ∈ ids <;> simp [setTargets, setTarget, hi, hj]

/-- An end that is set before nodes are added does not matter, if one of them has the edge. -/
theorem foldl_add_congr {v v' : View} {ns : List Node} (hnode : v.node = v'.node)
    (hsource : ∀ i, (∀ n ∈ ns, i ∉ n.outputs) → v.source i = v'.source i)
    (htarget : ∀ i, (∀ n ∈ ns, i ∉ n.inputs) → v.target i = v'.target i) :
    ns.foldl add v = ns.foldl add v' := by
  induction ns generalizing v v' with
  | nil =>
    ext1
    · exact hnode
    · exact funext fun i => hsource i (by simp)
    · exact funext fun i => htarget i (by simp)
  | cons n _ ih =>
    refine ih ?_ (fun i hi => ?_) (fun i hi => ?_)
    · simp only [add, hnode]
    · by_cases hn : i ∈ n.outputs
      · simp [add, hn]
      · rw [add_source_of_notMem v hn, add_source_of_notMem v' hn]
        exact hsource i (forall_mem_cons.2 ⟨hn, hi⟩)
    · by_cases hn : i ∈ n.inputs
      · simp [add, hn]
      · rw [add_target_of_notMem v hn, add_target_of_notMem v' hn]
        exact htarget i (forall_mem_cons.2 ⟨hn, hi⟩)

end View

namespace Graph

variable {g g' : Graph} {i : Int} {ids : List Int} {k : Option Int} {n : Node} (next : Int)

/-- The nodes of a graph, and the ends of its edges. -/
def view (g : Graph) : View where
  node := g.node?
  source i := (g.edge? i).bind Edge.source
  target i := (g.edge? i).bind Edge.target

/-! ### Edits -/

theorem edge_eq_ok {e : Edge} : g.edge i = .ok e ↔ g.edge? i = some e := by
  rw [edge]
  split <;> simp_all

theorem node_eq_ok {k : Int} : g.node k = .ok n ↔ g.node? k = some n := by
  rw [node]
  split <;> simp_all

theorem nodeAt_eq_ok {stop : Option Int} (h : g.nodeAt stop = .ok n) :
    ∃ k, stop = some k ∧ g.node? k = some n := by
  cases stop with
  | none => cases h
  | some k => exact ⟨k, rfl, node_eq_ok.1 h⟩

theorem edge?_putEdge (i j : Int) (e : Edge) :
    (g.putEdge i e).edge? j = if j = i then some e else g.edge? j :=
  Table.get?_insert g.edges j i e

theorem putEdge_view (i : Int) (e : Edge) :
    (g.putEdge i e).view = (g.view.setSource i e.source).setTarget i e.target := by
  ext1
  · rfl
  · funext j
    by_cases hj : j = i <;> simp [view, View.setSource, View.setTarget, edge?_putEdge, hj]
  · funext j
    by_cases hj : j = i <;> simp [view, View.setSource, View.setTarget, edge?_putEdge, hj]

theorem setTarget_eq_ok (h : g.setTarget i k = .ok g') :
    ∃ e, g.edge? i = some e ∧ g' = g.putEdge i { e with target := k } := by
  obtain ⟨e, he, hput⟩ := bind_eq_ok.1 h
  exact ⟨e, edge_eq_ok.1 he, (pure_eq_ok.1 hput).symm⟩

theorem setSource_eq_ok (h : g.setSource i k = .ok g') :
    ∃ e, g.edge? i = some e ∧ g' = g.putEdge i { e with source := k } := by
  obtain ⟨e, he, hput⟩ := bind_eq_ok.1 h
  exact ⟨e, edge_eq_ok.1 he, (pure_eq_ok.1 hput).symm⟩

theorem setTarget_view (h : g.setTarget i k = .ok g') : g'.view = g.view.setTarget i k := by
  obtain ⟨e, he, rfl⟩ := setTarget_eq_ok h
  rw [putEdge_view, View.setSource_self (by simp [view, he])]

theorem setSource_view (h : g.setSource i k = .ok g') : g'.view = g.view.setSource i k := by
  obtain ⟨e, he, rfl⟩ := setSource_eq_ok h
  rw [putEdge_view, View.setTarget_self (by simp [View.setSource, view, he])]

theorem setTargets_view (h : g.setTargets ids k = .ok g') : g'.view = g.view.setTargets ids k := by
  induction ids generalizing g with
  | nil =>
    cases h
    simp [View.setTargets]
  | cons _ _ ih =>
    obtain ⟨g₁, hfirst, hrest⟩ := bind_eq_ok.1 h
    rw [ih hrest, setTarget_view hfirst, View.setTargets_cons]

theorem setSources_view (h : g.setSources ids k = .ok g') : g'.view = g.view.setSources ids k := by
  induction ids generalizing g with
  | nil =>
    cases h
    simp [View.setSources]
  | cons _ _ ih =>
    obtain ⟨g₁, hfirst, hrest⟩ := bind_eq_ok.1 h
    rw [ih hrest, setSource_view hfirst, View.setSources_cons]

/-- An edge is filed only under a number that is not in use. -/
theorem insertEdge_eq_ok {e : Edge} :
    g.insertEdge e = .ok g' ↔ g.edge? e.channel.ident = none ∧
    g' = g.putEdge e.channel.ident e := by
  rw [insertEdge, Table.contains, show g.edges.get? e.channel.ident =
    g.edge? e.channel.ident from rfl]
  cases g.edge? e.channel.ident <;> simp [eq_comm]

theorem addEdge_eq_ok {c : Channel Int} :
    g.addEdge c = .ok g' ↔ g.edge? c.ident = none ∧ g' = g.putEdge c.ident { channel := c } :=
  insertEdge_eq_ok

/-- An edge with two open ends is not seen. -/
theorem addEdge_view {c : Channel Int} (h : g.addEdge c = .ok g') : g'.view = g.view := by
  obtain ⟨hnone, rfl⟩ := addEdge_eq_ok.1 h
  rw [putEdge_view, View.setSource_self (by simp [view, hnone]),
    View.setTarget_self (by simp [view, hnone])]

theorem addEdges_view {cs : List (Channel Int)} (h : g.addEdges cs = .ok g') : g'.view = g.view :=
  Except.foldlM_keeps (P := fun g' => g'.view = g.view)
    (fun _ _ _ _ hold hadd => (addEdge_view hadd).trans hold) rfl h

theorem addNode_view (h : g.addNode n = .ok g') : g'.view = g.view.add n := by
  obtain ⟨g₁, htargets, hsources⟩ := bind_eq_ok.1 h
  rw [setSources_view hsources, setTargets_view htargets]
  ext1
  · funext k
    exact Table.get?_insert g.nodes k n.id n
  · rfl
  · rfl

theorem addNodes_view {ns : List Node} (h : g.addNodes ns = .ok g') :
    g'.view = ns.foldl View.add g.view := by
  induction ns generalizing g with
  | nil =>
    cases h
    rfl
  | cons _ _ ih =>
    obtain ⟨g₁, hfirst, hrest⟩ := bind_eq_ok.1 h
    rw [ih hrest, addNode_view hfirst, foldl_cons]

theorem removeNode_view {k : Int} (h : g.removeNode k = .ok g') :
    ∃ n, g.node? k = some n ∧ (n.id = k → g'.view = g.view.remove n) := by
  obtain ⟨n, hn, hrest⟩ := bind_eq_ok.1 h
  obtain ⟨g₁, htargets, hsources⟩ := bind_eq_ok.1 hrest
  refine ⟨n, node_eq_ok.1 hn, fun hid => ?_⟩
  rw [setSources_view hsources, setTargets_view htargets]
  ext1
  · funext j
    rw [View.remove, hid]
    exact Table.get?_erase g.nodes j k
  · rfl
  · rfl

theorem previousNodes_eq_ok {k : Int} {before : List Int} (h : g.previousNodes k = .ok before) :
    ∃ n, g.node? k = some n ∧ before = n.inputs.filterMap g.view.source := by
  obtain ⟨ins, hins, h⟩ := bind_eq_ok.1 h
  obtain ⟨n, hn, hins⟩ := map_eq_ok.1 hins
  subst hins
  obtain ⟨sources, hsources, h⟩ := bind_eq_ok.1 h
  cases h
  refine ⟨n, node_eq_ok.1 hn, ?_⟩
  have hmap : sources = n.inputs.map g.view.source := by
    refine Except.mapM_eq_map (fun i stop hstop => ?_) hsources
    obtain ⟨e, he, hstop⟩ := bind_eq_ok.1 hstop
    obtain ⟨_, _, hstop⟩ := bind_eq_ok.1 hstop
    cases hstop
    show e.source = (g.edge? i).bind Edge.source
    rw [edge_eq_ok.1 he]
    rfl
  rw [hmap, filterMap_map]
  rfl

/-- So many numbers from the next one on. -/
def freshIds (next : Int) : Nat → List Int
  | 0 => []
  | k + 1 => next :: freshIds (next + 1) k

theorem mem_freshIds {next : Int} {k : Nat} : i ∈ freshIds next k ↔ next ≤ i ∧ i < next + k := by
  induction k generalizing next with
  | zero => simp [freshIds]
  | succ k ih => simp [freshIds, ih]; omega

theorem nodup_freshIds (k : Nat) : (freshIds next k).Nodup := by
  induction k generalizing next with
  | zero => exact nodup_nil
  | succ k ih =>
    refine nodup_cons.2 ⟨fun hmem => ?_, ih (next + 1)⟩
    have := mem_freshIds.1 hmem
    omega

@[simp] theorem length_freshIds (k : Nat) : (freshIds next k).length = k := by
  induction k generalizing next with
  | zero => rfl
  | succ k ih => simp [freshIds, ih]

theorem freshIds_append (a b : Nat) :
    freshIds next (a + b) = freshIds next a ++ freshIds (next + a) b := by
  induction a generalizing next with
  | zero => simp [freshIds]
  | succ a ih =>
    have hlast : next + 1 + (a : Int) = next + ((a + 1 : Nat) : Int) := by omega
    rw [Nat.succ_add, freshIds, freshIds, ih, hlast, cons_append]

theorem freshPipes_spec (s : ChannelSource) (k : Nat) :
    (s.freshPipes k).1.map (·.ident) = freshIds s.next k ∧
    (s.freshPipes k).2.next = s.next + k := by
  induction k generalizing s with
  | zero => simp [ChannelSource.freshPipes, freshIds]
  | succ k ih =>
    obtain ⟨hids, hnext⟩ := ih s.freshEphemeral.2
    have hfirst : s.freshEphemeral.2.next = s.next + 1 := rfl
    rw [hfirst] at hids hnext
    constructor
    · rw [freshIds, ← hids]
      rfl
    · show (s.freshEphemeral.2.freshPipes k).2.next = _
      omega

theorem addPipes_view {s s' : ChannelSource} {k : Nat} (h : g.addPipes s k = .ok (g', ids, s')) :
    g'.view = g.view ∧ ids = freshIds s.next k ∧ s'.next = s.next + k := by
  obtain ⟨g₁, hadd, hret⟩ := bind_eq_ok.1 h
  have hret := pure_eq_ok.1 hret
  obtain ⟨hids, hnext⟩ := freshPipes_spec s k
  cases hret
  exact ⟨addEdges_view hadd, hids, hnext⟩

end Graph

/-! ### Sound views -/

/-- At one side, the ends of the edges are where the nodes say. -/
def Listed (node : Int → Option Node) (edges : Node → List Int) (stop : Int → Option Int) : Prop :=
  ∀ i k, stop i = some k ↔ ∃ m, node k = some m ∧ i ∈ edges m

namespace Listed

variable {node : Int → Option Node} {edges : Node → List Int} {stop : Int → Option Int} {n : Node}

theorem eq_none_iff (h : Listed node edges stop) {i : Int} :
    stop i = none ↔ ∀ k m, node k = some m → i ∉ edges m := by
  rw [Option.eq_none_iff_forall_ne_some]
  constructor
  · intro hne k m hm hi
    exact hne k ((h i k).2 ⟨m, hm, hi⟩)
  · intro hno k hk
    obtain ⟨m, hm, hi⟩ := (h i k).1 hk
    exact hno k m hm hi

theorem add (h : Listed node edges stop) (hid : node n.id = none)
    (hfree : ∀ i ∈ edges n, stop i = none) :
      Listed (fun k => if k = n.id then some n else node k) edges
      (fun i => if i ∈ edges n then some n.id else stop i) := by
  intro i k
  by_cases hk : k = n.id
  · subst hk
    have hother : stop i ≠ some n.id := by
      intro hstop
      obtain ⟨m, hm, -⟩ := (h i n.id).1 hstop
      rw [hid] at hm
      cases hm
    by_cases hi : i ∈ edges n <;> simp [hi, hother]
  · by_cases hi : i ∈ edges n
    · have hno := h.eq_none_iff.1 (hfree i hi) k
      simpa [hk, hi, Ne.symm hk] using hno
    · simpa [hk, hi] using h i k

theorem remove (h : Listed node edges stop) (hn : node n.id = some n) :
    Listed (fun k => if k = n.id then none else node k) edges
      (fun i => if i ∈ edges n then none else stop i) := by
  intro i k
  have hown : i ∈ edges n → stop i = some n.id := fun hi => (h i n.id).2 ⟨n, hn, hi⟩
  by_cases hk : k = n.id
  · subst hk
    have hout : stop i = some n.id → i ∈ edges n := by
      intro hstop
      obtain ⟨m, hm, hi⟩ := (h i n.id).1 hstop
      rw [hn] at hm
      cases hm
      exact hi
    by_cases hi : i ∈ edges n
    · simp [hi]
    · simpa [hi] using fun hstop => hi (hout hstop)
  · by_cases hi : i ∈ edges n
    · have hne : stop i ≠ some k := by simpa [hown hi] using Ne.symm hk
      simpa [hk, hi] using fun m hm him => hne ((h i k).2 ⟨m, hm, him⟩)
    · simpa [hk, hi] using h i k

end Listed

namespace View

/-- Nodes are filed under their numbers; the ends of an edge are the nodes that list it; node
numbers are below `count` and edge numbers below `next`. -/
structure Sound (v : View) (count next : Int) : Prop where
  id_eq {k : Int} {m : Node} : v.node k = some m → m.id = k
  id_lt {k : Int} {m : Node} : v.node k = some m → k < count
  source : Listed v.node Node.outputs v.source
  target : Listed v.node Node.inputs v.target
  inputs_lt {k : Int} {m : Node} : v.node k = some m → ∀ i ∈ m.inputs, i < next
  outputs_lt {k : Int} {m : Node} : v.node k = some m → ∀ i ∈ m.outputs, i < next

namespace Sound

variable {v : View} {count next count' next' : Int} {n : Node} {i : Int}

section

variable (h : v.Sound count next)
include h

theorem source_of_le (hi : next ≤ i) : v.source i = none :=
  h.source.eq_none_iff.2 fun _ _ hm hmem => absurd (h.outputs_lt hm i hmem) (by omega)

theorem lt_of_source (hi : v.source i ≠ none) : i < next :=
  Int.not_le.1 fun hle => hi (h.source_of_le hle)

theorem target_of_le (hi : next ≤ i) : v.target i = none :=
  h.target.eq_none_iff.2 fun _ _ hm hmem => absurd (h.inputs_lt hm i hmem) (by omega)

theorem node_of_le {k : Int} (hk : count ≤ k) : v.node k = none := by
  rw [Option.eq_none_iff_forall_ne_some]
  intro m hm
  have := h.id_lt hm
  omega

theorem mono (hcount : count ≤ count') (hnext : next ≤ next') : v.Sound count' next' :=
  ⟨h.id_eq, fun hm => Int.lt_of_lt_of_le (h.id_lt hm) hcount, h.source, h.target,
    fun hm i hi => Int.lt_of_lt_of_le (h.inputs_lt hm i hi) hnext,
    fun hm i hi => Int.lt_of_lt_of_le (h.outputs_lt hm i hi) hnext⟩

end

/-- A node with a new number joins: nobody writes what it writes, and nobody reads what it reads. -/
theorem add (h : v.Sound count next) (hid : v.node n.id = none) (hlt : n.id < count')
    (hcount : count ≤ count') (hnext : next ≤ next')
    (hin : ∀ i ∈ n.inputs, i < next' ∧ v.target i = none)
    (hout : ∀ i ∈ n.outputs, i < next' ∧ v.source i = none) : (v.add n).Sound count' next' := by
  refine ⟨fun hm => ?_, fun hm => ?_, h.source.add hid fun i hi => (hout i hi).2,
    h.target.add hid fun i hi => (hin i hi).2, fun hm i hi => ?_, fun hm i hi => ?_⟩
  · obtain ⟨rfl, rfl⟩ | hm := node_of_add hm
    · rfl
    · exact h.id_eq hm
  · obtain ⟨rfl, rfl⟩ | hm := node_of_add hm
    · exact hlt
    · exact Int.lt_of_lt_of_le (h.id_lt hm) hcount
  · obtain ⟨rfl, rfl⟩ | hm := node_of_add hm
    · exact (hin i hi).1
    · exact Int.lt_of_lt_of_le (h.inputs_lt hm i hi) hnext
  · obtain ⟨rfl, rfl⟩ | hm := node_of_add hm
    · exact (hout i hi).1
    · exact Int.lt_of_lt_of_le (h.outputs_lt hm i hi) hnext

theorem remove (h : v.Sound count next) (hn : v.node n.id = some n) :
    (v.remove n).Sound count next :=
  ⟨fun hm => h.id_eq (node_of_remove hm).2, fun hm => h.id_lt (node_of_remove hm).2,
    h.source.remove hn, h.target.remove hn, fun hm => h.inputs_lt (node_of_remove hm).2,
    fun hm => h.outputs_lt (node_of_remove hm).2⟩

end Sound

end View

namespace Graph

variable {g : Graph} {count i k last : Int}

theorem allM_eq_true {α : Type} {p : α → Except Fault Bool} {as : List α}
    (h : allM p as = .ok true) : ∀ a ∈ as, p a = .ok true := by
  induction as with
  | nil => simp
  | cons _ _ ih =>
    obtain ⟨b, hb, hrest⟩ := bind_eq_ok.1 h
    cases b with
    | false => cases hrest
    | true => exact forall_mem_cons.2 ⟨hb, ih hrest⟩

theorem endListed_eq_true {stop : Option Int} {edges : Node → List Int}
    (h : g.endListed stop edges i = .ok true) (hstop : stop = some k) :
    ∃ m, g.node? k = some m ∧ i ∈ edges m := by
  subst hstop
  obtain ⟨m, hm, hmem⟩ := bind_eq_ok.1 h
  exact ⟨m, node_eq_ok.1 hm, by simpa using pure_eq_ok.1 hmem⟩

theorem consistent_edges (h : g.consistent? = .ok true) :
    (g.view.source i = some k → ∃ m, g.node? k = some m ∧ i ∈ m.outputs) ∧
      (g.view.target i = some k → ∃ m, g.node? k = some m ∧ i ∈ m.inputs) := by
  obtain ⟨b, hedges, hrest⟩ := bind_eq_ok.1 h
  cases b with
  | false => cases hrest
  | true =>
    have hends : ∀ e, g.edge? i = some e → g.endListed e.source Node.outputs i = .ok true ∧
        g.endListed e.target Node.inputs i = .ok true := by
      intro e he
      have hagrees := allM_eq_true hedges (i, e) (Table.mem_entries_of_get? he)
      obtain ⟨b, hsource, htarget⟩ := bind_eq_ok.1 hagrees
      cases b with
      | false => cases htarget
      | true => exact ⟨hsource, htarget⟩
    constructor
    · intro hs
      obtain ⟨e, he, hs⟩ := Option.bind_eq_some_iff.1 hs
      exact endListed_eq_true (hends e he).1 hs
    · intro ht
      obtain ⟨e, he, ht⟩ := Option.bind_eq_some_iff.1 ht
      exact endListed_eq_true (hends e he).2 ht

theorem consistent_nodes (h : g.consistent? = .ok true) {m : Node} (hm : g.node? k = some m) :
    (∀ i ∈ m.inputs, g.view.target i = some k) ∧ ∀ i ∈ m.outputs, g.view.source i = some k := by
  obtain ⟨b, -, hrest⟩ := bind_eq_ok.1 h
  cases b with
  | false => cases hrest
  | true =>
    have hagrees := allM_eq_true hrest (k, m) (Table.mem_entries_of_get? hm)
    obtain ⟨b, hin, hout⟩ := bind_eq_ok.1 hagrees
    cases b with
    | false => cases hout
    | true =>
      have hend : ∀ {stop : Edge → Option Int} {i : Int},
          (do return stop (← g.edge i) == some k : Except Fault Bool) = .ok true →
            (g.edge? i).bind stop = some k := by
        intro stop i heq
        obtain ⟨e, he, hstop⟩ := bind_eq_ok.1 heq
        rw [edge_eq_ok.1 he]
        simpa using pure_eq_ok.1 hstop
      exact ⟨fun i hi => hend (allM_eq_true hin i hi), fun i hi => hend (allM_eq_true hout i hi)⟩

theorem le_lastEdge (hlast : g.lastEdge = .ok last) (hi : i ∈ g.edges.keys) : i ≤ last := by
  have hmax : ∀ (ks : List Int) (a : Int), a ≤ ks.foldl max a ∧ ∀ k ∈ ks, k ≤ ks.foldl max a := by
    intro ks
    induction ks with
    | nil => simp
    | cons k ks ih =>
      intro a
      obtain ⟨hle, hall⟩ := ih (max a k)
      rw [foldl_cons]
      refine ⟨by omega, fun j hj => ?_⟩
      obtain rfl | hj := mem_cons.1 hj
      · omega
      · exact hall j hj
  unfold lastEdge at hlast
  split at hlast
  · cases hlast
  · rename_i k ks hkeys
    cases hlast
    rw [hkeys] at hi
    obtain rfl | hi := mem_cons.1 hi
    · exact (hmax ks i).1
    · exact (hmax ks k).2 i hi

/-- In a graph whose edges and nodes agree, the ends of the edges are where the nodes say. -/
theorem listed_of_consistent (hcons : g.consistent? = .ok true) :
    Listed g.node? Node.outputs g.view.source ∧ Listed g.node? Node.inputs g.view.target := by
  constructor
  · intro i k
    refine ⟨(consistent_edges hcons).1, ?_⟩
    rintro ⟨m, hm, hi⟩
    exact (consistent_nodes hcons hm).2 i hi
  · intro i k
    refine ⟨(consistent_edges hcons).2, ?_⟩
    rintro ⟨m, hm, hi⟩
    exact (consistent_nodes hcons hm).1 i hi

/-- **A graph whose edges and nodes agree has a sound view.** -/
theorem sound_of_lt {next : Int} (hcons : g.consistent? = .ok true)
    (hedges : ∀ i e, g.edge? i = some e → i < next)
    (hnum : ∀ k m, g.node? k = some m → m.id = k ∧ k < count) : g.view.Sound count next := by
  have hlt : ∀ {i k : Int} {stop : Edge → Option Int}, (g.edge? i).bind stop = some k →
      i < next := by
    intro i k stop hstop
    obtain ⟨e, he, -⟩ := Option.bind_eq_some_iff.1 hstop
    exact hedges i e he
  exact ⟨fun hm => (hnum _ _ hm).1, fun hm => (hnum _ _ hm).2, (listed_of_consistent hcons).1,
    (listed_of_consistent hcons).2, fun hm i hi => hlt ((consistent_nodes hcons hm).1 i hi),
    fun hm i hi => hlt ((consistent_nodes hcons hm).2 i hi)⟩

theorem sound_view (hcons : g.consistent? = .ok true) (hlast : g.lastEdge = .ok last)
    (hnum : ∀ k m, g.node? k = some m → m.id = k ∧ k < count) : g.view.Sound count (last + 1) := by
  refine sound_of_lt hcons (fun i e he => ?_) hnum
  have := le_lastEdge hlast (Table.mem_keys_of_get? he)
  omega

end Graph

end ShellFlow
