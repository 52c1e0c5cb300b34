import Mathlib.Data.List.Basic
import Mathlib.Data.List.Induction
import ShellFlow.Proofs.Graph.Streams
import ShellFlow.Proofs.Graph.Validity

/-!
# Joins of writers and readers

Where a file is read on one edge and written on another, the edge that is read is put in the place
of the other, and gets its writer.  One writer can be joined in this way to an edge.
-/

namespace ShellFlow

open List

variable {α β ε : Type}

theorem Table.exists_get? {κ : Type} [DecidableEq κ] {t : Table κ α} {k : κ} (h : k ∈ t.keys) :
    ∃ a, t.get? k = some a :=
  Option.isSome_iff_exists.1 (Table.contains_iff_mem_keys.2 h)

theorem Resource.isFile_of_sameFile {r r' : Resource} (h : r.sameFile r') : r'.isFile := by
  cases r <;> cases r' <;> first | rfl | cases h

namespace Graph

variable {g g' g'' c c' : Graph} {i j k n o x : Int} {done done' : List (Int × Int)}
  {es : List (Int × Edge)}
  {ids : List Int} {r : Resource}

/-! ### What nodes list -/

def inputsAt (g : Graph) (k : Int) : List Int := (g.node? k).elim [] Node.inputs

def outputsAt (g : Graph) (k : Int) : List Int := (g.node? k).elim [] Node.outputs

theorem mem_inputsAt : i ∈ g.inputsAt k ↔ ∃ m, g.node? k = some m ∧ i ∈ m.inputs := by
  cases h : g.node? k <;> simp [inputsAt, h]

theorem mem_outputsAt : i ∈ g.outputsAt k ↔ ∃ m, g.node? k = some m ∧ i ∈ m.outputs := by
  cases h : g.node? k <;> simp [outputsAt, h]

theorem mem_edges_of_outputsAt (hcons : g.consistent? = .ok true) (hi : i ∈ g.outputsAt k) :
    i ∈ g.edges.keys := by
  obtain ⟨e, he, -⟩ :=
    Option.bind_eq_some_iff.1 (((listed_of_consistent hcons).1 i k).2 (mem_outputsAt.1 hi))
  exact Table.mem_keys_of_get? he

/-- Edge `x` stands at some places of the nodes, and the rest of what they list is kept. -/
structure Puts (g : Graph) (x : Int) (done : List (Int × Int)) (g' : Graph) : Prop where
  nodes : g'.nodes.keys = g.nodes.keys
  inputs k : g'.inputsAt k = (g.inputsAt k).map fun i => if (k, i) ∈ done then x else i
  outputs k : g'.outputsAt k = (g.outputsAt k).map fun i => if (k, i) ∈ done then x else i

theorem puts_nil (h : g'.nodes = g.nodes) : g.Puts x [] g' := by
  refine ⟨by rw [h], fun k => ?_, fun k => ?_⟩ <;> simp [inputsAt, outputsAt, node?, h]

theorem Puts.trans (h : g.Puts x done g') (h' : g'.Puts x done' g'') (hx : ∀ k, (k, x) ∉ done') :
    g.Puts x (done ++ done') g'' := by
  refine ⟨h'.nodes.trans h.nodes, fun k => ?_, fun k => ?_⟩
  · rw [h'.inputs, h.inputs, map_map]
    exact map_congr_left fun i _ => by grind
  · rw [h'.outputs, h.outputs, map_map]
    exact map_congr_left fun i _ => by grind

/-- An edge can be put in the place of another in a node. -/
theorem exists_replaceInNode (hn : n ∈ g.nodes.keys) (o x : Int) :
    ∃ g', g.replaceInNode n o x = .ok g' ∧ g'.edges = g.edges ∧ g.Puts x [(n, o)] g' := by
  obtain ⟨m, hm⟩ := Table.exists_get? hn
  have hnode : ∀ k, (g.putNode n (m.replaceEdge o x)).node? k = if k =
    n then some (m.replaceEdge o x) else g.node? k :=
    fun k => Table.get?_insert g.nodes k n _
  refine ⟨_, bind_eq_ok.2 ⟨m, node_eq_ok.2 hm, rfl⟩, rfl, (Table.keys_insert ..).trans (if_pos hn),
    fun k => ?_, fun k => ?_⟩
  · by_cases hk : k = n
    · simp [inputsAt, hnode, hk, show g.node? n = some m from hm, Node.inputs_replaceEdge,
        Invocation.replaceIn]
    · simp [inputsAt, hnode, hk]
  · by_cases hk : k = n
    · simp [outputsAt, hnode, hk, show g.node? n = some m from hm, Node.outputs_replaceEdge,
        Invocation.replaceIn]
    · simp [outputsAt, hnode, hk]

/-! ### Files of edges -/

def resource? (g : Graph) (i : Int) : Option Resource := (g.edge? i).bind (·.channel.resource)

/-- The edge stands for a file. -/
def isFile (g : Graph) (i : Int) : Bool := (g.resource? i).any Resource.isFile

/-- Whether two edges stand for the same file. -/
def sameFile (g : Graph) (i j : Int) : Bool :=
    (g.resource? i).any fun r => (g.resource? j).any r.sameFile

/-- The places at which a node writes edges that pass a test: the node, and one of its outputs. -/
def placesAt (g : Graph) (test : Int → Bool) (k : Int) : List (Int × Int) :=
  ((g.outputsAt k).filter test).map (k, ·)

/-- The places at which edges that pass a test are written. -/
def places (g : Graph) (test : Int → Bool) : List (Int × Int) :=
    g.nodes.keys.flatMap (g.placesAt test)

/-- Where the file of an edge is written. -/
def writings (g : Graph) (i : Int) : List (Int × Int) := g.places (g.sameFile i)

def isRival (g : Graph) (i o : Int) : Bool := i ≠ o && g.sameFile i o

/-- The places at which the file of an edge is written on another edge. -/
def rivals (g : Graph) (i : Int) : List (Int × Int) := g.places (g.isRival i)

theorem isFile_iff : g.isFile i ↔ ∃ e, g.edge? i = some e ∧ e.channel.isFile := by
  cases h : g.edge? i <;> simp [isFile, resource?, h, Channel.isFile]

theorem isFile_of_sameFile (h : g.sameFile i j) : g.isFile j := by
  obtain ⟨r, -, h⟩ := (Option.any_eq_true _ _).1 h
  obtain ⟨r', hr', h⟩ := (Option.any_eq_true _ _).1 h
  rw [isFile, hr']
  exact Resource.isFile_of_sameFile h

theorem mem_places {test : Int → Bool} : (k, o) ∈ g.places test ↔ o ∈ g.outputsAt k ∧ test o := by
  simp only [places, placesAt, mem_flatMap, mem_map, mem_filter, Prod.mk.injEq]
  constructor
  · rintro ⟨k, -, o, h, rfl, rfl⟩
    exact h
  · intro h
    obtain ⟨m, hm, -⟩ := mem_outputsAt.1 h.1
    exact ⟨k, Table.mem_keys_of_get? hm, o, h, rfl, rfl⟩

theorem mem_rivals : (k, o) ∈ g.rivals i ↔ o ∈ g.outputsAt k ∧ i ≠ o ∧ g.sameFile i o := by
  simp [rivals, mem_places, isRival]

theorem rivals_eq_filter (g : Graph) (i : Int) :
    g.rivals i = (g.writings i).filter fun p => i ≠ p.2 := by
  unfold rivals writings places
  rw [filter_flatMap]
  refine flatMap_congr fun k _ => ?_
  rw [placesAt, placesAt, filter_map, filter_filter]
  rfl

/-- The edges of a list that stand for files, and pass a test. -/
theorem fileEdges_filter (h : g.edgesOf ids = .ok es) (test : Int × Resource → Bool) :
    ((fileEdges es).filter test).map (·.1) =
      ids.filter fun i => (g.resource? i).any fun r => r.isFile && test (i, r) := by
  rw [← edgesOf_map_fst h]
  have hes := edge_of_mem_edgesOf h
  clear h
  induction es with
  | nil => rfl
  | cons p _ ih =>
    obtain ⟨⟨i, e⟩, hp, hes⟩ := p, forall_mem_cons.1 hes
    rw [map_cons, filter_cons, ← ih hes, resource?, hp]
    cases hr : e.channel.resource with
    | none => simp [fileEdges, hr]
    | some r => cases hf : r.isFile <;> cases ht : test (i, r) <;> simp [fileEdges, hr, hf, ht]

theorem mem_fileEdges {f : Int × Resource} (h : g.edgesOf ids = .ok es) (hf : f ∈ fileEdges es) :
    f.1 ∈ ids ∧ g.resource? f.1 = some f.2 ∧ g.isFile f.1 := by
  obtain ⟨⟨i, e⟩, he, hfile⟩ := mem_filterMap.1 hf
  have hedge : g.edge? i = some e := edge_of_mem_edgesOf h (i, e) he
  have hmem : i ∈ ids := edgesOf_map_fst h ▸ mem_map_of_mem he
  dsimp only at hfile
  split at hfile
  · next r hr =>
    obtain ⟨hisFile, hfile⟩ := Option.ite_none_right_eq_some.1 hfile
    cases hfile
    exact ⟨hmem, by simp [resource?, hedge, hr], by simp [isFile, resource?, hedge, hr, hisFile]⟩
  · cases hfile

/-- The files that a node reads are taken up one by one. -/
theorem joinInputs_eq {m : Node} {ins : List (Int × Edge)} (hm : g.node? k = some m)
    (hins : g.edgesOf m.inputs = .ok ins) :
    joinInputs g k = (fileEdges ins).foldlM joinWriters g := by
  have hedges : g.inputEdges k = .ok ins :=
    bind_eq_ok.2 ⟨m.inputs, bind_eq_ok.2 ⟨m, node_eq_ok.2 hm, rfl⟩, hins⟩
  rw [joinInputs, hedges]
  rfl

/-! ### Joins to one edge -/

/-- Two graphs with the same nodes and edges, apart from what the nodes list and who writes the
edges. -/
structure Kept (g c : Graph) : Prop where
  nodes : c.nodes.keys = g.nodes.keys
  edges : c.edges.keys = g.edges.keys
  edge i : (c.edge? i).map (fun e => (e.channel, e.target)) = (g.edge? i).map fun e =>
    (e.channel, e.target)

/-- The node that writes an edge behind the joins at some places. -/
def writerAfter (g : Graph) (done : List (Int × Int)) (x : Int) : Option Int :=
  (done.getLast?.map (·.1)).or (g.view.source x)

/-- What becomes of a graph when edge `x` is put in the places of others. -/
structure Joins (c : Graph) (x : Int) (done : List (Int × Int)) (c' : Graph) : Prop
    extends Kept c c', c.Puts x done c' where
  idle : done = [] → c' = c
  source i : c'.view.source i =
    if i = x then c.writerAfter done x else if i ∈ done.map (·.2) then none else c.view.source i

namespace Kept

theorem trans (h : Kept g c) (h' : Kept c c') : Kept g c' :=
  ⟨h'.nodes.trans h.nodes, h'.edges.trans h.edges, fun i => (h'.edge i).trans (h.edge i)⟩

theorem resource? (h : Kept g c) : c.resource? = g.resource? := by
  funext i
  have hedge := congrArg (Option.bind · (·.1.resource)) (h.edge i)
  simpa [Graph.resource?, Option.bind_map, Function.comp_def] using hedge

theorem isFile (h : Kept g c) : c.isFile = g.isFile := by
  funext i
  rw [Graph.isFile, Graph.isFile, h.resource?]

theorem sameFile (h : Kept g c) : c.sameFile = g.sameFile := by
  funext i j
  rw [Graph.sameFile, Graph.sameFile, h.resource?]

theorem exists_edge (h : Kept g c) (hi : i ∈ g.edges.keys) : ∃ e, c.edge? i = some e :=
    Table.exists_get? (h.edges ▸ hi)

theorem exists_node (h : Kept g c) (hk : k ∈ g.nodes.keys) : ∃ m, c.node? k = some m :=
    Table.exists_get? (h.nodes ▸ hk)

theorem target (h : Kept g c) (i : Int) : c.view.target i = g.view.target i := by
  have hedge := congrArg (Option.bind · (·.2)) (h.edge i)
  simpa [view, Option.bind_map, Function.comp_def] using hedge

end Kept

theorem kept_putEdge {e d : Edge} (he : c.edge? i = some e)
    (hd : (d.channel, d.target) = (e.channel, e.target)) : Kept c (c.putEdge i d) := by
  refine ⟨rfl, (Table.keys_insert ..).trans (if_pos (Table.mem_keys_of_get? he)), fun j => ?_⟩
  rw [edge?_putEdge]
  split
  · next hj => rw [hj, he, Option.map_some, Option.map_some, hd]
  · rfl

/-- One join more. -/
theorem Joins.push (h : c.Joins x done c') (hx : x ∈ c.edges.keys) (hn : n ∈ c.nodes.keys)
    (ho : o ∈ c.edges.keys) (hne : x ≠ o) : ∃ c₁ c₂ c₃, c'.replaceInNode n o x = .ok c₁ ∧
      c₁.setSource x (some n) = .ok c₂ ∧ c₂.setSource o none = .ok c₃ ∧
      c.Joins x (done ++ [(n, o)]) c₃ := by
  obtain ⟨c₁, h₁, hedges, hputs⟩ := exists_replaceInNode (h.nodes ▸ hn) o x
  have hkept₁ : Kept c' c₁ := ⟨hputs.nodes, by rw [hedges], fun i => by rw [edge?, edge?, hedges]⟩
  obtain ⟨e, he⟩ := (h.toKept.trans hkept₁).exists_edge hx
  let c₂ := c₁.putEdge x { e with source := some n }
  have hkept₂ : Kept c c₂ := (h.toKept.trans hkept₁).trans (kept_putEdge he rfl)
  obtain ⟨d, hd⟩ := hkept₂.exists_edge ho
  have hputs := h.toPuts.trans hputs fun k hk => hne (Prod.mk.inj (mem_singleton.1 hk)).2
  refine ⟨c₁, c₂, c₂.putEdge o { d with source := none }, h₁,
    bind_eq_ok.2 ⟨e, edge_eq_ok.2 he, rfl⟩,
    bind_eq_ok.2 ⟨d, edge_eq_ok.2 hd, rfl⟩, hkept₂.trans (kept_putEdge hd rfl), hputs.inputs,
    hputs.outputs, by simp, fun i => ?_⟩
  have hmem : i ∈ (done ++ [(n, o)]).map (·.2) ↔ i ∈ done.map (·.2) ∨ i = o := by
    rw [map_append, mem_append, map_singleton, mem_singleton]
  have hends : (c₂.putEdge o { d with source := none }).view.source i =
      if i = o then none else if i = x then some n else c'.view.source i := by
    show ((c₂.putEdge o { d with source := none }).edge? i).bind Edge.source = _
    rw [edge?_putEdge, edge?_putEdge, edge?, hedges]
    split
    · rfl
    · split <;> rfl
  rw [hends, h.source]
  rcases eq_or_ne i x with rfl | hi
  · simp [hne, writerAfter]
  · by_cases hi' : i = o <;> grind

/-- What has become of a graph, and how many joins that took. -/
def Tally (c : Graph) (x : Int) (done : List (Int × Int)) (acc : Graph × Nat) : Prop :=
  c.Joins x done acc.1 ∧ acc.2 = done.length

theorem Tally.outputsOf {acc : Graph × Nat} (h : c.Tally x done acc) (hx : c.resource? x = some r)
    (hn : n ∈ c.nodes.keys) (hedges : ∀ o ∈ c.outputsAt n, o ∈ c.edges.keys)
    (hnew : ∀ o, (n, o) ∉ done) : ∃ acc', (do
      let outs ← acc.1.outputEdges n
      (fileEdges outs).foldlM (joinWriter (x, r) n) acc) = .ok acc' ∧
        c.Tally x (done ++ c.placesAt (c.isRival x) n) acc' := by
  obtain ⟨m, hm⟩ := h.1.exists_node hn
  have houtputs : m.outputs = c.outputsAt n := by
    have houtputs := h.1.outputs n
    simpa [outputsAt, hm, hnew] using houtputs
  obtain ⟨outs, houts⟩ : ∃ outs, acc.1.edgesOf m.outputs = .ok outs :=
    exists_edgesOf fun o ho => h.1.exists_edge (hedges o (houtputs ▸ ho))
  have hedge : x ∈ c.edges.keys := by
    obtain ⟨e, he, -⟩ := Option.bind_eq_some_iff.1 hx
    exact Table.mem_keys_of_get? he
  let test : Int × Resource → Bool := fun f => x ≠ f.1 ∧ r.sameFile f.2
  have hinner : ∃ acc', (fileEdges outs).foldlM (joinWriter (x, r) n) acc = .ok acc' ∧
      c.Tally x (done ++ ((fileEdges outs).filter test).map fun f => (n, f.1)) acc' := by
    refine (Except.foldlM_cases (E := fun _ => False)
      (P := fun fs acc => c.Tally x (done ++ (fs.filter test).map fun f => (n, f.1)) acc)
        (by simpa using h)
      fun fs f rest acc' hsplit hacc => .inr ?_).resolve_left (by simp)
    have hmem := (mem_fileEdges houts (by simp [hsplit] : f ∈ fileEdges outs)).1
    unfold joinWriter
    by_cases ht : x ≠ f.1 ∧ r.sameFile f.2 = true
    · obtain ⟨c₁, c₂, c', h₁, h₂, h₃, hpush⟩ :=
        hacc.1.push hedge hn (hedges f.1 (houtputs ▸ hmem)) ht.1
      refine ⟨(c', acc'.2 + 1), ?_, ?_⟩
      · rw [if_pos ht]
        exact bind_eq_ok.2 ⟨c₁, h₁, bind_eq_ok.2 ⟨c₂, h₂, bind_eq_ok.2 ⟨c', h₃, rfl⟩⟩⟩
      · simpa [Tally, test, ht, hacc.2, Nat.add_assoc] using hpush
    · exact ⟨acc', if_neg ht, by simpa [test, ht] using hacc⟩
  obtain ⟨acc', hfold, hacc⟩ := hinner
  refine ⟨acc', bind_eq_ok.2
    ⟨outs, bind_eq_ok.2 ⟨m.outputs, bind_eq_ok.2 ⟨m, node_eq_ok.2 hm, rfl⟩, houts⟩, hfold⟩, ?_⟩
  have hids : ((fileEdges outs).filter test).map (·.1) = (c.outputsAt n).filter (c.isRival x) := by
    rw [fileEdges_filter houts, houtputs, h.1.resource?]
    refine filter_congr fun o _ => ?_
    rw [isRival, sameFile, hx]
    cases c.resource? o with
    | none => simp
    | some r' =>
      cases hsame : r.sameFile r' <;> simp [hsame, test]
      exact fun _ => Resource.isFile_of_sameFile hsame
  rw [placesAt, ← hids, map_map]
  exact hacc

/-- **One writer can be joined to an edge.** -/
theorem joinWriters_spec (hnodes : c.nodes.keys.Nodup)
    (hedges : ∀ k, ∀ o ∈ c.outputsAt k, o ∈ c.edges.keys) (hx : c.resource? x = some r) :
    (joinWriters c (x, r) = .error .broken ∧ 2 ≤ (c.rivals x).length) ∨
      ∃ c', joinWriters c (x, r) = .ok c' ∧ (c.rivals x).length ≤ 1 ∧
      c.Joins x (c.rivals x) c' := by
  have hstart : c.Tally x [] (c, 0) := by
    refine ⟨⟨⟨rfl, rfl, fun _ => rfl⟩, by simp, by simp, fun _ => rfl, fun i => ?_⟩, rfl⟩
    by_cases hi : i = x <;> simp [hi, writerAfter]
  have hwriters : ∃ acc, c.nodes.keys.foldlM (fun acc n => do
      let outs ← acc.1.outputEdges n
      (fileEdges outs).foldlM (joinWriter (x, r) n) acc) (c, 0) = .ok acc ∧
        c.Tally x (c.rivals x) acc := by
    refine (Except.foldlM_cases (E := fun _ => False)
      (P := fun ks acc => c.Tally x (ks.flatMap (c.placesAt (c.isRival x))) acc) hstart
      fun ks n rest acc hsplit hacc => .inr ?_).resolve_left (by simp)
    rw [flatMap_append, flatMap_singleton]
    refine hacc.outputsOf hx (by simp [hsplit]) (hedges n) fun o hmem => ?_
    obtain ⟨k, hk, hmem⟩ := mem_flatMap.1 hmem
    obtain ⟨_, _, heq⟩ := mem_map.1 hmem
    rw [hsplit, nodup_append] at hnodes
    exact hnodes.2.2 k hk n mem_cons_self (congrArg Prod.fst heq)
  obtain ⟨⟨c', count⟩, hfold, hjoins, rfl⟩ := hwriters
  unfold joinWriters
  rw [hfold]
  by_cases hfew : (c.rivals x).length ≤ 1
  · exact .inr ⟨c', by simp [hfew, require, bind_eq_ok], hfew, hjoins⟩
  · exact .inl ⟨by simp [hfew, require, bind, Except.bind], by omega⟩

/-- No two edges stand for the same file. -/
def Unshared (g : Graph) : Prop :=
  ∀ i e j d, g.edge? i = some e → g.edge? j = some d → i ≠ j → ¬ e.SharesFile d

/-- **Where no file is on two edges, nothing is joined.** -/
theorem combineCommonFiles_eq_self (htidy : g.Tidy) (hcons : g.consistent? = .ok true)
    (hunshared : g.Unshared) : g.combineCommonFiles = .ok g := by
  refine Except.foldlM_eq_self fun n hn => ?_
  obtain ⟨m, hm⟩ := Table.exists_get? hn
  obtain ⟨⟨ins, hins⟩, -⟩ := exists_edgesOf_node hcons hm
  rw [joinInputs_eq hm hins]
  refine Except.foldlM_eq_self fun f hf => ?_
  have hrivals : g.rivals f.1 = [] := by
    refine eq_nil_iff_forall_not_mem.2 fun p hp => ?_
    obtain ⟨-, hne, hsame⟩ := mem_rivals.1 hp
    obtain ⟨r, hr, hsame⟩ := (Option.any_eq_true _ _).1 hsame
    obtain ⟨r', hr', hsame⟩ := (Option.any_eq_true _ _).1 hsame
    obtain ⟨e, he, hr⟩ := Option.bind_eq_some_iff.1 hr
    obtain ⟨d, hd, hr'⟩ := Option.bind_eq_some_iff.1 hr'
    exact hunshared _ e _ d he hd hne ⟨r, r', hr, hr', hsame⟩
  rcases joinWriters_spec htidy.nodes (fun k o => mem_edges_of_outputsAt hcons)
    (mem_fileEdges hins hf).2.1 with
    ⟨-, hmany⟩ | ⟨c', hok, -, hjoins⟩
  · simp [hrivals] at hmany
  · rw [hok, hjoins.idle hrivals]

end Graph

end ShellFlow

/-!
### A file that is read again

If a node reads a file that another writes, the writer is joined to the edge of the reader, and
nobody writes its old edge any more.  In a graph with one written file this is all that joining can
do.
-/

namespace ShellFlow.Graph

variable {g c c' : Graph} {o x : Int}

/-- What is written are edges, and the only one of them that stands for a file is one which nobody
reads. -/
structure WritesOnly (g : Graph) (o : Int) : Prop where
  listed : ∀ k, ∀ i ∈ g.outputsAt k, i ∈ g.edges.keys
  unread : ∀ k, o ∉ g.inputsAt k
  only : ∀ k, ∀ i ∈ g.outputsAt k, g.isFile i → i = o

def ReadsFile (g : Graph) : Prop := ∃ k, ∃ i ∈ g.inputsAt k, g.isFile i

/-- What has become of a graph whose only written file is on edge `o`: it is as it was, or nobody
writes the edge. -/
structure Severing (o : Int) (g c : Graph) : Prop extends Kept g c where
  listed : ∀ k, ∀ i ∈ c.outputsAt k, i ∈ c.edges.keys
  unread : ∀ k, o ∉ c.inputsAt k
  severed : c = g ∨ (c.view.source o = none ∧ g.isFile o ∧ g.ReadsFile)

/-- **What one more join does.** -/
theorem Severing.step (h : Severing o g c) (hg : g.WritesOnly o) (hne : x ≠ o)
    (hx : x ∈ c.edges.keys) (hreads : g.ReadsFile) (hjoin : c.Joins x (c.rivals x) c') :
    Severing o g c' := by
  refine ⟨h.toKept.trans hjoin.toKept, fun k i hi => ?_, fun k ho => ?_, ?_⟩
  · rw [hjoin.outputs, List.mem_map] at hi
    obtain ⟨j, hj, rfl⟩ := hi
    rw [hjoin.edges]
    split
    · exact hx
    · exact h.listed k j hj
  · rw [hjoin.inputs, List.mem_map] at ho
    obtain ⟨j, hj, hjo⟩ := ho
    split at hjo
    · exact hne hjo
    · exact h.unread k (hjo ▸ hj)
  · rw [hjoin.source, if_neg hne.symm]
    rcases h.severed with rfl | ⟨hsource, hfile, -⟩
    · rcases hrivals : c.rivals x with _ | ⟨⟨k, i⟩, rest⟩
      · exact .inl (hjoin.idle hrivals)
      · obtain ⟨hi, -, hsame⟩ := mem_rivals.1 (hrivals ▸ List.mem_cons_self : (k, i) ∈ c.rivals x)
        have hfile := isFile_of_sameFile hsame
        obtain rfl := hg.only k i hi hfile
        exact .inr ⟨by simp, hfile, hreads⟩
    · exact .inr ⟨by rw [hsource, ite_self], hfile, hreads⟩

/-- **A graph with one written file stays as it is, or this file is read**, and its edge loses the
writer. -/
theorem combineCommonFiles_severing (hnodes : g.nodes.keys.Nodup) (hg : g.WritesOnly o)
    (h : g.combineCommonFiles = .ok c') : Severing o g c' := by
  have hstart : Severing o g g := ⟨⟨rfl, rfl, fun _ => rfl⟩, hg.listed, hg.unread, .inl rfl⟩
  refine Except.foldlM_keeps (P := Severing o g) (fun n _ c d hc hstep => ?_) hstart h
  obtain ⟨ins, hins, hstep⟩ := bind_eq_ok.1 hstep
  obtain ⟨ids, hids, hins⟩ := bind_eq_ok.1 hins
  obtain ⟨m, hm, hids⟩ := bind_eq_ok.1 hids
  cases hids
  refine Except.foldlM_keeps (P := Severing o g) (fun f hf d d' hd hjoin => ?_) hc hstep
  obtain ⟨hmem, hresource, hfile⟩ := mem_fileEdges hins hf
  have hread : f.1 ∈ c.inputsAt n := mem_inputsAt.2 ⟨m, node_eq_ok.1 hm, hmem⟩
  have hreads : g.ReadsFile := by
    rcases hc.severed with rfl | ⟨-, -, hreads⟩
    · exact ⟨n, f.1, hread, hfile⟩
    · exact hreads
  rw [hc.resource?, ← hd.resource?] at hresource
  rcases joinWriters_spec (hd.nodes ▸ hnodes) hd.listed hresource with ⟨herror, -⟩ | ⟨c', hok,
    -, hjoins⟩
  · rw [herror] at hjoin
    cases hjoin
  · obtain rfl := Except.ok.inj (hok.symm.trans hjoin)
    obtain ⟨e, he, -⟩ := Option.bind_eq_some_iff.1 hresource
    exact hd.step hg (fun heq => hc.unread n (heq ▸ hread)) (Table.mem_keys_of_get? he)
      hreads hjoins

end ShellFlow.Graph
