import ShellFlow.Proofs.Graph.Joining

/-!
# What a pipeline is composed of

The stages of a pipeline are joined from left to right.  What one join does to the composition is
said by one step lemma, and the whole pipeline follows by induction over the stages that are still
to come.
-/

namespace ShellFlow.Stage

open List

variable {s t u whole : Stage} {rest more : List Stage}

/-- In a graph, one stage is piped into the next: the edge that was the standard output of the first
is a pipe from the node that wrote it to the reader of the second, which finds it at the places of
its standard input. -/
structure Linked (s t : Stage) (g : Graph) : Prop where
  pipe : ∃ o w, s.graph.edge? s.stdout = some o ∧ o.source = some w ∧
    g.edge? s.stdout =
      some { channel := o.channel.makeEphemeral, source := some w, target := some t.reader }
  reader : ∃ m, t.graph.node? t.reader = some m ∧
    g.node? t.reader = some (m.replaceEdge t.stdin s.stdout) ∧
    (m.replaceEdge t.stdin s.stdout).inputs =
      m.inputs.map (fun i => if i = t.stdin then s.stdout else i) ∧
    (m.replaceEdge t.stdin s.stdout).outputs = m.outputs

/-- How a stage is made of a first stage and the stages behind it: which nodes and edges it has, in
order, what links them, and that all the rest is as it was. -/
structure Composes (s : Stage) (rest : List Stage) (whole : Stage) : Prop where
  sound : whole.Sound
  nodes : whole.graph.nodes.keys = (s :: rest).flatMap fun t => t.graph.nodes.keys
  edges : whole.graph.edges.keys = s.graph.edges.keys ++ rest.flatMap fun t =>
    t.graph.edges.keys.filter (· ≠ t.stdin)
  stdin : whole.stdin = s.stdin
  stdout : whole.stdout = ((s :: rest).getLast (cons_ne_nil s rest)).stdout
  linked : ∀ before t u after, s :: rest = before ++ t :: u :: after → Linked t u whole.graph
  first_node : ∀ k m, s.graph.node? k = some m → whole.graph.node? k = some m
  other_node : ∀ t ∈ rest, ∀ k m, t.graph.node? k = some m → k ≠ t.reader →
    whole.graph.node? k = some m
  first_edge : whole.graph.edge? s.stdin = s.graph.edge? s.stdin
  inner_edge : ∀ t ∈ s :: rest, ∀ i e, t.graph.edge? i = some e → i ≠ t.stdin → i ≠ t.stdout →
    whole.graph.edge? i = some e
  last_edge : whole.graph.edge? whole.stdout =
    ((s :: rest).getLast (cons_ne_nil s rest)).graph.edge? whole.stdout

/-! ### One stage more -/

/-- A stage alone is composed of itself. -/
theorem Sound.composes (h : s.Sound) : Composes s [] s where
  sound := h
  nodes := by simp
  edges := by simp
  stdin := rfl
  stdout := rfl
  linked := by
    intro before t u after heq
    have hlen := congrArg List.length heq
    simp at hlen
    omega
  first_node := fun _ _ hm => hm
  other_node := by simp
  first_edge := rfl
  inner_edge := by
    intro t ht i e he _ _
    obtain rfl := mem_singleton.1 ht
    exact he
  last_edge := rfl

/-- What is linked stays linked when another stage is joined. -/
theorem Linked.join (h : Linked s t whole.graph) (hwhole : whole.Sound) :
    Linked s t (whole.join u).graph := by
  obtain ⟨⟨o, w, ho, hw, hpipe⟩, ⟨m, hm, hreader, hends⟩⟩ := h
  have hne : s.stdout ≠ whole.stdout := by
    -- standard output is read by nobody
    intro heq
    have hopen := hwhole.stdout_target
    simp [Graph.view, ← heq, hpipe] at hopen
  exact ⟨⟨o, w, ho, hw, edge_join_of_left hpipe hne⟩, ⟨m, hm, node_join_of_left hreader, hends⟩⟩

theorem Sound.linked_join (hs : s.Sound) (ht : t.Sound) (hapart : whole.Apart t)
    (hstdout : whole.stdout = s.stdout)
    (hedge : whole.graph.edge? whole.stdout = s.graph.edge? whole.stdout) :
    Linked s t (whole.join t).graph := by
  obtain ⟨o, ho, hsource, -⟩ := hs.stdout_edge
  obtain ⟨w, hw⟩ := Option.ne_none_iff_exists'.1 hsource
  obtain ⟨m, hm, hin, hout⟩ := ht.exists_reader
  have hpipe : (whole.join t).graph.edge? s.stdout = some (pipeTo t.reader o) := by
    rw [← hstdout] at ho ⊢
    exact edge_join_stdout (hedge.trans ho)
  have hreader := hapart.node_join_reader hm
  rw [hstdout] at hreader
  refine ⟨⟨o, w, ho, hw, ?_⟩, ⟨m, hm, hreader, Node.inputs_replaceEdge m t.stdin s.stdout, ?_⟩⟩
  · rw [hpipe, pipeTo, hw]
  · rw [Node.outputs_replaceEdge, Invocation.replaceIn]
    exact (map_congr_left fun i hi => if_neg fun heq : i = t.stdin => hout (heq ▸ hi)).trans
      (map_id _)

/-- **One more stage is joined to a composition.** -/
theorem Composes.join (h : Composes s rest whole) (hsound : ∀ r ∈ s :: rest, r.Sound) (ht : t.Sound)
    (hapart : whole.Apart t) : Composes s (rest ++ [t]) (whole.join t) := by
  have hlast : (s :: (rest ++ [t])).getLast (cons_ne_nil s (rest ++ [t])) = t := by
    simp [getLast_cons]
  obtain ⟨o, ho, -⟩ := ht.stdout_edge
  refine ⟨h.sound.join ht hapart, ?_, ?_, h.stdin, by rw [hlast]; rfl, ?_, ?_, ?_, ?_, ?_, ?_⟩
  · show (whole.graph.nodes.append _).keys = _
    rw [Table.keys_append, Table.keys_update, h.nodes]
    simp
  · show ((whole.graph.edges.update _ _).append _).keys = _
    rw [Table.keys_append, Table.keys_update, Table.keys_erase, h.edges]
    simp
  · intro before t₁ u₁ after heq
    rcases eq_nil_or_concat after with rfl | ⟨after, x, rfl⟩
    · -- the new link
      have hsplit : (s :: rest) ++ [t] = (before ++ [t₁]) ++ [u₁] := by simpa using heq
      obtain ⟨hfront, hlink⟩ := append_inj' hsplit rfl
      obtain rfl : t = u₁ := by simpa using hlink
      have ht₁ : (s :: rest).getLast (cons_ne_nil s rest) = t₁ := by simp [hfront]
      have hstdout := h.stdout
      have hedge := h.last_edge
      rw [ht₁] at hstdout hedge
      have hmem : t₁ ∈ s :: rest := by simp [hfront]
      exact (hsound t₁ hmem).linked_join ht hapart hstdout hedge
    · have hsplit : (s :: rest) ++ [t] = (before ++ t₁ :: u₁ :: after) ++ [x] := by simpa using heq
      exact (h.linked before t₁ u₁ after (append_inj' hsplit rfl).1).join h.sound
  · exact fun k m hm => node_join_of_left (h.first_node k m hm)
  · intro r hr k m hm hne
    rcases mem_append.1 hr with hr | hr
    · exact node_join_of_left (h.other_node r hr k m hm hne)
    · obtain rfl := mem_singleton.1 hr
      exact hapart.node_join_of_right hm hne
  · obtain ⟨e, he, -⟩ := h.sound.stdin_edge
    rw [← h.first_edge, ← h.stdin, he, edge_join_of_left he h.sound.stdin_ne_stdout]
  · intro r hr i e he hin hout
    rcases mem_append.1 (cons_append ▸ hr : r ∈ (s :: rest) ++ [t]) with hr | hr
    · have hkept := h.inner_edge r hr i e he hin hout
      refine edge_join_of_left hkept fun heq => hout ?_
      exact ((hsound r hr).stdout_iff i e he).1 ((h.sound.stdout_iff i e hkept).2 heq)
    · obtain rfl := mem_singleton.1 hr
      exact hapart.edge_join_of_right he hin
  · rw [hlast]
    exact (hapart.edge_join_of_right ho (Ne.symm ht.stdin_ne_stdout)).trans ho.symm

/-! ### All stages -/

def graphs (stages : List Stage) : List (Option Graph) := stages.map fun s => some s.graph

/-- Pipes further graphs into one. -/
def append (g : Graph) (more : List Stage) : Except Fault Graph :=
  (graphs more).foldlM (fun acc h => do acc.pipeAppend (← Graph.pure? h)) g

/-- **The remaining stages are joined to a composition.** -/
theorem foldl_composes (h : Composes s rest whole) (hrest : ∀ r ∈ s :: rest, r.Sound)
    (hmore : ∀ t ∈ more, t.Sound) (hapart : ∀ t ∈ more, whole.Apart t)
    (hpairwise : more.Pairwise Apart) : Composes s (rest ++ more) (more.foldl join whole) ∧
      append whole.graph more = .ok (more.foldl join whole).graph := by
  induction more generalizing rest whole with
  | nil => exact ⟨by simpa using h, rfl⟩
  | cons t _ ih =>
    obtain ⟨ht, hmore⟩ := forall_mem_cons.1 hmore
    obtain ⟨hwhole, hapart⟩ := forall_mem_cons.1 hapart
    obtain ⟨hnext, hpairwise⟩ := pairwise_cons.1 hpairwise
    have hsound : ∀ r ∈ s :: (rest ++ [t]), r.Sound := by
      intro r hr
      rcases mem_append.1 (cons_append ▸ hr : r ∈ (s :: rest) ++ [t]) with hr | hr
      · exact hrest r hr
      · exact mem_singleton.1 hr ▸ ht
    obtain ⟨hcomposes, happend⟩ := ih (h.join hrest ht hwhole) hsound hmore
      (fun u hu => Apart.join h.sound ht hwhole (hapart u hu) (hnext u hu)) hpairwise
    refine ⟨by simpa using hcomposes, ?_⟩
    have hstep : (do whole.graph.pipeAppend (← Graph.pure? (some t.graph))) =
      Except.ok (whole.join t).graph :=
      bind_eq_ok.2 ⟨t.graph, rfl, h.sound.pipeAppend_eq ht hwhole⟩
    exact bind_eq_ok.2 ⟨(whole.join t).graph, hstep, happend⟩

/-- A stage that has nothing in common with some stages has nothing in common with their join. -/
theorem foldl_apart (hs : s.Sound) (hmore : ∀ t ∈ more, t.Sound)
    (hapart : (s :: more).Pairwise Apart) (hu : ∀ t ∈ s :: more, t.Apart u) :
    (more.foldl join s).Apart u := by
  induction more generalizing s with
  | nil => exact hu s mem_cons_self
  | cons t more ih =>
    obtain ⟨ht, hmore⟩ := forall_mem_cons.1 hmore
    obtain ⟨hfirst, hpairwise⟩ := pairwise_cons.1 hapart
    obtain ⟨hst, hsmore⟩ := forall_mem_cons.1 hfirst
    obtain ⟨htmore, hpairwise⟩ := pairwise_cons.1 hpairwise
    obtain ⟨hsu, htu, hmoreu⟩ : s.Apart u ∧ t.Apart u ∧ ∀ r ∈ more, r.Apart u := by simpa using hu
    refine ih (hs.join ht hst) hmore (pairwise_cons.2 ⟨fun r hr => ?_, hpairwise⟩) ?_
    · exact Apart.join hs ht hst (hsmore r hr) (htmore r hr)
    · exact forall_mem_cons.2 ⟨Apart.join hs ht hst hsu htu, hmoreu⟩

/-- Joining further stages one by one is joining their join. -/
theorem foldl_join_eq (hmore : ∀ r ∈ t :: more, r.Sound) (hapart : ∀ r ∈ t :: more, s.Apart r)
    (hpairwise : (t :: more).Pairwise Apart) :
    (t :: more).foldl join s = s.join (more.foldl join t) := by
  induction more generalizing t with
  | nil => rfl
  | cons u more ih =>
    obtain ⟨ht, hu, hmore⟩ : t.Sound ∧ u.Sound ∧ ∀ r ∈ more, r.Sound := by simpa using hmore
    obtain ⟨hst, hsu, hsmore⟩ : s.Apart t ∧ s.Apart u ∧ ∀ r ∈ more, s.Apart r := by
      simpa using hapart
    obtain ⟨htmore, hpairwise⟩ := pairwise_cons.1 hpairwise
    obtain ⟨htu, htmore⟩ := forall_mem_cons.1 htmore
    obtain ⟨humore, hpairwise⟩ := pairwise_cons.1 hpairwise
    have hjoined : s.Apart (t.join u) := (Apart.join ht hu htu hst.symm hsu.symm).symm
    have hassoc : (s.join t).join u = s.join (t.join u) := ht.join_assoc hst htu
    have hrest := ih (t := t.join u) (forall_mem_cons.2 ⟨ht.join hu htu, hmore⟩)
      (forall_mem_cons.2 ⟨hjoined, hsmore⟩)
      (pairwise_cons.2 ⟨fun r hr => Apart.join ht hu htu (htmore r hr) (humore r hr), hpairwise⟩)
    show more.foldl join ((s.join t).join u) = s.join (more.foldl join (t.join u))
    rw [hassoc]
    exact hrest

/-- Some stages that have nothing in common are one pipeline, and compose one stage. -/
theorem pipeline_eq (hsound : ∀ r ∈ s :: rest, r.Sound) (hapart : (s :: rest).Pairwise Apart) :
    Graph.pipeline (graphs (s :: rest)) = .ok (rest.foldl join s).graph ∧
    Composes s rest (rest.foldl join s) := by
  obtain ⟨hs, hrest⟩ := forall_mem_cons.1 hsound
  obtain ⟨hfirst, hpairwise⟩ := pairwise_cons.1 hapart
  obtain ⟨hcomposes, happend⟩ :=
    foldl_composes hs.composes (by simpa using hs) hrest hfirst hpairwise
  exact ⟨bind_eq_ok.2 ⟨s.graph, rfl, happend⟩, hcomposes⟩

/-! ### Stages of one node -/

/-- The stage of a single node. -/
def ofNode (n : Node) (input output : Channel Int) : Stage where
  graph :=
    { nodes := ⟨[(n.id, n)]⟩
      edges := ⟨[(input.ident, { channel := input, target := some n.id }),
        (output.ident, { channel := output, source := some n.id })]⟩ }
  stdin := input.ident
  reader := n.id
  stdout := output.ident

section OfNode

variable {n : Node} {input output : Channel Int}

theorem node_ofNode {k : Int} {m : Node} (h : (ofNode n input output).graph.node? k = some m) :
    k = n.id ∧ m = n := by
  have hmem : (k, m) ∈ [(n.id, n)] := Table.mem_entries_of_get? h
  simpa using hmem

theorem edge_ofNode {i : Int} {e : Edge} (h : (ofNode n input output).graph.edge? i = some e) :
    (i = input.ident ∧ e = { channel := input, target := some n.id }) ∨
      (i = output.ident ∧ e = { channel := output, source := some n.id }) := by
  have hmem : (i, e) ∈ (ofNode n input output).graph.edges.entries := Table.mem_entries_of_get? h
  simpa [ofNode] using hmem

/-- A node that reads standard input and writes standard output is a stage. -/
theorem ofNode_sound (hin : n.inputs = [input.ident]) (hout : n.outputs = [output.ident])
    (hne : input.ident ≠ output.ident) (hstdin : input.resource = some (.descriptor (.int 0)))
    (hstdout : output.resource = some (.descriptor (.int 1))) : (ofNode n input output).Sound := by
  have htidy : (ofNode n input output).graph.Tidy := by
    constructor
    · show ([n.id] : List Int).Nodup
      simp
    · show ([input.ident, output.ident] : List Int).Nodup
      simpa using hne
  have hnode : (ofNode n input output).graph.node? n.id = some n :=
    Table.get?_of_mem htidy.nodes (by simp [ofNode])
  have hinput : (ofNode n input output).graph.edge? input.ident =
    some { channel := input, target := some n.id } :=
    Table.get?_of_mem htidy.edges (by simp [ofNode])
  have houtput : (ofNode n input output).graph.edge? output.ident =
    some { channel := output, source := some n.id } :=
    Table.get?_of_mem htidy.edges (by simp [ofNode])
  have hsource : Listed (ofNode n input output).graph.node? Node.outputs
      (ofNode n input output).graph.view.source := by
    intro i k
    constructor
    · intro hk
      obtain ⟨e, he, hk⟩ := Option.bind_eq_some_iff.1 hk
      rcases edge_ofNode he with ⟨rfl, rfl⟩ | ⟨rfl, rfl⟩
      · cases hk
      · cases hk
        exact ⟨n, hnode, by simp [hout]⟩
    · rintro ⟨m, hm, hi⟩
      obtain ⟨rfl, rfl⟩ := node_ofNode hm
      obtain rfl : i = output.ident := by simpa [hout] using hi
      exact Option.bind_eq_some_iff.2 ⟨_, houtput, rfl⟩
  have htarget : Listed (ofNode n input output).graph.node? Node.inputs
      (ofNode n input output).graph.view.target := by
    intro i k
    constructor
    · intro hk
      obtain ⟨e, he, hk⟩ := Option.bind_eq_some_iff.1 hk
      rcases edge_ofNode he with ⟨rfl, rfl⟩ | ⟨rfl, rfl⟩
      · cases hk
        exact ⟨n, hnode, by simp [hin]⟩
      · cases hk
    · rintro ⟨m, hm, hi⟩
      obtain ⟨rfl, rfl⟩ := node_ofNode hm
      obtain rfl : i = input.ident := by simpa [hin] using hi
      exact Option.bind_eq_some_iff.2 ⟨_, hinput, rfl⟩
  refine ⟨htidy, ?_, ?_, rfl, ?_, ?_, ?_, ⟨_, hinput, rfl, rfl⟩, ?_, ⟨_, houtput, by simp, rfl⟩⟩
  · intro k m hm
    obtain ⟨rfl, rfl⟩ := node_ofNode hm
    rfl
  · exact Graph.valid_iff.2
      ⟨by simp [ofNode], Graph.consistent_of_listed htidy hsource htarget, fun h => nomatch h⟩
  · intro e he
    obtain ⟨i, hi⟩ := Graph.exists_edge_of_mem_values htidy he
    rcases edge_ofNode hi with ⟨-, rfl⟩ | ⟨-, rfl⟩
    · simp [hstdin]
    · simp [hstdout]
  · intro i e j d he hd _
    rcases edge_ofNode he with ⟨-, rfl⟩ | ⟨-, rfl⟩
    · exact (Edge.not_sharesFile (by simp [Channel.isFile, hstdin, Resource.isFile]) d).1
    · exact (Edge.not_sharesFile (by simp [Channel.isFile, hstdout, Resource.isFile]) d).1
  · intro i e he
    rcases edge_ofNode he with ⟨rfl, rfl⟩ | ⟨rfl, rfl⟩
    · exact iff_of_true (by simp [Channel.isStdin, hstdin, Resource.isStdin, Value.sameInt]) rfl
    · exact iff_of_false (by simp [Channel.isStdin, hstdout, Resource.isStdin, Value.sameInt])
        (Ne.symm hne)
  · intro i e he
    rcases edge_ofNode he with ⟨rfl, rfl⟩ | ⟨rfl, rfl⟩
    · exact iff_of_false (by simp [Channel.isStdout, hstdin, Resource.isStdout, Value.sameInt]) hne
    · exact iff_of_true (by simp [Channel.isStdout, hstdout, Resource.isStdout, Value.sameInt]) rfl

/-- Stages of nodes with different numbers have nothing in common. -/
theorem ofNode_apart {n' : Node} {input' output' : Channel Int} (hid : n.id ≠ n'.id)
    (hedges : [input.ident, output.ident].Disjoint [input'.ident, output'.ident])
    (hfile : input.isFile = false ∧ output.isFile = false) :
    (ofNode n input output).Apart (ofNode n' input' output') := by
  refine ⟨?_, hedges, ?_⟩
  · show [n.id].Disjoint [n'.id]
    simpa using Ne.symm hid
  · intro e he d _
    have hplain : e.channel.isFile = false := by
      rcases mem_pair.1 he with rfl | rfl
      · exact hfile.1
      · exact hfile.2
    exact Edge.not_sharesFile hplain d

end OfNode

/-- The stage that runs a command between two edges of its own. -/
def filterStage (k : Int) (command : String) : Stage :=
  ofNode
    { id := k
      invocation := .ofAccess command [] [] (some (2 * k)) (some (2 * k + 1))
        (.ofList [(2 * k, .streamInput), (2 * k + 1, .streamOutput)]) }
    { ident := 2 * k, resource := some (.descriptor (.int 0)) }
    { ident := 2 * k + 1, resource := some (.descriptor (.int 1)) }

theorem filterStage_sound (k : Int) (command : String) : (filterStage k command).Sound := by
  have hne : 2 * k ≠ 2 * k + 1 := by omega
  refine ofNode_sound ?_ ?_ hne rfl rfl
  · simp [Node.inputs, Invocation.inputs, Invocation.ofAccess, Invocation.edgesWith, Table.ofList,
      Table.insert, Table.empty, Table.put, hne]
  · simp [Node.outputs, Invocation.ofAccess, Invocation.edgesWith, Table.ofList, Table.insert,
      Table.empty, Table.put, hne]

theorem filterStage_apart {k k' : Int} (h : k ≠ k') (command command' : String) :
    (filterStage k command).Apart (filterStage k' command') := by
  refine ofNode_apart h ?_ ⟨rfl, rfl⟩
  simp
  omega

/-! ### The whole pipeline -/

/-- **A pipeline of stages is one stage, composed of them in order.**  Joining a part in front first
and what is behind it afterwards, as a whole or stage by stage, gives the same graph. -/
theorem pipeline_composes (hsound : ∀ r ∈ s :: rest, r.Sound)
    (hapart : (s :: rest).Pairwise Apart) : ∃ whole : Stage, Graph.pipeline (graphs (s :: rest)) =
      .ok whole.graph ∧ Composes s rest whole ∧ ∀ front back : List Stage, front ≠ [] → back ≠ [] →
        s :: rest = front ++ back → ∃ g h : Graph, Graph.pipeline (graphs front) = .ok g ∧
          Graph.pipeline (graphs back) = .ok h ∧ Graph.pipeline [some g, some h] = .ok whole.graph ∧
          Graph.pipeline (some g :: graphs back) = .ok whole.graph := by
  obtain ⟨hpipeline, hcomposes⟩ := pipeline_eq hsound hapart
  refine ⟨rest.foldl join s, hpipeline, hcomposes, fun front back hfront hback heq => ?_⟩
  obtain ⟨s', front, rfl⟩ := List.exists_cons_of_ne_nil hfront
  obtain ⟨t, back, rfl⟩ := List.exists_cons_of_ne_nil hback
  obtain ⟨rfl, rfl⟩ : s = s' ∧ rest = front ++ t :: back := by simpa using heq
  obtain ⟨hfrontSound, hbackSound⟩ : (∀ r ∈ s :: front, r.Sound) ∧ ∀ r ∈ t :: back, r.Sound :=
    List.forall_mem_append.1 (by simpa using hsound)
  obtain ⟨hfrontApart, hbackApart, hcross⟩ : (s :: front).Pairwise Apart ∧
      (t :: back).Pairwise Apart ∧
      ∀ r ∈ s :: front, ∀ r' ∈ t :: back, r.Apart r' :=
    List.pairwise_append.1 (by simpa using hapart)
  obtain ⟨hfront, hfrontComposes⟩ := pipeline_eq hfrontSound hfrontApart
  obtain ⟨hback, hbackComposes⟩ := pipeline_eq hbackSound hbackApart
  have hbehind : ∀ r ∈ t :: back, (front.foldl join s).Apart r := fun r hr =>
    foldl_apart (hfrontSound s List.mem_cons_self)
      (fun r' hr' => hfrontSound r' (List.mem_cons_of_mem _ hr'))
      hfrontApart fun r' hr' => hcross r' hr' r hr
  have hbetween : (front.foldl join s).Apart (back.foldl join t) :=
    (foldl_apart (hbackSound t List.mem_cons_self)
      (fun r hr => hbackSound r (List.mem_cons_of_mem _ hr))
      hbackApart fun r hr => (hbehind r hr).symm).symm
  have hwhole : (front ++ t :: back).foldl join s = (t :: back).foldl join (front.foldl join s) :=
    List.foldl_append
  refine ⟨_, _, hfront, hback, ?_, ?_⟩
  · have happend := hfrontComposes.sound.pipeAppend_eq hbackComposes.sound hbetween
    rw [hwhole, foldl_join_eq hbackSound hbehind hbackApart]
    exact bind_eq_ok.2 ⟨_, rfl, bind_eq_ok.2 ⟨_, bind_eq_ok.2 ⟨_, rfl, happend⟩, rfl⟩⟩
  · obtain ⟨-, happend⟩ := foldl_composes hfrontComposes.sound.composes
      (by simpa using hfrontComposes.sound) hbackSound hbehind hbackApart
    rw [hwhole]
    exact bind_eq_ok.2 ⟨_, rfl, happend⟩

theorem pipeline_composes_threeStages :
    ∃ whole : Stage,
      Graph.pipeline (graphs [filterStage 0 "cat", filterStage 1 "grep", filterStage 2 "sort"]) =
        .ok whole.graph ∧ whole.graph.nodes.keys = [0, 1, 2] ∧
        whole.graph.edges.keys = [0, 1, 3, 5] ∧ whole.stdin = 0 ∧ whole.stdout = 5 := by
  have hsound : ∀ r ∈ [filterStage 0 "cat", filterStage 1 "grep", filterStage 2 "sort"],
      r.Sound := by
    simp [filterStage_sound]
  have hapart : [filterStage 0 "cat", filterStage 1 "grep", filterStage 2 "sort"].Pairwise
      Apart := by
    simp [filterStage_apart]
  obtain ⟨whole, hpipeline, hcomposes, -⟩ := pipeline_composes hsound hapart
  exact ⟨whole, hpipeline, hcomposes.nodes, hcomposes.edges, hcomposes.stdin, hcomposes.stdout⟩

end ShellFlow.Stage
