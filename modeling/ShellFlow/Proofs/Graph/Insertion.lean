import ShellFlow.Proofs.Graph.Buffered
import ShellFlow.Proofs.Graph.Edits

/-!
# The buffers of a node

A node that reads several edges gets a buffer on each of them that a node writes, and one that parts
a stream gets buffers on its outputs.  Such a buffer can always be put in, and what is put in is
buffers on written edges.
-/

namespace ShellFlow

open List
open ShellFlow.View (Inserts)

theorem Node.exists_yields_make (kind : NodeKind) (i : Invocation) (t : Supply) :
    ∃ n t', Yields (Node.make kind i) t n t' :=
  exists_yields_of_isOk rfl

namespace Graph

variable {n : Node} {next reader : Int} {g g' : Graph} {s s' : ChannelSource} {t t' : Supply}
  {v₀ : View}
  {i k : Int} {m : Node} {ids : List Int} {r : Graph × ChannelSource}

/-! ### One buffer -/

theorem putNode_view (g : Graph) (k : Int) (n : Node) :
    (g.putNode k n).view =
    { g.view with node := fun j => if j = k then some n else g.view.node j } := by
  ext1
  · funext j
    exact Table.get?_insert g.nodes j k n
  · rfl
  · rfl

/-- The buffer joins after the reader of the edge was told to read another one. -/
theorem handOver_view {c : Int} (hn : n.IsBuffer i c) (hc : g.view.target c = none)
    (h : g.handOver (g.view.target i) i c = .ok g') : g'.view.add n = g.view.buffer i c n := by
  have hin : ∀ j, j ∈ n.inputs ↔ j = i := fun j => by rw [hn.inputs, mem_singleton]
  have hout : ∀ j, j ∈ n.outputs ↔ j = c := fun j => by rw [hn.outputs, mem_singleton]
  cases ht : g.view.target i with
  | none =>
    rw [ht] at h
    cases h
    ext1
    · funext k
      simp [View.add, View.buffer, ht]
    · funext j
      simp only [View.add, View.buffer, hout]
    · funext j
      simp only [View.add, View.buffer, hin, ht]
      by_cases hj : j = c
      · rw [if_pos hj, hj, hc]
      · rw [if_neg hj]
  | some r =>
    rw [ht] at h
    obtain ⟨g₁, hreplace, htarget⟩ := bind_eq_ok.1 h
    obtain ⟨m, hm, hput⟩ := bind_eq_ok.1 hreplace
    cases hput
    have hm : g.view.node r = some m := node_eq_ok.1 hm
    rw [setTarget_view htarget, putNode_view]
    ext1
    · funext k
      by_cases hk : k = r
      · subst hk
        simp [View.add, View.buffer, View.setTarget, ht, hm]
      · have hne : r ≠ k := Ne.symm hk
        simp [View.add, View.buffer, View.setTarget, ht, hk, hne]
    · funext j
      simp only [View.add, View.buffer, View.setTarget, hout]
    · funext j
      simp only [View.add, View.buffer, View.setTarget, hin, ht]

theorem handOver_edits {reader : Option Int} {old new : Int}
    (h : g.handOver reader old new = .ok g') (next : Int) : Edits next g next g' := by
  cases reader with
  | none =>
    cases h
    exact .refl next g
  | some =>
    obtain ⟨g₁, hreplace, htarget⟩ := bind_eq_ok.1 h
    exact (replaceInNode_edits hreplace next).trans (setTarget_edits htarget next)

theorem addBuffer_view (hi : i < s.next) (hy : Yields (g.addBuffer s i) t (g', s') t') :
    ∃ n : Node, n.id = t.nextNode ∧ t'.nextNode = t.nextNode + 1 ∧ n.IsBuffer i s.next ∧
      s'.next = s.next + 1 ∧ g'.view = g.view.buffer i s.next n ∧ Edits s.next g s'.next g' := by
  obtain ⟨n, t₁, hmake, hy⟩ := hy.bind
  obtain ⟨g₁, hadd, hy⟩ := hy.lift_bind
  obtain ⟨e, he, hy⟩ := hy.lift_bind
  obtain ⟨g₂, hreader, hy⟩ := hy.lift_bind
  obtain ⟨g₃, hnode, hy⟩ := hy.lift_bind
  obtain ⟨rfl, rfl, rfl⟩ := hy.pure_pair
  obtain ⟨-, -, hin, hout, hkind⟩ := Node.makes_tee (Int.ne_of_lt hi) _ _ _ hmake
  obtain ⟨hid, hcount⟩ := Node.yields_make hmake
  have hn : n.IsBuffer i s.next := ⟨hkind, hin, hout⟩
  have hview := addEdge_view hadd
  have hfree : g.edge? s.next = none := (addEdge_eq_ok.1 hadd).1
  have hopen : g₁.view.target s.next = none := by
    rw [hview]
    simp [view, hfree]
  have htarget : g₁.view.target i = e.target := by simp [view, edge_eq_ok.1 he]
  rw [← htarget] at hreader
  refine ⟨n, by rw [hid], hcount, hn, rfl, ?_, ?_⟩
  · rw [addNode_view hnode, handOver_view hn hopen hreader, hview]
  · have hfirst : Edits s.next g (s.next + 1) g₁ := addEdge_edits ⟨.ephemeral, rfl, rfl⟩ hadd
    exact (hfirst.trans (handOver_edits hreader _)).trans (addNode_edits hnode _)

theorem addBuffer_inserts (hi : i < s.next) (hwritten : g.view.source i ≠ none)
    (hy : Yields (g.addBuffer s i) t (g', s') t') :
    Inserts g.view t.nextNode s.next g'.view t'.nextNode s'.next := by
  obtain ⟨n, hid, hcount, hn, hnext, hview, -⟩ := addBuffer_view hi hy
  have hcount : (t'.nextNode : Int) = n.id + 1 := by omega
  rw [hview, hnext, hcount]
  exact .tail .refl hi hwritten (by omega) hn

theorem exists_addBuffer {count : Int} {e : Edge} (hbelow : g.Below s.next)
    (hv : g.view.Sound count next) (he : g.edge? i = some e) (t : Supply) :
    ∃ r t', Yields (g.addBuffer s i) t r t' := by
  have hi : i < s.next := hbelow i e he
  obtain ⟨n, t₁, hmake⟩ : ∃ n t₁, Yields (Node.tee i s.next) t n t₁ := Node.exists_yields_make _ _ t
  obtain ⟨-, -, hin, hout, -⟩ := Node.makes_tee (Int.ne_of_lt hi) _ _ _ hmake
  obtain ⟨g₁, hadd⟩ := @Below.exists_addEdge g s.freshEphemeral.1 hbelow
  have hedits : Edits s.next g (s.next + 1) g₁ := addEdge_edits ⟨.ephemeral, rfl, rfl⟩ hadd
  obtain ⟨e₁, he₁, -⟩ := hedits.channel he
  have hfresh : ∃ e', g₁.edge? s.next = some e' := by
    obtain ⟨-, rfl⟩ := addEdge_eq_ok.1 hadd
    exact ⟨_, (edge?_putEdge _ _ _).trans (if_pos rfl)⟩
  obtain ⟨e', he'⟩ := hfresh
  obtain ⟨g₂, hreader⟩ : ∃ g₂, g₁.handOver e₁.target i s.next = .ok g₂ := by
    cases ht : e₁.target with
    | none => exact ⟨g₁, rfl⟩
    | some r =>
      have hr : g.view.target i = some r := by
        rw [← addEdge_view hadd]
        simp [view, he₁, ht]
      obtain ⟨m, hm, -⟩ := (hv.target i r).1 hr
      have hm : g₁.node? r = some m := by
        have hnode : g₁.view.node = g.view.node := by rw [addEdge_view hadd]
        exact (congrFun hnode r).trans hm
      have hput : g₁.replaceInNode r i s.next = .ok (g₁.putNode r (m.replaceEdge i s.next)) :=
        bind_eq_ok.2 ⟨m, node_eq_ok.2 hm, rfl⟩
      obtain ⟨g₂, htarget⟩ :=
        @exists_setTarget (g₁.putNode r (m.replaceEdge i s.next)) _ _ he' (some r)
      exact ⟨g₂, bind_eq_ok.2 ⟨_, hput, htarget⟩⟩
  have hedges : ∀ j ∈ n.inputs ++ n.outputs, ∃ e, g₂.edge? j = some e := by
    intro j hj
    rw [hin, hout] at hj
    have hback : ∃ e, g₁.edge? j = some e := by
      rcases mem_append.1 hj with hj | hj
      · exact ⟨e₁, mem_singleton.1 hj ▸ he₁⟩
      · exact ⟨e', mem_singleton.1 hj ▸ he'⟩
    obtain ⟨e, he⟩ := hback
    obtain ⟨e', he', -⟩ := (handOver_edits hreader 0).channel he
    exact ⟨e', he'⟩
  obtain ⟨g₃, hnode⟩ := exists_addNode hedges
  exact ⟨(g₃, s.freshEphemeral.2), t₁, yields_bind.2 ⟨n, t₁, hmake, yields_lift_bind.2 ⟨g₁, hadd,
    yields_lift_bind.2
      ⟨e₁, edge_eq_ok.2 he₁, yields_lift_bind.2 ⟨g₂, hreader, yields_lift_bind.2 ⟨g₃, hnode,
      yields_pure.2 ⟨rfl, rfl⟩⟩⟩⟩⟩⟩⟩

/-! ### Buffers on the edges of a node -/

/-- A buffer on a written edge is one more buffer, and what nodes write they write still. -/
theorem addBuffer_buffering (hv : v₀.Buffering g.view t.nextNode s.next)
    (hwritten : g.view.source i ≠ none) (hy : Yields (g.addBuffer s i) t (g', s') t') :
    v₀.Buffering g'.view t'.nextNode s'.next ∧ ∀ j, g.view.source j ≠ none →
    g'.view.source j ≠ none := by
  have hi := hv.sound.lt_of_source hwritten
  obtain ⟨n, -, -, -, -, hview, -⟩ := addBuffer_view hi hy
  refine ⟨(addBuffer_inserts hi hwritten hy).buffering hv, fun j hj => ?_⟩
  have := hv.sound.lt_of_source hj
  rwa [hview, View.buffer_source_of_ne _ _ (by omega)]

theorem addBufferList_inserts (hv : v₀.Buffering g.view t.nextNode s.next)
    (hids : ∀ i ∈ ids, g.view.source i ≠ none) (hy : Yields (addBufferList g s ids) t (g', s') t') :
    Inserts g.view t.nextNode s.next g'.view t'.nextNode s'.next ∧ Edits s.next g s'.next g' ∧
      t'.nextNode = t.nextNode + ids.length ∧
      (k < t.nextNode → v₀.GuardedBut g.view k ids → v₀.GuardedBut g'.view k []) := by
  induction ids generalizing g s t with
  | nil =>
    obtain ⟨rfl, rfl, rfl⟩ := hy.pure_pair
    exact ⟨.refl, .refl _ _, rfl, fun _ hguard => hguard⟩
  | cons i ids ih =>
    obtain ⟨⟨g₁, s₁⟩, t₁, hfirst, hrest⟩ := hy.bind
    obtain ⟨hwritten, hids⟩ := forall_mem_cons.1 hids
    have hi := hv.sound.lt_of_source hwritten
    obtain ⟨n, hid, hcount, -, hnext, hview, hedits⟩ := addBuffer_view hi hfirst
    obtain ⟨hv₁, hsource⟩ := addBuffer_buffering hv hwritten hfirst
    obtain ⟨hinserts, hedits', hcount', hguard'⟩ := ih hv₁ (fun j hj => hsource j (hids j hj)) hrest
    refine ⟨(addBuffer_inserts hi hwritten hfirst).trans hinserts, hedits.trans hedits', ?_,
      fun hk hguard => ?_⟩
    · rw [length_cons]
      omega
    · refine hguard' (by omega) ?_
      rw [hview]
      exact hguard.buffer hv (by omega) hk

theorem exists_addBufferList (hbelow : g.Below s.next) (hv : v₀.Buffering g.view t.nextNode s.next)
    (hids : ∀ i ∈ ids, g.view.source i ≠ none) : ∃ r t', Yields (addBufferList g s ids) t r t' := by
  induction ids generalizing g s t with
  | nil => exact ⟨_, _, yields_pure.2 ⟨rfl, rfl⟩⟩
  | cons i _ ih =>
    obtain ⟨hwritten, hids⟩ := forall_mem_cons.1 hids
    obtain ⟨k, hk⟩ := Option.ne_none_iff_exists'.1 hwritten
    obtain ⟨e, he, -⟩ := Option.bind_eq_some_iff.1 hk
    obtain ⟨⟨g₁, s₁⟩, t₁, hfirst⟩ := exists_addBuffer hbelow hv.sound he t
    obtain ⟨-, -, -, -, -, -, hedits⟩ := addBuffer_view (hbelow i e he) hfirst
    obtain ⟨hv₁, hsource⟩ := addBuffer_buffering hv hwritten hfirst
    obtain ⟨r, t₂, hrest⟩ := ih (hedits.below hbelow) hv₁ fun j hj => hsource j (hids j hj)
    exact ⟨r, t₂, yields_bind.2 ⟨(g₁, s₁), t₁, hfirst, hrest⟩⟩

theorem yields_addBufferList_append {ids' : List Int} :
    Yields (addBufferList g s (ids ++ ids')) t r t' ↔
      ∃ p t₁, Yields (addBufferList g s ids) t p t₁ ∧
      Yields (addBufferList p.1 p.2 ids') t₁ r t' := by
  rw [← yields_bind]
  have happend : addBufferList g s (ids ++ ids') = addBufferList g s ids >>= fun p =>
      addBufferList p.1 p.2 ids' := by
    induction ids generalizing g s with
    | nil => exact (pure_bind _ _).symm
    | cons _ _ ih =>
      rw [cons_append, addBufferList, addBufferList, bind_assoc]
      exact bind_congr fun p => ih
  rw [happend]

/-- A node writes the edge. -/
def isWritten (g : Graph) (i : Int) : Bool := (g.view.source i).isSome

/-- A buffer on one edge does not touch the ends of others. -/
theorem ends_of_buffer (hview : g'.view = g.view.buffer i next n) (hlt : ∀ j ∈ ids, j < next)
    (hne : ∀ j ∈ ids, j ≠ i) : (∀ j ∈ ids, g'.view.target j = g.view.target j) ∧
    ids.filter g'.isWritten = ids.filter g.isWritten := by
  constructor
  · intro j hj
    have := hlt j hj
    rw [hview, View.buffer_target_of_ne _ _ (hne j hj) (by omega)]
  · refine filter_congr fun j hj => ?_
    have := hlt j hj
    rw [isWritten, isWritten, hview, View.buffer_source_of_ne _ _ (by omega)]

theorem yields_addInputBuffers_cons :
    Yields (addInputBuffers reader g s (i :: ids)) t r t' ↔ g.view.target i = some reader ∧
      ∃ p t₁, Yields (if g.isWritten i then g.addBuffer s i else pure (g, s)) t p t₁ ∧
        Yields (addInputBuffers reader p.1 p.2 ids) t₁ r t' := by
  have hpass : (∃ p t₁, Yields (pure (g, s) : Build (Graph × ChannelSource)) t p t₁ ∧
      Yields (addInputBuffers reader p.1 p.2 ids) t₁ r t') ↔
        Yields (addInputBuffers reader g s ids) t r t' := by
    rw [← yields_bind, pure_bind]
  rw [addInputBuffers, yields_lift_bind]
  constructor
  · rintro ⟨e, he, hy⟩
    obtain ⟨u, t₁, hrequire, hy⟩ := hy.bind
    obtain ⟨hread, rfl⟩ := yields_require.1 hrequire
    refine ⟨by simpa [view, edge_eq_ok.1 he] using hread, ?_⟩
    cases hs : e.source with
    | none =>
      rw [if_neg (by simp [isWritten, view, edge_eq_ok.1 he, hs]), hpass]
      simpa only [hs] using hy
    | some =>
      rw [if_pos (by simp [isWritten, view, edge_eq_ok.1 he, hs])]
      simp only [hs] at hy
      exact hy.bind
  · rintro ⟨htarget, hy⟩
    obtain ⟨e, he, hread⟩ := Option.bind_eq_some_iff.1 htarget
    refine ⟨e, edge_eq_ok.2 he, yields_bind.2 ⟨(), t, yields_require.2 ⟨by simp [hread], rfl⟩, ?_⟩⟩
    cases hs : e.source with
    | none => rwa [if_neg (by simp [isWritten, view, he, hs]), hpass] at hy
    | some =>
      rw [if_pos (by simp [isWritten, view, he, hs])] at hy
      exact yields_bind.2 hy

/-- **On the inputs of a node, buffers are put on the written ones**, if the node reads all of them
and lists none of the written ones twice. -/
theorem yields_addInputBuffers (hv : v₀.Buffering g.view t.nextNode s.next)
    (hreader : reader < t.nextNode) (hids : ∀ i ∈ ids, i < s.next) :
    Yields (addInputBuffers reader g s ids) t r t' ↔ (∀ i ∈ ids, g.view.target i = some reader) ∧
      (ids.filter g.isWritten).Nodup ∧ Yields
      (addBufferList g s (ids.filter g.isWritten)) t r t' := by
  induction ids generalizing g s t with
  | nil => simp [addInputBuffers, addBufferList]
  | cons i ids ih =>
    obtain ⟨hi, hids⟩ := forall_mem_cons.1 hids
    rw [yields_addInputBuffers_cons, forall_mem_cons, and_assoc]
    refine and_congr_right fun htarget => ?_
    by_cases hw : g.isWritten i = true
    · have hwritten : g.view.source i ≠ none := Option.isSome_iff_ne_none.1 hw
      rw [if_pos hw, filter_cons_of_pos hw, nodup_cons, addBufferList, yields_bind]
      constructor
      · rintro ⟨⟨g₁, s₁⟩, t₁, hfirst, hrest⟩
        obtain ⟨n, hid, hcount, -, hnext, hview, -⟩ := addBuffer_view hi hfirst
        obtain ⟨htargets, hnodup, hlist⟩ :=
          (ih (addBuffer_buffering hv hwritten hfirst).1 (by omega) fun j hj => by
          have := hids j hj
          omega).1 hrest
        -- the edge is read by the buffer now, so it is not among the edges that the node still
        -- reads
        have hne : ∀ j ∈ ids, j ≠ i := by
          rintro j hj rfl
          have hj := htargets j hj
          rw [hview, View.buffer_target_self] at hj
          have := Option.some.inj hj
          omega
        obtain ⟨hsame, hfilter⟩ := ends_of_buffer hview hids hne
        rw [hfilter] at hnodup hlist
        exact ⟨fun j hj => hsame j hj ▸ htargets j hj,
          ⟨fun hmem => hne i (mem_filter.1 hmem).1 rfl, hnodup⟩,
          (g₁, s₁), t₁, hfirst, hlist⟩
      · rintro ⟨htargets, ⟨hnot, hnodup⟩, ⟨g₁, s₁⟩, t₁, hfirst, hlist⟩
        obtain ⟨n, -, hcount, -, hnext, hview, -⟩ := addBuffer_view hi hfirst
        have hne : ∀ j ∈ ids, j ≠ i := by
          rintro j hj rfl
          exact hnot (mem_filter.2 ⟨hj, hw⟩)
        obtain ⟨hsame, hfilter⟩ := ends_of_buffer hview hids hne
        refine ⟨(g₁, s₁), t₁, hfirst,
          (ih (addBuffer_buffering hv hwritten hfirst).1 (by omega) fun j hj => ?_).2
          ⟨fun j hj => (hsame j hj).trans (htargets j hj), hfilter ▸ hnodup, hfilter ▸ hlist⟩⟩
        have := hids j hj
        omega
    · rw [if_neg hw, filter_cons_of_neg hw, ← ih hv hreader hids, ← yields_bind, pure_bind]

theorem bufferedOutputs_eq_ok {outs : List Int} (h : bufferedOutputs m = .ok outs) :
    outs.Sublist m.outputs ∧ (m.kind = .tee → outs = []) ∧ (m.kind = .unwrap → m.outputs ≠ []) := by
  unfold bufferedOutputs at h
  split at h
  · next hkind =>
    cases h
    exact ⟨dropLast_sublist _, by simp [hkind], by simp [hkind]⟩
  · next hkind =>
    cases h
    exact ⟨List.Sublist.refl _, by simp [hkind], by simp [hkind]⟩
  · next hkind =>
    split at h
    · cases h
    · next hout =>
      cases h
      rw [hout]
      exact ⟨by simp, by simp [hkind], by simp⟩
  · next hkind =>
    cases h
    exact ⟨nil_sublist _, fun _ => rfl, fun heq => absurd heq hkind⟩

theorem exists_bufferedOutputs (h : m.kind = .unwrap → m.outputs ≠ []) :
    ∃ outs, bufferedOutputs m = .ok outs := by
  unfold bufferedOutputs
  split
  · exact ⟨_, rfl⟩
  · exact ⟨_, rfl⟩
  · next hkind =>
    obtain ⟨i, ids, hout⟩ := exists_cons_of_ne_nil (h hkind)
    rw [hout]
    exact ⟨_, rfl⟩
  · exact ⟨_, rfl⟩

/-- The buffers that a node asks for can be put in: a node that reads several edges lists none twice
that a node writes, and a node that drops tags has an output. -/
structure CanBuffer (g : Graph) (m : Node) : Prop where
  once : 1 < m.inputs.length → (m.inputs.filter g.isWritten).Nodup
  output : m.kind = .unwrap → m.outputs ≠ []

/-- The inputs that get buffers. -/
def joinedInputs (g : Graph) (m : Node) : List Int :=
    if 1 < m.inputs.length then m.inputs.filter g.isWritten else []

theorem yields_bufferInputs (hv : v₀.Buffering g.view t.nextNode s.next)
    (hm : g.node? k = some m) : Yields (g.bufferInputs s k) t r t' ↔
      (1 < m.inputs.length → (m.inputs.filter g.isWritten).Nodup) ∧
        Yields (addBufferList g s (g.joinedInputs m)) t r t' := by
  have hread : ∀ i ∈ m.inputs, g.view.target i = some k :=
    fun i hi => (hv.sound.target i k).2 ⟨m, hm, hi⟩
  obtain ⟨ins, hedges⟩ := exists_inputEdges hm fun i hi => by
    obtain ⟨e, he, -⟩ := Option.bind_eq_some_iff.1 (hread i hi)
    exact ⟨e, he⟩
  have hins := inputEdges_eq_ok hm hedges
  have hlen : ins.length = m.inputs.length := by rw [← hins, length_map]
  rw [bufferInputs, hedges, show Build.lift (.ok ins) = pure ins from rfl, pure_bind, hins, hlen,
    joinedInputs]
  by_cases hmany : 1 < m.inputs.length
  · rw [if_pos hmany, if_pos hmany,
      yields_addInputBuffers hv (hv.sound.id_lt hm) (hv.sound.inputs_lt hm)]
    exact (and_iff_right hread).trans (and_congr_left fun _ => (imp_iff_right hmany).symm)
  · rw [if_neg hmany, if_neg hmany]
    exact (and_iff_right fun h => absurd h hmany).symm

theorem joinedInputs_written : ∀ i ∈ g.joinedInputs m, g.view.source i ≠ none := by
  intro i hi
  rw [joinedInputs] at hi
  split at hi
  · exact Option.isSome_iff_ne_none.1 (mem_filter.1 hi).2
  · cases hi

theorem bufferedOutputs_congr {m' : Node} (hkind : m'.kind = m.kind)
    (hout : m'.outputs = m.outputs) : bufferedOutputs m' = bufferedOutputs m := by
  rw [bufferedOutputs, bufferedOutputs, hkind, hout]

section

variable (hv : v₀.Buffering g.view t.nextNode s.next) (hm : g.node? k = some m)
include hv hm

/-- **A node asks for buffers on its inputs, if it has several, and on some of its outputs.** -/
theorem yields_bufferNode : Yields (g.bufferNode s k) t r t' ↔
      (1 < m.inputs.length → (m.inputs.filter g.isWritten).Nodup) ∧
        ∃ outs, bufferedOutputs m = .ok outs ∧
        Yields (addBufferList g s (g.joinedInputs m ++ outs)) t r t' := by
  -- buffers on its inputs leave a node what it writes
  have hkept : ∀ {p t₁}, Yields (addBufferList g s (g.joinedInputs m)) t p t₁ →
      ∃ m₁, p.1.node? k = some m₁ ∧ bufferedOutputs m₁ = bufferedOutputs m := by
    intro p t₁ hfirst
    obtain ⟨m₁, f, hm₁, hrenamed⟩ :=
      (addBufferList_inserts (k := k) hv joinedInputs_written hfirst).1.node hv hm
    exact ⟨m₁, hm₁, bufferedOutputs_congr hrenamed.kind_eq hrenamed.outputs⟩
  rw [bufferNode, yields_bind]
  constructor
  · rintro ⟨⟨g₁, s₁⟩, t₁, hfirst, hy⟩
    obtain ⟨honce, hfirst⟩ := (yields_bufferInputs hv hm).1 hfirst
    obtain ⟨m₁, hm₁, hsame⟩ := hkept hfirst
    obtain ⟨m₂, hm₂, hy⟩ := hy.lift_bind
    obtain rfl := Option.mem_unique hm₁ (node_eq_ok.1 hm₂)
    obtain ⟨outs, houts, hy⟩ := hy.lift_bind
    exact ⟨honce, outs, hsame ▸ houts, yields_addBufferList_append.2 ⟨_, _, hfirst, hy⟩⟩
  · rintro ⟨honce, outs, houts, hy⟩
    obtain ⟨p, t₁, hfirst, hy⟩ := yields_addBufferList_append.1 hy
    obtain ⟨m₁, hm₁, hsame⟩ := hkept hfirst
    exact ⟨p, t₁, (yields_bufferInputs hv hm).2 ⟨honce, hfirst⟩,
      yields_lift_bind.2 ⟨m₁, node_eq_ok.2 hm₁,
      yields_lift_bind.2 ⟨outs, hsame.trans houts, hy⟩⟩⟩

theorem asked_written {outs : List Int} (houts : bufferedOutputs m = .ok outs) :
    ∀ i ∈ g.joinedInputs m ++ outs, g.view.source i ≠ none := by
  refine forall_mem_append.2 ⟨joinedInputs_written, fun i hi => ?_⟩
  rw [(hv.sound.source i k).2 ⟨m, hm, (bufferedOutputs_eq_ok houts).1.subset hi⟩]
  simp

theorem bufferNode_inserts (hy : Yields (g.bufferNode s k) t (g', s') t') :
    Inserts g.view t.nextNode s.next g'.view t'.nextNode s'.next ∧ Edits s.next g s'.next g' ∧
      g.CanBuffer m ∧ (1 < m.inputs.length → v₀.GuardedBut g'.view k []) ∧
      t'.nextNode ≤ t.nextNode + m.inputs.length + m.outputs.length ∧
      (m.kind = .tee → m.inputs.length ≤ 1 → t'.nextNode = t.nextNode) := by
  obtain ⟨honce, outs, houts, hy⟩ := (yields_bufferNode hv hm).1 hy
  obtain ⟨hsub, htee, hunwrap⟩ := bufferedOutputs_eq_ok houts
  obtain ⟨hinserts, hedits, hcount, hguard⟩ :=
    addBufferList_inserts (k := k) hv (asked_written hv hm houts) hy
  have hlen := hsub.length_le
  have hjoined : (g.joinedInputs m).length ≤ m.inputs.length := by
    rw [joinedInputs]
    split
    · exact length_filter_le _ _
    · exact Nat.zero_le _
  rw [length_append] at hcount
  refine ⟨hinserts, hedits, ⟨honce, hunwrap⟩, fun hmany => ?_, by omega, fun hkind hfew => ?_⟩
  · refine hguard (hv.sound.id_lt hm) fun m' hm' j hj b hb => .inr (mem_append_left _ ?_)
    obtain rfl := Option.mem_unique hm hm'
    rw [joinedInputs, if_pos hmany]
    exact mem_filter.2 ⟨hj, by simp [isWritten, hb]⟩
  · rw [hcount, htee hkind, joinedInputs, if_neg (by omega)]
    rfl

theorem exists_bufferNode (hbelow : g.Below s.next) (hcan : g.CanBuffer m) :
    ∃ r t', Yields (g.bufferNode s k) t r t' := by
  obtain ⟨outs, houts⟩ := exists_bufferedOutputs hcan.output
  obtain ⟨r, t', hy⟩ := exists_addBufferList hbelow hv (asked_written hv hm houts)
  exact ⟨r, t', (yields_bufferNode hv hm).2 ⟨hcan.once, outs, houts, hy⟩⟩

end

end Graph

end ShellFlow
