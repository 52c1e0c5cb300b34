import ShellFlow.Proofs.Graph.Insertion

/-!
# Who reads an edge once there are buffers

A buffer on an edge becomes the reader of the edge, and no other edge that was there changes its
reader.  So a visit gives new readers to exactly the edges that it puts buffers on.  In a graph that
buffers were put into, an added buffer therefore reads the output of a node for one of two reasons
only: the node was visited and asks for a buffer there, or whoever read the edge reads several.
-/

namespace ShellFlow

open List
open Relation (ReflTransGen)

namespace View

variable {v v' v'' : View} {count next count' next' : Int} {ids ids' : List Int}

/-- Of the edges below `next`, those in `ids` get a reader from `count` on, and all others keep
theirs. -/
def Taps (v v' : View) (count next : Int) (ids : List Int) : Prop :=
  ∀ j < next, (j ∈ ids → ∃ b, v'.target j = some b ∧ count ≤ b) ∧
    (j ∉ ids → v'.target j = v.target j)

theorem Taps.trans (h : v.Taps v' count next ids) (h' : v'.Taps v'' count' next' ids')
    (hcount : count ≤ count') (hnext : next ≤ next') : v.Taps v'' count next (ids ++ ids') := by
  intro j hj
  obtain ⟨htap, hkeep⟩ := h j hj
  obtain ⟨htap', hkeep'⟩ := h' j (by omega)
  rw [mem_append]
  by_cases hlate : j ∈ ids'
  · obtain ⟨b, hb, hle⟩ := htap' hlate
    exact ⟨fun _ => ⟨b, hb, by omega⟩, fun hno => absurd (.inr hlate) hno⟩
  · rw [hkeep' hlate]
    exact ⟨fun hmem => htap (hmem.resolve_right hlate), fun hno => hkeep fun hmem =>
      hno (.inl hmem)⟩

variable {v₀ : View} {i j k : Int} {m : Node}

/-- Buffers never lead to what a node of the graph writes. -/
theorem Buffering.eq_of_buffers (hv : v₀.Buffering v count next) (hm : v₀.node k = some m)
    (hj : j ∈ m.outputs) (hpath : ReflTransGen (v₀.Buffers v) i j) : i = j := by
  rcases hpath.cases_tail with rfl | ⟨c, -, b, n, hnone, hn, hbuffer⟩
  · rfl
  · obtain ⟨m', f, hm', hrenamed, -⟩ := hv.kept k m hm
    have hsource := (hv.sound.source j k).2 ⟨m', hm', hrenamed.outputs ▸ hj⟩
    have hwriter := (hv.sound.source j b).2 ⟨n, hn, by simp [hbuffer.outputs]⟩
    obtain rfl := Option.mem_unique hsource hwriter
    rw [hm] at hnone
    cases hnone

/-- A node of the graph reads directly only those outputs of nodes that it read before. -/
theorem Buffering.mem_inputs (hv : v₀.Buffering v count next) {p : Int} {mp m' : Node}
    (hmp : v₀.node p = some mp) (hi : i ∈ mp.outputs) (hm : v₀.node k = some m)
    (hm' : v.node k = some m') (hreads : i ∈ m'.inputs) : i ∈ m.inputs := by
  obtain ⟨m₁, f, hm₁, hrenamed, -, hpath⟩ := hv.kept k m hm
  obtain rfl := Option.mem_unique hm' hm₁
  rw [hrenamed.inputs] at hreads
  obtain ⟨j, hj, rfl⟩ := mem_map.1 hreads
  rwa [← hv.eq_of_buffers hmp hi (hpath j hj).1]

end View

namespace Graph

variable {g₀ g g' : Graph} {s s' : ChannelSource} {t t' : Supply} {v₀ : View} {i k : Int}
  {m m' : Node}
  {ids visited : List Int}

/-! ### The edges that a visit puts buffers on -/

theorem addBuffer_taps (hi : i < s.next) (hy : Yields (g.addBuffer s i) t (g', s') t') :
    g.view.Taps g'.view t.nextNode s.next [i] := by
  obtain ⟨n, hid, -, -, -, hview, -⟩ := addBuffer_view hi hy
  intro j hj
  rw [hview, mem_singleton]
  refine ⟨?_, fun hne => View.buffer_target_of_ne _ _ hne (by omega)⟩
  rintro rfl
  exact ⟨n.id, View.buffer_target_self _ _ _ _, by omega⟩

theorem addBufferList_taps (hids : ∀ i ∈ ids, i < s.next)
    (hy : Yields (addBufferList g s ids) t (g', s') t') :
    g.view.Taps g'.view t.nextNode s.next ids := by
  induction ids generalizing g s t with
  | nil =>
    obtain ⟨rfl, rfl, rfl⟩ := hy.pure_pair
    exact fun j _ => by simp
  | cons i ids ih =>
    obtain ⟨⟨g₁, s₁⟩, t₁, hfirst, hrest⟩ := hy.bind
    obtain ⟨hi, hids⟩ := forall_mem_cons.1 hids
    obtain ⟨-, -, hcount, -, hnext, -⟩ := addBuffer_view hi hfirst
    have hids' : ∀ j ∈ ids, j < s₁.next := fun j hj => by
      have := hids j hj
      omega
    exact (addBuffer_taps hi hfirst).trans (ih hids' hrest) (by omega) (by omega)

/-- **A visit gives new readers to exactly the edges that the node asks buffers for.** -/
theorem bufferNode_taps (hv : v₀.Buffering g.view t.nextNode s.next) (hm : g.node? k = some m)
    (hy : Yields (g.bufferNode s k) t (g', s') t') :
    ∃ outs, bufferedOutputs m = .ok outs ∧
    g.view.Taps g'.view t.nextNode s.next (g.joinedInputs m ++ outs) := by
  obtain ⟨-, outs, houts, hy⟩ := (yields_bufferNode hv hm).1 hy
  exact ⟨outs, houts,
    addBufferList_taps (fun i hi => hv.sound.lt_of_source (asked_written hv hm houts i hi)) hy⟩

/-! ### The readers during the visits -/

/-- The node writes the edge and asks for a buffer there. -/
def AsksBuffer (m : Node) (i : Int) : Prop := ∃ outs, bufferedOutputs m = .ok outs ∧ i ∈ outs

/-- Who reads the outputs of the nodes of `g₀`, once buffers were put in for the visited ones. -/
structure Parting (g₀ g : Graph) (visited : List Int) : Prop where
  /-- Where a visited node asks for a buffer, one reads. -/
  tapped (k : Int) (m : Node) (i : Int) : k ∈ visited → g₀.node? k = some m → AsksBuffer m i →
    ∃ b, g.view.target i = some b ∧ g₀.node? b = none
  /-- Where an added buffer reads, a visited node asks for it, or someone read the edge and others.
  -/
  asked (k : Int) (m : Node) (i b : Int) : g₀.node? k = some m → i ∈ m.outputs →
    g.view.target i = some b →
    g₀.node? b = none → k ∈ visited ∧ AsksBuffer m i ∨
      ∃ k' m', g₀.node? k' = some m' ∧ i ∈ m'.inputs ∧ 1 < m'.inputs.length

theorem parting_start (hv : g.view.Sound t.nextNode s.next) : Parting g g [] := by
  constructor
  case tapped =>
    intro k m i hk
    cases hk
  case asked =>
    intro k m i b _ _ htarget hnone
    obtain ⟨m', hm', -⟩ := (hv.target i b).1 htarget
    rw [show g.node? b = some m' from hm'] at hnone
    cases hnone

/-- **What a visit keeps**: every edge that gets a new reader is one that the visited node asks a
buffer for. -/
theorem Parting.visit (h : Parting g₀ g visited) (hv : g₀.view.Buffering g.view t.nextNode s.next)
    (hm : g.node? k = some m) (hy : Yields (g.bufferNode s k) t (g', s') t') :
    Parting g₀ g' (k :: visited) := by
  obtain ⟨outs, houts, htaps⟩ := bufferNode_taps hv hm hy
  have hlt : ∀ {k m i}, g₀.node? k = some m → i ∈ m.outputs → i < s.next := by
    intro k m i hm hi
    obtain ⟨m', f, hm', hrenamed, -⟩ := hv.kept k m hm
    exact hv.sound.outputs_lt hm' i (hrenamed.outputs ▸ hi)
  have hasks : ∀ {m₀ i}, g₀.node? k = some m₀ → (AsksBuffer m₀ i ↔ i ∈ outs) := by
    intro m₀ i hm₀
    obtain ⟨m₁, f, hm₁, hrenamed, -⟩ := hv.kept k m₀ hm₀
    obtain rfl := Option.mem_unique hm hm₁
    rw [AsksBuffer, ← bufferedOutputs_congr hrenamed.kind_eq hrenamed.outputs, houts]
    simp
  constructor
  case tapped =>
    intro j m₀ i hj hm₀ hask
    obtain ⟨outs', houts', hi⟩ := hask
    obtain ⟨htap, hkeep⟩ := htaps i (hlt hm₀ ((bufferedOutputs_eq_ok houts').1.subset hi))
    by_cases hmem : i ∈ g.joinedInputs m ++ outs
    · obtain ⟨b, hb, hnew⟩ := htap hmem
      exact ⟨b, hb, hv.unused b hnew⟩
    · rw [hkeep hmem]
      rcases mem_cons.1 hj with rfl | hj
      · exact absurd (mem_append_right _ ((hasks hm₀).1 ⟨outs', houts', hi⟩)) hmem
      · exact h.tapped j m₀ i hj hm₀ ⟨outs', houts', hi⟩
  case asked =>
    intro j m₀ i b hm₀ hi htarget hnone
    obtain ⟨-, hkeep⟩ := htaps i (hlt hm₀ hi)
    by_cases hmem : i ∈ g.joinedInputs m ++ outs
    · cases hk : g₀.node? k with
      | none =>
        -- an added buffer reads one edge and asks for nothing
        obtain ⟨a, c, hbuffer⟩ := hv.added k m hk hm
        rw [joinedInputs, if_neg (by simp [hbuffer.inputs]),
          (bufferedOutputs_eq_ok houts).2.1 hbuffer.kind] at hmem
        cases hmem
      | some mk =>
        obtain ⟨m₁, f, hm₁, hrenamed, -⟩ := hv.kept k mk hk
        obtain rfl := Option.mem_unique hm hm₁
        rcases mem_append.1 hmem with hin | hout
        · rw [joinedInputs] at hin
          split at hin
          · next hmany =>
            rw [hrenamed.inputs, length_map] at hmany
            exact .inr ⟨k, mk, hk, hv.mem_inputs hm₀ hi hk hm (mem_filter.1 hin).1, hmany⟩
          · cases hin
        · -- an edge has one writer
          have hwriter : ∀ {k m m'}, g₀.node? k = some m → g.view.node k = some m' →
              i ∈ m'.outputs →
              g.view.source i = some k := fun _ hm' hi => (hv.sound.source i _).2 ⟨_, hm', hi⟩
          obtain ⟨m₂, f₂, hm₂, hrenamed₂, -⟩ := hv.kept j m₀ hm₀
          have hj := hwriter hm₀ hm₂ (hrenamed₂.outputs ▸ hi)
          have hk' := hwriter hk hm ((bufferedOutputs_eq_ok houts).1.subset hout)
          obtain rfl := Option.mem_unique hj hk'
          exact .inl ⟨mem_cons_self, (hasks hm₀).2 hout⟩
    · rw [hkeep hmem] at htarget
      refine (h.asked j m₀ i b hm₀ hi htarget hnone).imp (fun hvisited => ?_) id
      exact ⟨mem_cons_of_mem _ hvisited.1, hvisited.2⟩

end Graph

end ShellFlow
