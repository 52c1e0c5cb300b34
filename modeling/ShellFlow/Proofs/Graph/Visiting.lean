import Mathlib.Algebra.GroupWithZero.Nat
import Mathlib.Algebra.Order.BigOperators.Group.List
import Mathlib.Algebra.Order.Group.Nat
import ShellFlow.Proofs.Graph.Parting
import ShellFlow.Proofs.Graph.Preservation
import ShellFlow.Proofs.Lists

/-!
# Visiting the nodes behind the sources

Nodes wait to be visited, and a node is given its buffers when it is visited first.  The visit walks
over edges that change under it: a buffer may come to stand between a node and its reader, and is
visited like any other node.  What is kept is that behind all that was visited the next node which
is no buffer, or a buffer before it, was visited or waits.
-/

namespace ShellFlow.Graph

open List

variable {g g' : Graph} {s s' : ChannelSource} {t t' : Supply} {i k : Int} {m : Node}
  {ids : List Int}
  {count next : Int} {g₀ : Graph} {visited : List Int} (ws ws' : List (Int × Nat))

/-- The other ends of edges that all have a node at one end. -/
theorem mapM_ends {here there : Edge → Option Int} (h : ∀ i ∈ ids, (g.edge? i).bind here = some k) :
    (ids.mapM fun i => do
      let edge ← g.edge i
      require (here edge == some k)
      return there edge :
      Except Fault (List (Option Int))) = .ok (ids.map fun i => (g.edge? i).bind there) := by
  induction ids with
  | nil => rfl
  | cons i _ ih =>
    obtain ⟨e, he, hhere⟩ := Option.bind_eq_some_iff.1 (h i mem_cons_self)
    rw [mapM_cons, map_cons, he, Option.bind_some]
    refine bind_eq_ok.2 ⟨there e, bind_eq_ok.2 ⟨e, edge_eq_ok.2 he, ?_⟩,
      bind_eq_ok.2 ⟨_, ih fun j hj => h j (mem_cons_of_mem _ hj), rfl⟩⟩
    exact bind_eq_ok.2 ⟨(), by simp [require, hhere], rfl⟩

theorem nextNodes_eq (hsource : Listed g.node? Node.outputs g.view.source)
    (hm : g.node? k = some m) : g.nextNodes k = .ok (m.outputs.filterMap g.view.target) := by
  refine bind_eq_ok.2 ⟨m.outputs, bind_eq_ok.2 ⟨m, node_eq_ok.2 hm, rfl⟩,
    bind_eq_ok.2 ⟨_, mapM_ends fun i hi => (hsource i k).2 ⟨m, hm, hi⟩, ?_⟩⟩
  rw [filterMap_map]
  rfl

theorem previousNodes_eq (htarget : Listed g.node? Node.inputs g.view.target)
    (hm : g.node? k = some m) : g.previousNodes k = .ok (m.inputs.filterMap g.view.source) := by
  refine bind_eq_ok.2 ⟨m.inputs, bind_eq_ok.2 ⟨m, node_eq_ok.2 hm, rfl⟩,
    bind_eq_ok.2 ⟨_, mapM_ends fun i hi => (htarget i k).2 ⟨m, hm, hi⟩, ?_⟩⟩
  rw [filterMap_map]
  rfl

theorem canBuffer_iff {m₀ : Node} (hv : g₀.view.Buffering g.view count next)
    (hm₀ : g₀.node? k = some m₀) (hm : g.node? k = some m) : g.CanBuffer m ↔ g₀.CanBuffer m₀ := by
  obtain ⟨m', f, hm', hrenamed, hinj, hpath⟩ := hv.kept k m₀ hm₀
  obtain rfl := Option.mem_unique hm hm'
  have hlen : m.inputs.length = m₀.inputs.length := by rw [hrenamed.inputs, length_map]
  have hwritten : m₀.inputs.filter (g.isWritten ∘ f) = m₀.inputs.filter g₀.isWritten := by
    refine filter_congr fun j hj => ?_
    have hiff := (hpath j hj).2
    rw [Function.comp, isWritten, isWritten, Bool.eq_iff_iff, Option.isSome_iff_ne_none,
      Option.isSome_iff_ne_none]
    exact not_congr hiff
  have honce : (m.inputs.filter g.isWritten).Nodup ↔ (m₀.inputs.filter g₀.isWritten).Nodup := by
    rw [hrenamed.inputs, filter_map, hwritten]
    refine ⟨List.Nodup.of_map f, List.Nodup.map_on fun j hj j' hj' => ?_⟩
    exact hinj j (mem_filter.1 hj).1 j' (mem_filter.1 hj').1
  constructor
  · rintro ⟨h, hout⟩
    refine ⟨fun hmany => honce.1 (h (by omega)), fun hkind => ?_⟩
    rw [← hrenamed.outputs]
    exact hout (hrenamed.kind_eq.trans hkind)
  · rintro ⟨h, hout⟩
    refine ⟨fun hmany => honce.2 (h (by omega)), fun hkind => ?_⟩
    rw [hrenamed.outputs]
    exact hout (hrenamed.kind_eq.symm.trans hkind)

/-- A node reads what some node writes. -/
def ReadsWritten (g : Graph) (m : Node) : Prop := ∃ i ∈ m.inputs, g.view.source i ≠ none

/-- Buffers were put into `g₀`, with the graph `g` as result so far; `first` is the number of the
first buffer. -/
structure Visiting (g₀ g : Graph) (s : ChannelSource) (t : Supply) (first : Nat)
    (waiting visited : List Int) : Prop where
  buffering : g₀.view.Buffering g.view t.nextNode s.next
  below : g.Below s.next
  first_le : first ≤ t.nextNode
  fresh (k : Int) (n : Node) : g₀.node? k = none → g.node? k = some n → first ≤ k
  known (k : Int) : k ∈ waiting ∨ k ∈ visited → ∃ m, g.node? k = some m
  reads (k : Int) (m : Node) : k ∈ waiting ∨ k ∈ visited → g₀.node? k = some m → g₀.ReadsWritten m
  covered (k : Int) (m : Node) : k ∈ g₀.sourceNodes ∨ k ∈ visited → g.node? k = some m →
    ∀ j ∈ m.outputs,
    g₀.view.Covered g.view (fun k' => k' ∈ waiting ∨ k' ∈ visited) j
  guarded (k : Int) (m : Node) : k ∈ visited → g₀.node? k = some m → 1 < m.inputs.length →
    g₀.view.GuardedBut g.view k []
  checked (k : Int) (m : Node) : k ∈ visited → g₀.node? k = some m → g₀.CanBuffer m
  parting : Parting g₀ g visited

namespace Visiting

variable {first : Nat} {rest : List Int}

/-- A node that was visited before is passed over. -/
theorem skip (h : Visiting g₀ g s t first (k :: rest) visited) (hk : k ∈ visited) :
    Visiting g₀ g s t first rest visited := by
  have hsub : ∀ j, j ∈ rest ∨ j ∈ visited → j ∈ k :: rest ∨ j ∈ visited :=
    fun j hj => hj.imp (mem_cons_of_mem _) id
  have hback : ∀ j, j ∈ k :: rest ∨ j ∈ visited → j ∈ rest ∨ j ∈ visited := by
    rintro j (hj | hj)
    · rcases mem_cons.1 hj with rfl | hj
      · exact .inr hk
      · exact .inl hj
    · exact .inr hj
  exact { h with
    known := fun j hj => h.known j (hsub j hj)
    reads := fun j m hj => h.reads j m (hsub j hj)
    covered := fun j m hj hm i hi => (h.covered j m hj hm i hi).mono hback }

/-- A node that another node writes for reads a written edge, in the graph without buffers too. -/
theorem readsWritten_of_target (h : Visiting g₀ g s t first rest visited) {j k' : Int} {m₀ : Node}
    (hwritten : g.view.source j ≠ none) (htarget : g.view.target j = some k')
    (hm₀ : g₀.node? k' = some m₀) : g₀.ReadsWritten m₀ := by
  obtain ⟨m, f, hm, hrenamed, -, hpath⟩ := h.buffering.kept k' m₀ hm₀
  obtain ⟨m', hm', hj⟩ := (h.buffering.sound.target j k').1 htarget
  obtain rfl := Option.mem_unique hm hm'
  rw [hrenamed.inputs] at hj
  obtain ⟨i, hi, rfl⟩ := mem_map.1 hj
  exact ⟨i, hi, fun hnone => hwritten ((hpath i hi).2.2 hnone)⟩

/-- **One node is visited.** -/
theorem visit (h : Visiting g₀ g s t first (k :: rest) visited) (hm : g.node? k = some m)
    (hsources : ∀ k ∈ g₀.sourceNodes, ∃ m, g₀.node? k = some m)
    (hy : Yields (g.bufferNode s k) t (g', s') t') :
    Visiting g₀ g' s' t' first (rest ++ m.outputs.filterMap g.view.target) (k :: visited) := by
  have hv := h.buffering
  obtain ⟨hinserts, hedits, hcan, hguard, -, -⟩ := bufferNode_inserts hv hm hy
  have hcount := hinserts.count_le
  have hfirst := h.first_le
  -- what is ahead: nodes that were waiting, and the readers of the outputs
  have hahead : ∀ j, j ∈ rest ++ m.outputs.filterMap g.view.target ∨ j ∈ k :: visited →
      (j ∈ k :: rest ∨ j ∈ visited) ∨ ∃ i ∈ m.outputs, g.view.target i = some j := by
    rintro j (hj | hj)
    · rcases mem_append.1 hj with hj | hj
      · exact .inl (.inl (mem_cons_of_mem _ hj))
      · exact .inr (mem_filterMap.1 hj)
    · rcases mem_cons.1 hj with rfl | hj
      · exact .inl (.inl mem_cons_self)
      · exact .inl (.inr hj)
  have hknown : ∀ j, j ∈ rest ++ m.outputs.filterMap g.view.target ∨ j ∈ k :: visited →
      ∃ m', g.node? j = some m' := by
    intro j hj
    rcases hahead j hj with hj | ⟨i, -, htarget⟩
    · exact h.known j hj
    · obtain ⟨m', hm', -⟩ := (hv.sound.target i j).1 htarget
      exact ⟨m', hm'⟩
  constructor
  case buffering => exact hinserts.buffering hv
  case below => exact hedits.below h.below
  case first_le => omega
  case fresh =>
    intro j n hnone hn
    rcases hinserts.of_node hv hn with ⟨n₁, -, hn₁, -⟩ | hj
    · exact h.fresh j n₁ hnone hn₁
    · omega
  case known =>
    intro j hj
    obtain ⟨m', hm'⟩ := hknown j hj
    obtain ⟨m'', -, hm'', -⟩ := hinserts.node hv hm'
    exact ⟨m'', hm''⟩
  case reads =>
    intro j m₀ hj hm₀
    rcases hahead j hj with hj | ⟨i, hi, htarget⟩
    · exact h.reads j m₀ hj hm₀
    · have hsource := (hv.sound.source i k).2 ⟨m, hm, hi⟩
      exact h.readsWritten_of_target (by simp [hsource]) htarget hm₀
  case covered =>
    intro j m' hj hm' i hi
    -- the node was there before its buffers were put in
    have hold : ∃ m₁ f, g.node? j = some m₁ ∧ m₁.Renamed f m' := by
      rcases hinserts.of_node hv hm' with hold | hnew
      · exact hold
      · rcases hj with hj | hj
        · obtain ⟨m₀, hm₀⟩ := hsources j hj
          have hnone : g₀.node? j = none := hv.unused j hnew
          rw [hm₀] at hnone
          cases hnone
        · obtain ⟨m₁, hm₁⟩ := hknown j (.inr hj)
          have := hv.sound.id_lt hm₁
          omega
    obtain ⟨m₁, f, hm₁, hrenamed⟩ := hold
    rw [hrenamed.outputs] at hi
    refine hinserts.covered hv (hv.sound.outputs_lt hm₁ i hi) ?_
    by_cases hjk : j = k
    · subst hjk
      obtain rfl := Option.mem_unique hm₁ hm
      refine ⟨i, .refl, fun k' htarget => .inl (mem_append_right _ ?_)⟩
      exact mem_filterMap.2 ⟨i, hi, htarget⟩
    · have hj : j ∈ g₀.sourceNodes ∨ j ∈ visited :=
        hj.imp id fun hmem => (mem_cons.1 hmem).resolve_left hjk
      refine (h.covered j m₁ hj hm₁ i hi).mono ?_
      rintro k' (hk' | hk')
      · rcases mem_cons.1 hk' with rfl | hk'
        · exact .inr mem_cons_self
        · exact .inl (mem_append_left _ hk')
      · exact .inr (mem_cons_of_mem _ hk')
  case guarded =>
    intro j m₀ hj hm₀ hmany
    rcases mem_cons.1 hj with rfl | hj
    · obtain ⟨m₁, f, hm₁, hrenamed, -⟩ := hv.kept j m₀ hm₀
      obtain rfl := Option.mem_unique hm hm₁
      refine hguard ?_
      rwa [hrenamed.inputs, length_map]
    · obtain ⟨m₁, hm₁⟩ := h.known j (.inr hj)
      exact hinserts.guarded hv (hv.sound.id_lt hm₁) (h.guarded j m₀ hj hm₀ hmany)
  case checked =>
    intro j m₀ hj hm₀
    rcases mem_cons.1 hj with rfl | hj
    · exact (canBuffer_iff hv hm₀ hm).1 hcan
    · exact h.checked j m₀ hj hm₀
  case parting => exact h.parting.visit hv hm hy

/-- **What all visits together keep.** -/
theorem run {steps : Nat} {waiting : List Int} (h : Visiting g₀ g s t first waiting visited)
    (hsources : ∀ k ∈ g₀.sourceNodes, ∃ m, g₀.node? k = some m)
    (hy : Yields (bufferVisit steps g s waiting visited) t g' t') :
    ∃ s' visited', Visiting g₀ g' s' t' first [] visited' ∧ Edits s.next g s'.next g' := by
  induction steps generalizing g s t waiting visited with
  | zero =>
    cases waiting with
    | nil =>
      obtain ⟨rfl, rfl⟩ := hy.pure
      exact ⟨s, visited, h, .refl _ _⟩
    | cons => exact (yields_throw.1 hy).elim
  | succ _ ih =>
    cases waiting with
    | nil =>
      obtain ⟨rfl, rfl⟩ := hy.pure
      exact ⟨s, visited, h, .refl _ _⟩
    | cons =>
      obtain ⟨m, hm, hy⟩ := hy.lift_bind
      have hm := node_eq_ok.1 hm
      split at hy
      · next hk => exact ih (h.skip (by simpa using hk)) hy
      · obtain ⟨after, hafter, hy⟩ := hy.lift_bind
        rw [nextNodes_eq h.buffering.sound.source hm] at hafter
        cases hafter
        obtain ⟨⟨g₁, s₁⟩, t₁, hnode, hy⟩ := hy.bind
        obtain ⟨s', visited', hend, hedits⟩ := ih (h.visit hm hsources hnode) hy
        exact ⟨s', visited', hend, (bufferNode_inserts h.buffering hm hnode).2.1.trans hedits⟩

end Visiting

/-! ### The number of visits -/

/-- What a visit can cost at most: the outputs of a node, and a buffer for each of its edges. -/
def weight (m : Node) : Nat := m.inputs.length + 2 * m.outputs.length

/-- The nodes that can be visited, with their weights: nodes of the graph and `count` buffers. -/
def weights (g : Graph) (first : Int) (count : Nat) : List (Int × Nat) :=
  g.nodes.entries.map (fun e => (e.1, weight e.2)) ++ (freshIds first count).map fun k => (k, 1)

def unvisitedWeight (visited : List Int) : Nat :=
  ((ws.filter fun w => !visited.contains w.1).map (·.2)).sum

theorem unvisitedWeight_append (visited : List Int) :
    unvisitedWeight (ws ++ ws') visited = unvisitedWeight ws visited +
      unvisitedWeight ws' visited := by
  simp [unvisitedWeight]

theorem unvisitedWeight_cons_le (k : Int) (visited : List Int) :
    unvisitedWeight ws (k :: visited) ≤ unvisitedWeight ws visited := by
  refine List.Sublist.sum_le_sum ((monotone_filter_right ws ?_).map _) (by simp)
  intro w hw
  simp only [contains_cons, Bool.not_or, Bool.and_eq_true] at hw
  exact hw.2

/-- A visited node has no weight any more. -/
theorem unvisitedWeight_visit {ws : List (Int × Nat)} {w : Nat} (hmem : (k, w) ∈ ws)
    (hk : k ∉ visited) : unvisitedWeight ws (k :: visited) + w ≤ unvisitedWeight ws visited := by
  obtain ⟨before, after, rfl⟩ := append_of_mem hmem
  have hbefore := unvisitedWeight_cons_le before k visited
  have hafter := unvisitedWeight_cons_le after k visited
  have hown : unvisitedWeight ((k, w) :: after) visited = w + unvisitedWeight after visited := by
    simp [unvisitedWeight, hk]
  have hgone : unvisitedWeight ((k, w) :: after) (k :: visited) =
      unvisitedWeight after (k :: visited) := by
    simp [unvisitedWeight]
  rw [unvisitedWeight_append, unvisitedWeight_append, hown, hgone]
  omega

theorem unvisitedWeight_more (g : Graph) (first : Int) (count more : Nat) (visited : List Int) :
    unvisitedWeight (g.weights first (count + more)) visited ≤
      unvisitedWeight (g.weights first count) visited + more := by
  have hones : ∀ ids : List Int, unvisitedWeight (ids.map fun k => (k, 1)) visited ≤
      ids.length := by
    intro ids
    induction ids with
    | nil => exact Nat.le_refl 0
    | cons k ids ih =>
      have hone : unvisitedWeight [(k, 1)] visited ≤ 1 := by
        by_cases hk : k ∈ visited <;> simp [unvisitedWeight, hk]
      have hcons := unvisitedWeight_append [(k, 1)] (ids.map fun k => (k, 1)) visited
      rw [map_cons, length_cons, ← singleton_append, hcons]
      omega
  have hfresh := hones (freshIds (first + count) more)
  rw [length_freshIds] at hfresh
  rw [weights, weights, freshIds_append, map_append, ← List.append_assoc, unvisitedWeight_append]
  omega

theorem Visiting.exists_run {first steps : Nat} {waiting : List Int}
    (h : Visiting g₀ g s t first waiting visited)
    (hsources : ∀ k ∈ g₀.sourceNodes, ∃ m, g₀.node? k = some m)
    (hcan : ∀ k m, g₀.node? k = some m → g₀.ReadsWritten m → g₀.CanBuffer m)
    (hsteps : waiting.length + unvisitedWeight (g₀.weights first (t.nextNode - first)) visited ≤
      steps) :
    ∃ g' t', Yields (bufferVisit steps g s waiting visited) t g' t' := by
  induction steps generalizing g s t waiting visited with
  | zero =>
    obtain rfl : waiting = [] := eq_nil_of_length_eq_zero (by omega)
    exact ⟨g, t, yields_pure.2 ⟨rfl, rfl⟩⟩
  | succ steps ih =>
    cases waiting with
    | nil => exact ⟨g, t, yields_pure.2 ⟨rfl, rfl⟩⟩
    | cons k rest =>
      rw [length_cons] at hsteps
      obtain ⟨m, hm⟩ := h.known k (.inl mem_cons_self)
      by_cases hk : k ∈ visited
      · obtain ⟨g', t', hy⟩ := ih (h.skip hk) (by omega)
        refine ⟨g', t', yields_lift_bind.2 ⟨m, node_eq_ok.2 hm, ?_⟩⟩
        rwa [if_pos (by simpa using hk)]
      · have hv := h.buffering
        have hfirst := h.first_le
        have hcan' : g.CanBuffer m := by
          cases hm₀ : g₀.node? k with
          | none =>
            obtain ⟨a, c, hbuffer⟩ := hv.added k m hm₀ hm
            exact ⟨by simp [hbuffer.inputs], by simp [hbuffer.kind]⟩
          | some m₀ =>
            exact (canBuffer_iff hv hm₀ hm).2
              (hcan k m₀ hm₀ (h.reads k m₀ (.inl mem_cons_self) hm₀))
        obtain ⟨⟨g₁, s₁⟩, t₁, hnode⟩ := exists_bufferNode hv hm h.below hcan'
        obtain ⟨hinserts, -, -, -, hcount, hnone⟩ := bufferNode_inserts hv hm hnode
        have hle : t.nextNode ≤ t₁.nextNode := Int.ofNat_le.1 hinserts.count_le
        have hafter : (m.outputs.filterMap g.view.target).length ≤ m.outputs.length :=
          length_filterMap_le _ _
        have hmore := unvisitedWeight_more g₀ first (t.nextNode - first) (t₁.nextNode - t.nextNode)
          (k :: visited)
        rw [show t.nextNode - first + (t₁.nextNode - t.nextNode) =
          t₁.nextNode - first by omega] at hmore
        -- a node of the graph pays for its buffers, and a buffer for the node behind it
        have hpays : unvisitedWeight (g₀.weights first (t.nextNode - first)) (k :: visited) +
            (t₁.nextNode - t.nextNode) + m.outputs.length ≤
              unvisitedWeight (g₀.weights first (t.nextNode - first)) visited := by
          cases hm₀ : g₀.node? k with
          | none =>
            obtain ⟨a, c, hbuffer⟩ := hv.added k m hm₀ hm
            have hlow := h.fresh k m hm₀ hm
            have hhigh := hv.sound.id_lt hm
            have hmem : (k, 1) ∈ g₀.weights first (t.nextNode - first) := by
              refine mem_append_right _ (mem_map.2 ⟨k, mem_freshIds.2 ⟨hlow, by omega⟩, rfl⟩)
            have hvisit := unvisitedWeight_visit hmem hk
            rw [hnone hbuffer.kind (by simp [hbuffer.inputs]), hbuffer.outputs, length_singleton]
            omega
          | some m₀ =>
            obtain ⟨m₁, f, hm₁, hrenamed, -⟩ := hv.kept k m₀ hm₀
            obtain rfl := Option.mem_unique hm hm₁
            have hmem : (k, weight m₀) ∈ g₀.weights first (t.nextNode - first) := by
              refine mem_append_left _ (mem_map.2 ⟨(k, m₀), ?_, rfl⟩)
              exact Table.mem_entries_of_get? hm₀
            have hvisit := unvisitedWeight_visit hmem hk
            have hin : m.inputs.length = m₀.inputs.length := by rw [hrenamed.inputs, length_map]
            rw [hrenamed.outputs] at hcount ⊢
            rw [weight] at hvisit
            omega
        obtain ⟨g', t', hy⟩ := ih (h.visit hm hsources hnode) (by
          rw [length_append]
          omega)
        refine ⟨g', t', yields_lift_bind.2 ⟨m, node_eq_ok.2 hm, ?_⟩⟩
        rw [if_neg (by simpa using hk)]
        exact yields_lift_bind.2 ⟨_, nextNodes_eq hv.sound.source hm,
          yields_bind.2 ⟨(g₁, s₁), t₁, hnode, hy⟩⟩

/-! ### The sources -/

theorem nodup_sourceNodes (g : Graph) : g.sourceNodes.Nodup := nodup_eraseDups _

theorem mem_sourceNodes : k ∈ g.sourceNodes ↔
    (∃ e ∈ g.edges.values, e.source = none ∧ e.target = some k) ∨ ∃ n, (k, n) ∈ g.nodes.entries ∧
    n.inputs = [] := by
  rw [sourceNodes, mem_eraseDups, mem_append]
  refine or_congr ?_ ?_
  · rw [mem_filterMap]
    refine exists_congr fun e => and_congr_right fun _ => ?_
    cases e.source <;> simp
  · simp

theorem exists_of_mem_sourceNodes (hcons : g.consistent? = .ok true) (hk : k ∈ g.sourceNodes) :
    ∃ m, g.node? k = some m := by
  rcases mem_sourceNodes.1 hk with ⟨e, he, -, htarget⟩ | ⟨n, hn, -⟩
  · obtain ⟨⟨i, e⟩, hmem, rfl⟩ := mem_map.1 he
    obtain ⟨b, hedges, hrest⟩ := bind_eq_ok.1 hcons
    cases b with
    | false => cases hrest
    | true =>
      have hagrees := allM_eq_true hedges (i, e) hmem
      obtain ⟨b, -, hlisted⟩ := bind_eq_ok.1 hagrees
      cases b with
      | false => cases hlisted
      | true =>
        obtain ⟨m, hm, -⟩ := endListed_eq_true hlisted htarget
        exact ⟨m, hm⟩
  · cases hm : g.node? k with
    | none => exact absurd (Table.mem_keys_iff.2 ⟨n, hn⟩) (Table.get?_eq_none_iff.1 hm)
    | some m => exact ⟨m, rfl⟩

/-- The nodes that read the outputs of a node. -/
def readers (g : Graph) (k : Int) : List Int :=
  match g.node? k with
  | some m => m.outputs.filterMap g.view.target
  | none => []

theorem mapM_nextNodes (hv : g.view.Sound count next) (h : ∀ k ∈ ids, ∃ m, g.node? k = some m) :
    ids.mapM g.nextNodes = .ok (ids.map g.readers) := by
  induction ids with
  | nil => rfl
  | cons k ids ih =>
    obtain ⟨m, hm⟩ := h k mem_cons_self
    have hreaders : g.readers k = m.outputs.filterMap g.view.target := by rw [readers, hm]
    rw [mapM_cons]
    refine bind_eq_ok.2 ⟨g.readers k, ?_, bind_eq_ok.2 ⟨ids.map g.readers, ?_, rfl⟩⟩
    · rw [hreaders]
      exact nextNodes_eq hv.source hm
    · exact ih fun j hj => h j (mem_cons_of_mem _ hj)

/-- In the beginning there are no buffers, and the readers behind the sources wait. -/
theorem visiting_start (order : SetOrder) (hv : g.view.Sound t.nextNode s.next)
    (hloop : g.view.NoLoop) (hbelow : g.Below s.next) :
    Visiting g g s t t.nextNode ((order.list g.sourceNodes).map g.readers).flatten [] := by
  have hmem : ∀ k, k ∈ ((order.list g.sourceNodes).map g.readers).flatten ∨ k ∈ ([] : List Int) →
      ∃ i, g.view.source i ≠ none ∧ g.view.target i = some k := by
    rintro k (hk | hk)
    · obtain ⟨ks, hks, hk⟩ := mem_flatten.1 hk
      obtain ⟨j, -, rfl⟩ := mem_map.1 hks
      cases hm : g.node? j with
      | none => simp [readers, hm] at hk
      | some m =>
        rw [readers, hm] at hk
        obtain ⟨i, hi, htarget⟩ := mem_filterMap.1 hk
        exact ⟨i, by simp [(hv.source i j).2 ⟨m, hm, hi⟩], htarget⟩
    · cases hk
  constructor
  case buffering => exact hv.buffering hloop
  case below => exact hbelow
  case first_le => exact Nat.le_refl _
  case fresh =>
    intro k n hnone hn
    rw [hnone] at hn
    cases hn
  case known =>
    intro k hk
    obtain ⟨i, -, htarget⟩ := hmem k hk
    obtain ⟨m, hm, -⟩ := (hv.target i k).1 htarget
    exact ⟨m, hm⟩
  case reads =>
    intro k m hk hm
    obtain ⟨i, hwritten, htarget⟩ := hmem k hk
    obtain ⟨m', hm', hi⟩ := (hv.target i k).1 htarget
    obtain rfl := Option.mem_unique hm hm'
    exact ⟨i, hi, hwritten⟩
  case covered =>
    rintro k m (hk | hk) hm i hi
    · have hk := (order.perm _).mem_iff.2 hk
      refine ⟨i, .refl, fun k' htarget => .inl (mem_flatten.2 ⟨g.readers k, mem_map_of_mem hk, ?_⟩)⟩
      rw [readers, hm]
      exact mem_filterMap.2 ⟨i, hi, htarget⟩
    · cases hk
  case guarded =>
    intro k m hk
    cases hk
  case checked =>
    intro k m hk
    cases hk
  case parting => exact parting_start hv

theorem visitBound_eq (g : Graph) :
    g.visitBound = 1 + (g.nodes.entries.map fun e => weight e.2 + e.2.outputs.length).sum := by
  have hfold : ∀ (ns : List Node) (steps : Nat),
      ns.foldl (fun steps n => steps + n.inputs.length + 3 * n.outputs.length) steps =
        steps + (ns.map fun n => weight n + n.outputs.length).sum := by
    intro ns
    induction ns with
    | nil => simp
    | cons n ns ih =>
      intro steps
      rw [foldl_cons, ih, map_cons, sum_cons, weight]
      omega
  rw [visitBound, hfold, Table.values, map_map]
  rfl

/-- The first readers are at most as many as the outputs of all nodes. -/
theorem length_readers_le (g : Graph) (order : SetOrder) :
    ((order.list g.sourceNodes).map g.readers).flatten.length ≤
    (g.nodes.entries.map fun e => e.2.outputs.length).sum := by
  let find : Int → Option (Int × Node) := fun k => (g.node? k).map (k, ·)
  have hfind : ∀ {k e}, find k = some e ↔ e.1 = k ∧ g.node? k = some e.2 := by
    rintro k ⟨j, m⟩
    simp only [find, Option.map_eq_some_iff, Prod.mk.injEq]
    grind
  have hlen : ∀ ids : List Int, (ids.map g.readers).flatten.length ≤
      ((ids.filterMap find).map fun e => e.2.outputs.length).sum := by
    intro ids
    induction ids with
    | nil => exact Nat.le_refl 0
    | cons k _ ih =>
      rw [map_cons, flatten_cons, length_append, filterMap_cons]
      cases hm : g.node? k with
      | none =>
        have hnone : find k = none := by simp only [find, hm, Option.map_none]
        have hreaders : g.readers k = [] := by rw [readers, hm]
        rw [hnone, hreaders, length_nil, Nat.zero_add]
        exact ih
      | some m =>
        have hsome : find k = some (k, m) := by simp only [find, hm, Option.map_some]
        have hreaders : (g.readers k).length ≤ m.outputs.length := by
          rw [readers, hm]
          exact length_filterMap_le _ _
        rw [hsome, map_cons, sum_cons]
        exact Nat.add_le_add hreaders ih
  -- different sources are different entries of the table
  have hnodup : ((order.list g.sourceNodes).filterMap find).Nodup := by
    refine ((order.perm _).nodup_iff.2 (nodup_sourceNodes g)).filterMap fun k k' e he he' => ?_
    exact (hfind.1 he).1.symm.trans (hfind.1 he').1
  have hsub : (order.list g.sourceNodes).filterMap find ⊆ g.nodes.entries := by
    intro e he
    obtain ⟨k, -, hk⟩ := mem_filterMap.1 he
    obtain ⟨rfl, hm⟩ := hfind.1 hk
    exact Table.mem_entries_of_get? hm
  obtain ⟨es, hperm, hsublist⟩ := hnodup.subperm hsub
  calc ((order.list g.sourceNodes).map g.readers).flatten.length
      ≤ (((order.list g.sourceNodes).filterMap find).map fun e => e.2.outputs.length).sum := hlen _
    _ = (es.map fun e => e.2.outputs.length).sum := (hperm.map _).sum_eq.symm
    _ ≤ (g.nodes.entries.map fun e => e.2.outputs.length).sum :=
      (hsublist.map _).sum_le_sum (by simp)

theorem start_le_visitBound (g : Graph) (order : SetOrder) (first : Int) :
    ((order.list g.sourceNodes).map g.readers).flatten.length + unvisitedWeight
    (g.weights first 0) [] ≤
      g.visitBound := by
  have hlen := length_readers_le g order
  have hweights : unvisitedWeight (g.weights first 0) [] =
      (g.nodes.entries.map fun e => weight e.2).sum := by
    simp [unvisitedWeight, weights, freshIds, Function.comp_def]
  rw [visitBound_eq, hweights, sum_map_add]
  omega

end ShellFlow.Graph
