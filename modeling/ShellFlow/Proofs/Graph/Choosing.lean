import ShellFlow.Proofs.Graph.Partitioning
import ShellFlow.Proofs.Lists

/-!
# The order in which divisions are chosen

Nodes wait for their choice, and one for which a node in front still waits is put back.  In a graph
without cycles some waiting node can always be visited, so the visit never has to be given up: it is
the loop that puts nodes back as often as it takes.  Every node is visited once, behind all nodes in
front of it.
-/

namespace ShellFlow.Graph

open List

/-- The loop over waiting nodes: a node is put back as long as a node in front of it was not
visited.  It ends with the choices for the visited nodes. -/
inductive Loops (g : Graph) : (waiting visited : List Int) →
    (chosen result : List (Int × Option Parallelizer)) → Prop
  | done (visited chosen) : Loops g [] visited chosen chosen
  | again {n rest visited chosen result before} (hbefore : g.previousNodes n = .ok before)
      (hall : before ⊆ visited) (hn : n ∈ visited) (hrest : Loops g rest visited chosen result) :
      Loops g (n :: rest) visited chosen result
  | choose {n rest visited chosen result before after node}
      (hbefore : g.previousNodes n = .ok before) (hall : before ⊆ visited) (hn : n ∉ visited)
      (hnode : g.node? n = some node) (hafter : g.nextNodes n = .ok after)
      (hrest : Loops g (rest ++ after) (n :: visited) (chosen ++ [(n, node.choice)]) result) :
      Loops g (n :: rest) visited chosen result
  | putBack {n rest visited chosen result before} (hbefore : g.previousNodes n = .ok before)
      (hall : ¬ before ⊆ visited) (hrest : Loops g (rest ++ [n]) visited chosen result) :
      Loops g (n :: rest) visited chosen result

variable {g : Graph} {k l n : Int} {m : Node} {waiting rest visited : List Int}
  {chosen result : List (Int × Option Parallelizer)}

/-- **A visit that gives choices is the loop.** -/
theorem loops_of_visit {putBack : Nat} (h : g.visit waiting putBack visited chosen = .ok result) :
    g.Loops waiting visited chosen result := by
  fun_induction visit g waiting putBack visited chosen with
  | case1 _ visited chosen =>
    obtain rfl := Except.ok.inj h
    exact .done visited chosen
  | case2 => cases h
  | case3 => cases h
  | case4 _ _ _ _ _ _ _ _ hbefore hall hn ih =>
    exact .again hbefore (all_contains_iff.1 hall) (by simpa using hn) (ih h)
  | case5 => cases h
  | case6 _ _ _ _ _ _ hnode _ hbefore hall hn _ hafter ih =>
    exact .choose hbefore (all_contains_iff.1 hall) (by simpa using hn) hnode hafter (ih h)
  | case7 _ _ _ _ _ _ _ _ hbefore hall _ ih =>
    exact .putBack hbefore (mt all_contains_iff.2 hall) (ih h)
  | case8 => cases h

theorem mem_writers_iff (hcons : g.consistent? = .ok true) (hm : g.node? n = some m) :
    l ∈ m.inputs.filterMap g.view.source ↔ g.Feeds l n := by
  rw [mem_filterMap]
  refine exists_congr fun i => and_comm.trans (and_congr_right' ?_)
  rw [(listed_of_consistent hcons).2 i n]
  simp [hm]

/-- Some nodes wait, perhaps more than once, and others were visited, the last of them first.  All
nodes that can be visited are among them. -/
structure Choosing (g : Graph) (waiting visited : List Int)
    (chosen : List (Int × Option Parallelizer)) : Prop where
  known (k : Int) : k ∈ waiting ++ visited → ∃ m, g.node? k = some m
  keys : chosen.map (·.1) = visited.reverse
  order (after : List Int) (k : Int) (before : List Int) : visited = after ++ k :: before →
    g.Fed before k
  waits (k : Int) (m : Node) : g.node? k = some m → g.Fed visited k → k ∈ waiting ++ visited

namespace Choosing

theorem fed (h : g.Choosing waiting visited chosen) (hk : k ∈ visited) : g.Fed visited k := by
  obtain ⟨after, before, rfl⟩ := append_of_mem hk
  intro l hl
  exact mem_append_right _ (mem_cons_of_mem _ (h.order after k before rfl l hl))

/-- In which order nodes wait, and how often, makes no difference. -/
theorem of_mem_iff {waiting' : List Int} (h : g.Choosing waiting visited chosen)
    (hmem : ∀ k, k ∈ waiting' ++ visited ↔ k ∈ waiting ++ visited) :
    g.Choosing waiting' visited chosen :=
  ⟨fun k hk => h.known k ((hmem k).1 hk), h.keys, h.order, fun k m hm hfed =>
    (hmem k).2 (h.waits k m hm hfed)⟩

/-- **The first node is visited, and the nodes that it feeds wait.** -/
theorem visit (h : g.Choosing (n :: rest) visited chosen) (hcons : g.consistent? = .ok true)
    (hm : g.node? n = some m) (hfed : g.Fed visited n) :
    g.Choosing (rest ++ m.outputs.filterMap g.view.target) (n :: visited)
    (chosen ++ [(n, m.choice)]) := by
  refine ⟨?_, ?_, ?_, ?_⟩
  · intro k hk
    by_cases hfeeds : k ∈ m.outputs.filterMap g.view.target
    · obtain ⟨i, -, hread⟩ := mem_filterMap.1 hfeeds
      obtain ⟨m', hm', -⟩ := ((listed_of_consistent hcons).2 i k).1 hread
      exact ⟨m', hm'⟩
    · refine h.known k ?_
      simp only [mem_append, mem_cons] at hk ⊢
      tauto
  · rw [map_append, h.keys, reverse_cons]
    rfl
  · intro after k before hsplit
    cases after with
    | nil =>
      obtain ⟨rfl, rfl⟩ := List.cons.inj hsplit
      exact hfed
    | cons _ after => exact h.order after k before (List.cons.inj hsplit).2
  · exact waits_behind hcons hm h.waits

/-- Some node that waits can be visited. -/
theorem exists_fed (h : g.Choosing (n :: rest) visited chosen) (hcons : g.consistent? = .ok true)
    (hacyclic : g.Acyclic) : ∃ k ∈ n :: rest, g.Fed visited k := by
  by_contra hnone
  -- else all nodes were visited, and so was the first, which then could have been
  have hvisited : ∀ k m, g.node? k = some m → g.Fed visited k → k ∈ visited := fun k m hm hfed =>
    (mem_append.1 (h.waits k m hm hfed)).resolve_left fun hk => hnone ⟨k, hk, hfed⟩
  obtain ⟨m, hm⟩ := h.known n (mem_append_left _ mem_cons_self)
  exact hnone ⟨n, mem_cons_self, h.fed (hacyclic.mem_of_fed hcons hvisited hm)⟩

/-- **A visit gives choices.**  The nodes that were put back since the last visit cannot be visited,
so not all of them were. -/
theorem exists_visit {putBack : Nat} (h : g.Choosing waiting visited chosen)
    (hcons : g.consistent? = .ok true) (hacyclic : g.Acyclic)
    (hback : ∀ k ∈ waiting.drop (waiting.length - putBack), ¬ g.Fed visited k) :
    ∃ result visited', g.visit waiting putBack visited chosen = .ok result ∧
    g.Choosing [] visited' result := by
  obtain ⟨hsource, htarget⟩ := listed_of_consistent hcons
  have hfed_iff : ∀ {n m before visited}, g.node? n = some m → g.previousNodes n = .ok before →
      (before.all visited.contains = true ↔ g.Fed visited n) := by
    intro n m before visited hm hbefore
    obtain rfl := Except.ok.inj ((previousNodes_eq htarget hm).symm.trans hbefore)
    rw [all_contains_iff]
    exact forall_congr' fun l => imp_congr_left (mem_writers_iff hcons hm)
  fun_induction Graph.visit g waiting putBack visited chosen with
  | case1 _ visited chosen => exact ⟨chosen, visited, rfl, h⟩
  | case2 _ _ _ n _ hn =>
    obtain ⟨m, hm⟩ := h.known n (mem_append_left _ mem_cons_self)
    rw [hn] at hm
    cases hm
  | case3 _ _ _ n _ m hm e he =>
    rw [previousNodes_eq htarget hm] at he
    cases he
  | case4 _ visited _ n _ _ _ _ _ _ hn ih =>
    have hn : n ∈ visited := by simpa using hn
    refine ih (h.of_mem_iff fun k => ?_) (by simp)
    rw [cons_append, mem_cons, iff_or_self]
    rintro rfl
    exact mem_append_right _ hn
  | case5 _ _ _ n _ m hm _ _ _ _ e he =>
    rw [nextNodes_eq hsource hm] at he
    cases he
  | case6 _ _ _ n _ m hm _ hbefore hall _ _ hafter ih =>
    obtain rfl := Except.ok.inj ((nextNodes_eq hsource hm).symm.trans hafter)
    exact ih (h.visit hcons hm ((hfed_iff hm hbefore).1 hall)) (by simp)
  | case7 putBack visited _ n rest m hm _ hbefore hall hlt ih =>
    refine ih (h.of_mem_iff fun k => by simp [or_comm, or_assoc]) fun k hk => ?_
    have hlength : (rest ++ [n]).length - (putBack + 1) = rest.length - putBack := by simp
    have hdrop : (n :: rest).drop ((n :: rest).length - putBack) =
        rest.drop (rest.length - putBack) := by
      rw [length_cons, show rest.length + 1 - putBack = (rest.length - putBack) +
        1 by omega, drop_succ_cons]
    rw [hlength, drop_append_of_le_length (Nat.sub_le _ _), ← hdrop] at hk
    rcases mem_append.1 hk with hk | hk
    · exact hback k hk
    · obtain rfl := mem_singleton.1 hk
      exact fun hfed => hall ((hfed_iff hm hbefore).2 hfed)
  | case8 putBack _ _ n rest _ _ _ _ _ hlt =>
    have hwhole : (n :: rest).length - putBack = 0 := by
      rw [length_cons]
      omega
    rw [hwhole, drop_zero] at hback
    obtain ⟨k, hk, hfed⟩ := h.exists_fed hcons hacyclic
    exact absurd hfed (hback k hk)

/-- In the end, a choice comes behind the choices for all nodes in front. -/
theorem previous_subset (h : g.Choosing [] visited result) (hcons : g.consistent? = .ok true)
    {before after : List (Int × Option Parallelizer)} {c : Int × Option Parallelizer}
    (hsplit : result = before ++ c :: after) :
    ∃ previous, g.previousNodes c.1 = .ok previous ∧ previous ⊆ before.map (·.1) := by
  have hvisited : visited = (after.map (·.1)).reverse ++ c.1 :: (before.map (·.1)).reverse := by
    rw [← reverse_reverse visited, ← h.keys, hsplit]
    simp
  obtain ⟨m, hm⟩ := h.known c.1 (by rw [hvisited]; simp)
  refine ⟨_, previousNodes_eq (listed_of_consistent hcons).2 hm, fun l hl => ?_⟩
  exact mem_reverse.1 (h.order _ _ _ hvisited l ((mem_writers_iff hcons hm).1 hl))

end Choosing

theorem choosing_start (hcons : g.consistent? = .ok true)
    (hstart : ∀ k, k ∈ waiting ↔ k ∈ g.sourceNodes) : g.Choosing waiting [] [] where
  known k hk := exists_of_mem_sourceNodes hcons ((hstart k).1 (by simpa using hk))
  keys := rfl
  order after k before hsplit := by simp at hsplit
  waits k m hm hfed := by
    rw [append_nil, hstart]
    exact mem_sourceNodes_of_fed hcons hm hfed

/-- **Divisions are chosen in the order of the graph.**  From the sources of a graph without cycles,
in whatever order they come, the loop ends.  It gives each node its choice once, behind the choices
for all nodes in front of it. -/
theorem visit_topological (hcons : g.consistent? = .ok true) (hacyclic : g.Acyclic)
    (hstart : ∀ k, k ∈ waiting ↔ k ∈ g.sourceNodes) :
    ∃ result, g.visit waiting 0 [] [] = .ok result ∧ g.Loops waiting [] [] result ∧
      (result.map (·.1)).Nodup ∧ (∀ k, k ∈ result.map (·.1) ↔ ∃ m, g.node? k = some m) ∧
      (∀ c ∈ result, ∃ m, g.node? c.1 = some m ∧ c.2 = m.choice) ∧
      ∀ before c after, result = before ++ c :: after →
        ∃ previous, g.previousNodes c.1 = .ok previous ∧ previous ⊆ before.map (·.1) := by
  obtain ⟨result, visited, hvisit, hend⟩ : ∃ result visited, g.visit waiting 0 [] [] =
    .ok result ∧ _ :=
    (choosing_start hcons hstart).exists_visit hcons hacyclic (by simp)
  have hnone : g.Chosen [] := ⟨List.nodup_nil, by simp⟩
  have hchosen := visit_chosen hnone (by simp) hvisit
  refine ⟨result, hvisit, loops_of_visit hvisit, hchosen.nodup, fun k => ?_, hchosen.choice,
    fun before c after hsplit => hend.previous_subset hcons hsplit⟩
  rw [hend.keys, List.mem_reverse]
  constructor
  · exact hend.known k
  · rintro ⟨m, hm⟩
    exact hacyclic.mem_of_fed hcons hend.waits hm

/-- Both nodes read from outside, and the second also reads what the first writes. -/
def overtaken : Graph where
  nodes := ⟨[(0, tool 0 [0] [1]), (1, tool 1 [1, 2] [3])]⟩
  edges := ⟨[(0, ⟨{ ident := 0 }, none, some 0⟩), (1, ⟨{ ident := 1 }, some 0, some 1⟩),
    (2, ⟨{ ident := 2 }, none, some 1⟩), (3, ⟨{ ident := 3 }, some 1, none⟩)]⟩

theorem visit_topological_overtaken :
    overtaken.consistent? = .ok true ∧ overtaken.Acyclic ∧
    (∀ k, k ∈ [1, 0] ↔ k ∈ overtaken.sourceNodes) ∧
      ∃ result, overtaken.Loops [1, 0] [] [] result ∧
        ∀ before c after, result = before ++ c :: after →
          ∃ previous, overtaken.previousNodes c.1 = .ok previous ∧ previous ⊆ before.map (·.1) := by
  have hcons : overtaken.consistent? = .ok true := by decide
  have hacyclic : overtaken.Acyclic := by
    refine acyclic_of_lt ?_
    rintro k k' ⟨i, hsource, htarget⟩
    simp only [view, edge?, overtaken, Table.get?, Table.lookup] at hsource htarget
    grind
  have hsources : overtaken.sourceNodes = [0, 1] := by decide +kernel
  have hstart : ∀ k, k ∈ [1, 0] ↔ k ∈ overtaken.sourceNodes := by simp [hsources, or_comm]
  obtain ⟨result, -, hloops, -, -, -, horder⟩ := visit_topological hcons hacyclic hstart
  exact ⟨hcons, hacyclic, hstart, result, hloops, horder⟩

end ShellFlow.Graph
