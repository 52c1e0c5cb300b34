import ShellFlow.Graph.Partition
import ShellFlow.Proofs.Graph.Visiting

/-!
# The order in which nodes are taken

Nodes wait to be taken, and a node is taken when all edges that it reads were passed.  An edge was
passed if it comes from outside, or from a node that was taken.  So a node is taken only behind all
nodes that feed it, and in a graph without cycles none is left out.
-/

namespace ShellFlow.Graph

open List

variable {g : Graph} {i k l n : Int} {m : Node} {nodes passed taken : List Int}

/-- All nodes that feed a node were taken. -/
def Fed (g : Graph) (taken : List Int) (k : Int) : Prop := ∀ l, g.Feeds l k → l ∈ taken

/-- A node that the last taken one does not feed could be taken before. -/
theorem Fed.of_cons (h : g.Fed (n :: taken) k) (hn : ¬ g.Feeds n k) : g.Fed taken k := by
  intro l hl
  rcases mem_cons.1 (h l hl) with rfl | hl'
  · exact absurd hl hn
  · exact hl'

/-- In a graph without cycles all nodes were taken if all that can be taken were. -/
theorem Acyclic.mem_of_fed (hacyclic : g.Acyclic) (hcons : g.consistent? = .ok true)
    (h : ∀ k m, g.node? k = some m → g.Fed taken k → k ∈ taken) (hm : g.node? k = some m) :
    k ∈ taken := by
  induction k using (hacyclic.wellFounded hcons).induction generalizing m with
  | _ k ih =>
    refine h k m hm fun l hl => ?_
    obtain ⟨i, hsource, hread⟩ := hl
    obtain ⟨m', hm', -⟩ := ((listed_of_consistent hcons).1 i l).1 hsource
    exact ih l ⟨i, hsource, hread⟩ hm'

theorem mem_sourceNodes_of_fed (hcons : g.consistent? = .ok true) (hm : g.node? k = some m)
    (hfed : g.Fed [] k) : k ∈ g.sourceNodes := by
  rw [mem_sourceNodes]
  cases hinputs : m.inputs with
  | nil => exact .inr ⟨m, Table.mem_entries_of_get? hm, hinputs⟩
  | cons i =>
    have hread : g.view.target i = some k :=
      ((listed_of_consistent hcons).2 i k).2 ⟨m, hm, by rw [hinputs]; exact mem_cons_self⟩
    obtain ⟨e, he, htargets⟩ := Option.bind_eq_some_iff.1 hread
    refine .inl ⟨e, Table.mem_values_of_get? he, ?_, htargets⟩
    refine Option.eq_none_iff_forall_ne_some.2 fun l hl => ?_
    exact absurd (hfed l ⟨i, by simp [view, he, hl], hread⟩) not_mem_nil

/-- Some nodes wait, perhaps more than once, and others were taken.  A node with a single input
waits only when it can be taken, and only once. -/
structure Reached (g : Graph) (nodes passed taken : List Int) : Prop where
  known (k : Int) : k ∈ nodes ++ taken → ∃ m, g.node? k = some m
  nodup : taken.Nodup
  mem_passed (i k : Int) : g.view.target i = some k →
    (i ∈ passed ↔ ∀ l, g.view.source i = some l → l ∈ taken)
  fed (k : Int) : k ∈ taken → g.Fed taken k
  waits (k : Int) (m : Node) : g.node? k = some m → g.Fed taken k → k ∈ nodes ++ taken
  single_fed (k : Int) (m : Node) : g.node? k = some m → m.inputs.length ≤ 1 → k ∈ nodes →
    g.Fed taken k
  single_once (k : Int) (m : Node) : g.node? k = some m → m.inputs.length ≤ 1 →
    (nodes ++ taken).count k ≤ 1

section

variable (hcons : g.consistent? = .ok true)
include hcons

/-- A node with a single input reads one edge. -/
theorem eq_of_target_eq (hm : g.node? k = some m) (hlen : m.inputs.length ≤ 1)
    {j : Int} (hi : g.view.target i = some k) (hj : g.view.target j = some k) : i = j := by
  obtain ⟨-, htarget⟩ := listed_of_consistent hcons
  have hmem : ∀ {i}, g.view.target i = some k → i ∈ m.inputs := by
    intro i hi
    obtain ⟨m', hm', hi⟩ := (htarget i k).1 hi
    obtain rfl := Option.mem_unique hm hm'
    exact hi
  obtain ⟨a, ha⟩ : ∃ a, m.inputs = [a] :=
    length_eq_one_iff.1 (le_antisymm hlen (length_pos_of_mem (hmem hi)))
  have hall : ∀ {i}, g.view.target i = some k → i = a := fun hi => mem_singleton.1 (ha ▸ hmem hi)
  exact (hall hi).trans (hall hj).symm

theorem mem_readers_iff (hm : g.node? n = some m) :
    k ∈ m.outputs.filterMap g.view.target ↔ g.Feeds n k := by
  rw [mem_filterMap]
  refine exists_congr fun i => and_congr_left' ?_
  rw [(listed_of_consistent hcons).1 i n]
  simp [hm]

/-- What can be taken behind a node waited before, or is fed by the node. -/
theorem waits_behind {rest : List Int} (hm : g.node? n = some m)
    (h : ∀ k m, g.node? k = some m → g.Fed taken k → k ∈ n :: rest ++ taken) (k : Int) (m' : Node)
    (hm' : g.node? k = some m') (hfed : g.Fed (n :: taken) k) :
    k ∈ rest ++ m.outputs.filterMap g.view.target ++ n :: taken := by
  by_cases hfeeds : g.Feeds n k
  · exact mem_append_left _ (mem_append_right _ ((mem_readers_iff hcons hm).2 hfeeds))
  · have hk := h k m' hm' (hfed.of_cons hfeeds)
    simp only [mem_append, mem_cons] at hk ⊢
    tauto

/-- A node with a single input is fed once, by a node whose outputs are different. -/
theorem count_readers_le_one {m' : Node} (hm : g.node? k = some m)
    (hlen : m.inputs.length ≤ 1) (hnodup : m'.outputs.Nodup) :
    (m'.outputs.filterMap g.view.target).count k ≤ 1 := by
  rw [count_filterMap]
  by_cases hk : ∃ i, g.view.target i = some k
  · obtain ⟨i, hi⟩ := hk
    calc m'.outputs.countP (fun j => g.view.target j == some k)
        ≤ m'.outputs.countP (· == i) := by
          refine countP_mono_left fun j _ hj => ?_
          exact beq_iff_eq.2 (eq_of_target_eq hcons hm hlen (beq_iff_eq.1 hj) hi)
      _ ≤ 1 := nodup_iff_count_le_one.1 hnodup i
  · rw [countP_eq_zero.2 fun j _ hj => hk ⟨j, beq_iff_eq.1 hj⟩]
    exact Nat.zero_le 1

end

namespace Reached

/-- A node can be taken if and only if all nodes that feed it were taken. -/
theorem passed_iff_fed (h : g.Reached nodes passed taken) (hcons : g.consistent? = .ok true)
    (hm : g.node? k = some m) : (∀ i ∈ m.inputs, i ∈ passed) ↔ g.Fed taken k := by
  obtain ⟨-, htarget⟩ := listed_of_consistent hcons
  constructor
  · rintro hpassed l ⟨i, hsource, hread⟩
    obtain ⟨m', hm', hi⟩ := (htarget i k).1 hread
    obtain rfl := Option.mem_unique hm hm'
    exact (h.mem_passed i k hread).1 (hpassed i hi) l hsource
  · intro hfed i hi
    have hread : g.view.target i = some k := (htarget i k).2 ⟨m, hm, hi⟩
    exact (h.mem_passed i k hread).2 fun l hsource => hfed l ⟨i, hsource, hread⟩

section

variable (h : g.Reached (n :: nodes) passed taken)
include h

/-- The first node is passed over: it was taken already, or cannot be taken yet. -/
theorem skip (hskip : n ∈ taken ∨ ¬ g.Fed taken n) : g.Reached nodes passed taken where
  known k hk := h.known k (mem_cons_of_mem n hk)
  nodup := h.nodup
  mem_passed := h.mem_passed
  fed := h.fed
  waits k m hm hfed := by
    rcases mem_cons.1 (h.waits k m hm hfed) with rfl | hk
    · exact hskip.elim (fun hk => mem_append_right _ hk) fun hno => absurd hfed hno
    · exact hk
  single_fed k m hm hlen hk := h.single_fed k m hm hlen (mem_cons_of_mem n hk)
  single_once k m hm hlen := by
    refine le_trans ?_ (h.single_once k m hm hlen)
    rw [cons_append]
    exact count_le_count_cons

/-- **The first node is taken, and the nodes that it feeds wait.** -/
theorem take (hcons : g.consistent? = .ok true) (hm : g.node? n = some m)
    (hfed : g.Fed taken n) (hn : n ∉ taken) (hnodup : m.outputs.Nodup) :
    g.Reached (nodes ++ m.outputs.filterMap g.view.target) (m.outputs ++ passed) (n :: taken) := by
  obtain ⟨hsource, htarget⟩ := listed_of_consistent hcons
  -- a node that is fed from here was not taken, and waits only if it has more inputs
  have hnew : ∀ k m', g.node? k = some m' → m'.inputs.length ≤ 1 → g.Feeds n k →
      k ∉ (n :: nodes) ++ taken := by
    intro k m' hm' hlen hfeeds hk
    rcases mem_append.1 hk with hk | hk
    · exact hn (h.single_fed k m' hm' hlen hk n hfeeds)
    · exact hn (h.fed k hk n hfeeds)
  have hmove : ∀ k, ((nodes ++ m.outputs.filterMap g.view.target) ++ n :: taken).count k =
      ((n :: nodes) ++ taken).count k + (m.outputs.filterMap g.view.target).count k := by
    intro k
    simp only [count_append, count_cons]
    omega
  refine ⟨?_, nodup_cons.2 ⟨hn, h.nodup⟩, ?_, ?_, ?_, ?_, ?_⟩
  · intro k hk
    rcases mem_append.1 hk with hk | hk
    · rcases mem_append.1 hk with hk | hk
      · exact h.known k (mem_cons_of_mem n (mem_append_left _ hk))
      · obtain ⟨i, -, hread⟩ := mem_filterMap.1 hk
        obtain ⟨m', hm', -⟩ := (htarget i k).1 hread
        exact ⟨m', hm'⟩
    · rcases mem_cons.1 hk with rfl | hk
      · exact ⟨m, hm⟩
      · exact h.known k (mem_append_right _ hk)
  · intro i k hread
    have hwritten : i ∈ m.outputs ↔ g.view.source i = some n := by
      rw [hsource i n]
      simp [hm]
    rw [mem_append, hwritten, h.mem_passed i k hread]
    cases g.view.source i with
    | none => simp
    | some => simp
  · intro k hk l hl
    rcases mem_cons.1 hk with rfl | hk
    · exact mem_cons_of_mem _ (hfed l hl)
    · exact mem_cons_of_mem _ (h.fed k hk l hl)
  · exact waits_behind hcons hm h.waits
  · intro k m' hm' hlen hk l hl
    rcases mem_append.1 hk with hk | hk
    · exact mem_cons_of_mem _ (h.single_fed k m' hm' hlen (mem_cons_of_mem _ hk) l hl)
    · obtain ⟨j, hj, hjk⟩ := (mem_readers_iff hcons hm).1 hk
      obtain ⟨i, hi, hik⟩ := hl
      rw [eq_of_target_eq hcons hm' hlen hik hjk, hj] at hi
      exact mem_cons.2 (.inl (Option.some.inj hi).symm)
  · intro k m' hm' hlen
    rw [hmove]
    by_cases hfeeds : g.Feeds n k
    · rw [count_eq_zero_of_not_mem (hnew k m' hm' hlen hfeeds), Nat.zero_add]
      exact count_readers_le_one hcons hm' hlen hnodup
    · rw [count_eq_zero_of_not_mem fun hk => hfeeds ((mem_readers_iff hcons hm).1 hk), Nat.add_zero]
      exact h.single_once k m' hm' hlen

/-- A node with a single input that waits can be taken, and was not taken before. -/
theorem single (hm : g.node? n = some m) (hlen : m.inputs.length ≤ 1) :
    g.Fed taken n ∧ n ∉ taken := by
  refine ⟨h.single_fed n m hm hlen mem_cons_self, fun hn => ?_⟩
  have honce := h.single_once n m hm hlen
  have hpos : 0 < taken.count n := count_pos_iff.2 hn
  rw [count_append, count_cons_self] at honce
  omega

end

end Reached

theorem mem_openInputs (htidy : g.Tidy) : i ∈ g.openInputs ↔ ∃ e, g.edge? i = some e ∧
    e.source = none := by
  unfold openInputs
  rw [mem_map]
  constructor
  · rintro ⟨⟨i, e⟩, hmem, rfl⟩
    obtain ⟨hmem, hopen⟩ := mem_filter.1 hmem
    exact ⟨e, Table.get?_of_mem htidy.edges hmem, Option.isNone_iff_eq_none.1 hopen⟩
  · rintro ⟨e, he, hopen⟩
    exact ⟨(i, e), mem_filter.2 ⟨Table.mem_entries_of_get? he, Option.isNone_iff_eq_none.2 hopen⟩,
      rfl⟩

/-- At the beginning the sources wait. -/
theorem reached_start (order : SetOrder) (htidy : g.Tidy) (hcons : g.consistent? = .ok true) :
    g.Reached (order.list g.sourceNodes) g.openInputs [] := by
  have hlisted : ∀ {k}, k ∈ order.list g.sourceNodes ↔ k ∈ g.sourceNodes := (order.perm _).mem_iff
  obtain ⟨-, htarget⟩ := listed_of_consistent hcons
  refine ⟨?_, nodup_nil, ?_, ?_, ?_, ?_, ?_⟩
  · intro k hk
    exact exists_of_mem_sourceNodes hcons (hlisted.1 (by simpa using hk))
  · intro i k hread
    obtain ⟨e, he, -⟩ := Option.bind_eq_some_iff.1 hread
    have hsource : g.view.source i = e.source := by simp [view, he]
    rw [mem_openInputs htidy, he, hsource]
    simp [Option.eq_none_iff_forall_ne_some]
  · intro k hk
    cases hk
  · intro k m hm hfed
    rw [append_nil, hlisted]
    exact mem_sourceNodes_of_fed hcons hm hfed
  · rintro k m hm hlen hk l ⟨j, hj, hjk⟩
    exfalso
    rcases mem_sourceNodes.1 (hlisted.1 hk) with ⟨e, hvalue, hopen, hread⟩ | ⟨n, hmem, hinputs⟩
    · obtain ⟨⟨i, _⟩, hmem, rfl⟩ := mem_map.1 hvalue
      have he := Table.get?_of_mem htidy.edges hmem
      have hik : g.view.target i = some k := (congrArg (Option.bind · Edge.target) he).trans hread
      have hsource : g.view.source i = none := (congrArg (Option.bind · Edge.source) he).trans hopen
      rw [← eq_of_target_eq hcons hm hlen hik hjk, hsource] at hj
      cases hj
    · obtain ⟨m', hm', hj'⟩ := (htarget j k).1 hjk
      have hn : g.node? k = some n := Table.get?_of_mem htidy.nodes hmem
      obtain rfl := Option.mem_unique hn hm'
      rw [hinputs] at hj'
      cases hj'
  · intro k m _ _
    rw [append_nil]
    exact nodup_iff_count_le_one.1 ((order.perm _).nodup_iff.2 g.nodup_sourceNodes) k

end ShellFlow.Graph
