import Mathlib.Data.Int.Order.Basic
import Mathlib.Order.WellFoundedSet
import ShellFlow.Proofs.Graph.Parallel

/-!
# Dividing all nodes

Nodes are divided one after the other.  A division may take out the end of an earlier one, and never
touches a node that is still to be divided.  So the streams that can be seen from outside stay the
same from one division to the next, and from the first graph to the last.
-/

namespace ShellFlow

open List

theorem Node.mem_of_choice {m : Node} {p : Parallelizer} (h : m.choice = some p) :
    p ∈ m.parallelizers := by
  unfold Node.choice Node.parallelizer? at h
  grind [Option.or_eq_some_iff, mem_of_find?_eq_some]

namespace Graph

variable {S : Type} {I : Interpretation S} {chosen : List (Int × Option Parallelizer)}
  {fanOut : Nat} {g : Graph}
  {k : Int} {m : Node} {own own' : Int → Option Node}

/-- No node writes the edge. -/
def IsInput (g : Graph) (i : Int) : Prop := ∃ e, g.edge? i = some e ∧ e.source = none

/-- No node reads the edge. -/
def IsOutput (g : Graph) (i : Int) : Prop := ∃ e, g.edge? i = some e ∧ e.target = none

/-- An edge that is seen from outside. -/
def IsOuter (g : Graph) (i : Int) : Prop := g.IsInput i ∨ g.IsOutput i

/-- One node writes an edge that the other reads. -/
def Feeds (g : Graph) (k k' : Int) : Prop :=
    ∃ i, g.view.source i = some k ∧ g.view.target i = some k'

/-- No node feeds itself, directly or through others. -/
def Acyclic (g : Graph) : Prop := ∀ k, ¬ Relation.TransGen g.Feeds k k

theorem acyclic_of_lt (h : ∀ k k', g.Feeds k k' → k < k') : g.Acyclic := by
  have hlt : ∀ {k k'}, Relation.TransGen g.Feeds k k' → k < k' := by
    intro k k' hfeeds
    induction hfeeds with
    | single hfeed => exact h _ _ hfeed
    | tail _ hfeed ih => exact ih.trans (h _ _ hfeed)
  exact fun k hfeeds => lt_irrefl k (hlt hfeeds)

theorem Acyclic.notMem_outputs (h : g.Acyclic) (hcons : g.consistent? = .ok true) {i : Int}
    (hm : g.node? k = some m) (hi : i ∈ m.inputs) : i ∉ m.outputs := by
  obtain ⟨hread, hwritten⟩ := consistent_nodes hcons hm
  exact fun ho => h k (.single ⟨i, hwritten i ho, hread i hi⟩)

/-- The nodes of a graph have numbers that were given out, are no ends of earlier divisions and
cannot be taken for such, and are divided in ways that are provided here. -/
structure Divisible (g : Graph) (supply : Supply) : Prop where
  consistent : g.consistent? = .ok true
  acyclic : g.Acyclic
  numbered (k : Int) (m : Node) : g.node? k = some m → m.id = k ∧ k < supply.nextNode
  no_merge (k : Int) (m : Node) : g.node? k = some m → m.kind ≠ .merge
  no_cat (k : Int) (m : Node) : g.node? k = some m → m.invocation.command ≠ "cat"
  concatenates (k : Int) (m : Node) : g.node? k = some m → ∀ p ∈ m.parallelizers,
    p.splitter = .roundRobin → p.aggregator = .concatenate
  no_extra (k : Int) (m : Node) : g.node? k = some m → ∀ p ∈ m.parallelizers, p.extra = 0

/-! ### The choice -/

/-- Nodes with the divisions that are chosen for them. -/
structure Chosen (g : Graph) (chosen : List (Int × Option Parallelizer)) : Prop where
  nodup : (chosen.map (·.1)).Nodup
  choice (c : Int × Option Parallelizer) : c ∈ chosen → ∃ w, g.node? c.1 = some w ∧ c.2 = w.choice

/-- A visit chooses for a node only if the node was not visited before. -/
theorem visit_chosen {waiting visited : List Int} {putBack : Nat}
    {result : List (Int × Option Parallelizer)} (hchosen : g.Chosen chosen)
    (hvisited : ∀ c ∈ chosen, c.1 ∈ visited)
    (h : g.visit waiting putBack visited chosen = .ok result) : g.Chosen result := by
  fun_induction visit g waiting putBack visited chosen with
  | case1 => exact Except.ok.inj h ▸ hchosen
  | case2 => cases h
  | case3 => cases h
  | case4 _ _ _ _ _ _ _ _ _ _ _ ih => exact ih hchosen hvisited h
  | case5 => cases h
  | case6 _ visited _ n _ w hn _ _ _ hnew _ _ ih =>
    -- the only case in which a choice is recorded
    have hnot : n ∉ visited := by simpa using hnew
    refine ih ⟨?_, ?_⟩ ?_ h
    · rw [map_append, nodup_append]
      refine ⟨hchosen.nodup, by simp, ?_⟩
      rintro i hi j hj rfl
      obtain ⟨c, hc, rfl⟩ := mem_map.1 hi
      obtain rfl : c.1 = n := by simpa using hj
      exact hnot (hvisited c hc)
    · intro c hc
      obtain hc | hc := mem_append.1 hc
      · exact hchosen.choice c hc
      · obtain rfl := mem_singleton.1 hc
        exact ⟨w, hn, rfl⟩
    · intro c hc
      obtain hc | hc := mem_append.1 hc
      · exact mem_cons_of_mem _ (hvisited c hc)
      · obtain rfl := mem_singleton.1 hc
        exact mem_cons_self
  | case7 _ _ _ _ _ _ _ _ _ _ _ ih => exact ih hchosen hvisited h
  | case8 => cases h

/-! ### One division after the other -/

/-- What is given while nodes of `g` are divided, when some were divided already. -/
def division (g : Graph) (I : Interpretation S) (fanOut : Nat) (own : Int → Option Node) :
    Division S where
  interp := I
  behaviour := I.meaning own
  fanOut := fanOut
  inner i := g.view.source i ≠ none
  seen := g.IsOuter

theorem tame_congr (hown : own m.id = own' m.id) (h : (g.division I fanOut own).Tame m) :
    (g.division I fanOut own').Tame m := by
  refine ⟨h.name, fun hkind => ?_⟩
  obtain ⟨hoperands, hlength, hnodup, houtputs, hmerges⟩ := h.rejoins hkind
  refine ⟨hoperands, hlength, hnodup, houtputs, fun xs => ?_⟩
  show I.meaning own' m xs = [I.merge xs]
  rw [← Interpretation.meaning_congr hown]
  exact hmerges xs

theorem runs_meaning_congr {v : View} {count next : Int} (hv : v.Sound count next)
    (hown : ∀ k, k < count → own k = own' k) (σ : Int → S) : v.Runs (I.meaning own) σ ↔
    v.Runs (I.meaning own') σ := by
  refine forall_congr' fun k => forall_congr' fun m => forall_congr' fun hm => ?_
  have hid : own m.id = own' m.id := hown m.id (hv.id_eq hm ▸ hv.id_lt hm)
  rw [Node.Holds, Node.Holds, Interpretation.meaning_congr hid]

/-- Some nodes of `g₀` were divided, with the graph `g` as result, and those in `chosen` are still
to be. -/
structure Progress (g₀ : Graph) (supply₀ : Supply) (I : Interpretation S) (fanOut : Nat)
    (own : Int → Option Node) (g : Graph) (s : ChannelSource) (supply : Supply)
    (chosen : List (Int × Option Parallelizer)) : Prop where
  sound : g.view.Sound supply.nextNode s.next
  count_le : supply₀.nextNode ≤ supply.nextNode
  own_eq_none (k : Int) : k < supply₀.nextNode → own k = none
  outer_lt (i : Int) : g₀.IsOuter i → i < s.next
  inner_lt (i : Int) : g₀.view.source i ≠ none → i < s.next
  choices : g₀.Chosen chosen
  kept (c : Int × Option Parallelizer) : c ∈ chosen → g.node? c.1 = g₀.node? c.1
  tame (k : Int) (m : Node) : g.node? k = some m → (g₀.division I fanOut own).Tame m

namespace Progress

variable {g₀ g' : Graph} {supply₀ supply supply' : Supply} {s s' : ChannelSource} {n : Int}
  {w : Node} {p : Parallelizer} {batch : Option Int}

section

variable (h : Progress g₀ supply₀ I fanOut own g s supply ((n, some p) :: chosen))
include h

/-- The node that is next may be divided; what is put in for it is its own. -/
theorem starts (hg : g₀.Divisible supply₀) (hw : g₀.node? n = some w) (hI : I.Supports fanOut w p) :
    (g₀.division I fanOut (ownFrom own supply.nextNode (g.node? n))).Starts g.view w supply.nextNode
      s.next := by
  have hwg : g.node? n = some w := (h.kept _ mem_cons_self).trans hw
  obtain rfl : w.id = n := h.sound.id_eq hwg
  have hlt := (hg.numbered _ _ hw).2
  have hle := h.count_le
  -- an original node is no part of a division, so it does what its own function says
  have hown : ownFrom own supply.nextNode (g.node? w.id) w.id = none := by
    rw [ownFrom_of_lt (by omega), h.own_eq_none _ hlt]
  obtain ⟨hins, houts⟩ := consistent_nodes hg.consistent hw
  constructor
  case sound => exact h.sound
  case node => exact hwg
  case single =>
    intro x
    show I.meaning _ w [x] = [I.single w x]
    rw [Interpretation.meaning, hown]
    exact hI.single x
  case tame =>
    intro k m hm
    exact tame_congr (ownFrom_of_lt (h.sound.id_eq hm ▸ h.sound.id_lt hm)).symm (h.tame k m hm)
  case seen_lt => exact h.outer_lt
  case inner_lt => exact h.inner_lt
  case inner_output =>
    intro i hi
    show g₀.view.source i ≠ none
    simp [houts i hi]
  case shut =>
    rintro i hi hi' (⟨e, he, hsource⟩ | ⟨e, he, htarget⟩)
    · exact hi' (by simp [view, he, hsource])
    · have := hins i hi
      simp [view, he, htarget] at this
  case part =>
    intro m hm
    funext xs
    show I.meaning _ m xs = _
    rw [Interpretation.meaning, ownFrom, if_pos hm, hwg]
    rfl
  case replaceEdge =>
    intro m old new
    exact Interpretation.meaning_replaceEdge old new

/-- **One division keeps the streams**, and the nodes that are still to be divided. -/
theorem step (hg : g₀.Divisible supply₀) (hpos : 1 ≤ fanOut)
    (hI : ∀ k w p, g₀.node? k = some w → w.choice = some p → I.Supports fanOut w p)
    (hy : Yields (g.parallelize n p s fanOut batch) supply (g', s') supply') :
    Progress g₀ supply₀ I fanOut (ownFrom own supply.nextNode (g.node? n)) g' s' supply' chosen ∧
      SameStreams g₀.IsOuter (g.view.Runs (I.meaning own))
        (g'.view.Runs (I.meaning (ownFrom own supply.nextNode (g.node? n)))) := by
  obtain ⟨w, hw, heq⟩ := h.choices.choice _ mem_cons_self
  have hchoice : w.choice = some p := heq.symm
  have hp := Node.mem_of_choice hchoice
  have hwg : g.node? n = some w := (h.kept _ mem_cons_self).trans hw
  obtain rfl : w.id = n := h.sound.id_eq hwg
  have hagg := hg.concatenates _ _ hw p hp
  have hsupports := hI _ _ _ hw hchoice
  obtain ⟨hsound, hfirst, hfresh, hsame, hkeeps, htame⟩ :=
    (h.starts hg hw hsupports).parallelize hsupports hagg (hg.no_extra _ _ hw p hp) hpos hy
  have hcount := h.count_le
  obtain ⟨hnotMem, hnodup⟩ := nodup_cons.1 h.choices.nodup
  refine ⟨?_, .trans (.of_iff (runs_meaning_congr h.sound fun k hk => ?_)) hsame⟩
  · constructor
    case sound => exact hsound
    case count_le => omega
    case own_eq_none =>
      intro k hk
      rw [ownFrom_of_lt (by omega), h.own_eq_none k hk]
    case outer_lt => exact fun i hi => Int.lt_of_lt_of_le (h.outer_lt i hi) hfresh
    case inner_lt => exact fun i hi => Int.lt_of_lt_of_le (h.inner_lt i hi) hfresh
    case choices => exact ⟨hnodup, fun c hc => h.choices.choice c (mem_cons_of_mem _ hc)⟩
    case kept =>
      intro c hc
      obtain ⟨m, hm, -⟩ := h.choices.choice c (mem_cons_of_mem _ hc)
      -- a division takes out its node and ends of divisions, and `c` is neither
      have hne : c.1 ≠ w.id := fun heq => hnotMem (mem_map.2 ⟨c, hc, heq⟩)
      rw [hm]
      exact hkeeps c.1 m ((h.kept c (mem_cons_of_mem _ hc)).trans hm) hne (hg.no_merge _ _ hm)
    case tame => exact fun k m hm => tame_congr rfl (htame k m hm)
  · exact (ownFrom_of_lt hk).symm

end

/-- **All divisions together keep the streams.** -/
theorem run (h : Progress g₀ supply₀ I fanOut own g s supply chosen) (hg : g₀.Divisible supply₀)
    (hpos : 1 ≤ fanOut)
    (hI : ∀ k w p, g₀.node? k = some w → w.choice = some p → I.Supports fanOut w p)
    (hy : Yields (divideChosen fanOut batch g s chosen) supply g' supply') :
    SameStreams g₀.IsOuter (g.view.Runs (I.meaning own))
      (g'.view.Runs (I.meaning (ownersFrom fanOut batch own g s supply chosen))) := by
  induction chosen generalizing g s supply own with
  | nil =>
    obtain ⟨rfl, rfl⟩ := hy.pure
    exact .of_iff fun σ => Iff.rfl
  | cons c chosen ih =>
    obtain ⟨n, _ | p⟩ := c
    · refine ih ?_ hy
      exact { h with
        choices := ⟨(nodup_cons.1 h.choices.nodup).2,
          fun c hc => h.choices.choice c (mem_cons_of_mem _ hc)⟩
        kept := fun c hc => h.kept c (mem_cons_of_mem _ hc) }
    · obtain ⟨⟨g₁, s₁⟩, supply₁, hfirst, hrest⟩ := hy.bind
      obtain ⟨hprogress, hsame⟩ := h.step hg hpos hI hfirst
      have hown : ownersFrom fanOut batch own g s supply ((n, some p) :: chosen) =
          ownersFrom fanOut batch (ownFrom own supply.nextNode (g.node? n)) g₁ s₁ supply₁
            chosen := by
        rw [ownersFrom, show (g.parallelize n p s fanOut batch).outcome supply =
          (.ok (g₁, s₁), supply₁) from
          hfirst]
      rw [hown]
      exact hsame.trans (ih hprogress hrest)

end Progress

/-! ### Streams that are determined -/

theorem Acyclic.wellFounded (h : g.Acyclic) (hcons : g.consistent? = .ok true) :
    WellFounded g.Feeds := by
  have hmem : ∀ {k k'}, g.Feeds k k' → k ∈ g.nodes.keys ∧ k' ∈ g.nodes.keys := by
    rintro k k' ⟨i, hsource, htarget⟩
    obtain ⟨m, hm, -⟩ := (consistent_edges hcons).1 hsource
    obtain ⟨m', hm', -⟩ := (consistent_edges hcons).2 htarget
    exact ⟨Table.mem_keys_of_get? hm, Table.mem_keys_of_get? hm'⟩
  have : IsStrictOrder Int (Relation.TransGen g.Feeds) :=
    { irrefl := h, trans := fun _ _ _ hab hbc => hab.trans hbc }
  -- a graph has finitely many nodes, so a strict order on them is well-founded
  have hfinite : {k | k ∈ g.nodes.keys}.WellFoundedOn (Relation.TransGen g.Feeds) :=
    (finite_toSet g.nodes.keys).wellFoundedOn
  have hacc : ∀ k ∈ g.nodes.keys, Acc g.Feeds k := fun k hk =>
    hfinite.induction hk fun k _ ih => ⟨k, fun k' hk' => ih k' (hmem hk').1 (.single hk')⟩
  exact ⟨fun k => ⟨k, fun k' hk' => hacc k' (hmem hk').1⟩⟩

/-- **The inputs of a graph without cycles determine all its streams.** -/
theorem runs_unique (hacyclic : g.Acyclic) (hcons : g.consistent? = .ok true) {J : Behaviour S}
    {σ τ : Int → S} (hσ : g.view.Runs J σ) (hτ : g.view.Runs J τ)
    (hin : ∀ i, g.IsInput i → σ i = τ i) (i : Int) (e : Edge)
    (he : g.edge? i = some e) : σ i = τ i := by
  have hwritten : ∀ k m, g.node? k = some m → ∀ i ∈ m.outputs, σ i = τ i := by
    intro k
    induction k using (hacyclic.wellFounded hcons).induction with
    | _ k ih =>
      intro m hm
      -- inputs come from outside, or from a node for which this is known
      have hread : ∀ i ∈ m.inputs, σ i = τ i := by
        intro i hi
        have htarget := (consistent_nodes hcons hm).1 i hi
        cases hsource : g.view.source i with
        | none =>
          obtain ⟨e, he, -⟩ := Option.bind_eq_some_iff.1 htarget
          exact hin i ⟨e, he, by simpa [view, he] using hsource⟩
        | some k' =>
          obtain ⟨m', hm', hi'⟩ := (consistent_edges hcons).1 hsource
          exact ih k' ⟨i, hsource, htarget⟩ m' hm' i hi'
      have heq : m.outputs.map σ = m.outputs.map τ := by
        rw [← hσ k m hm, ← hτ k m hm, map_congr_left hread]
      exact map_inj_left.1 heq
  cases hsource : e.source with
  | none => exact hin i ⟨e, he, hsource⟩
  | some k =>
    obtain ⟨m, hm, hi⟩ :=
      (consistent_edges hcons).1 (show g.view.source i = some k by simp [view, he, hsource])
    exact hwritten k m hm i hi

/-! ### Preservation -/

/-- In the beginning nothing was divided. -/
theorem Divisible.progress {supply supply' : Supply} (hg : g.Divisible supply) {s : ChannelSource}
    (I : Interpretation S) (fanOut : Nat) (hchosen : g.choices supply.order = .ok chosen)
    (hs : Yields g.channelSource supply s supply') :
    Progress g supply I fanOut (fun _ => none) g s supply' chosen := by
  obtain ⟨hlast, hcount⟩ := yields_channelSource hs
  have hlt : ∀ {i e}, g.edge? i = some e → i < s.next := by
    intro i e he
    have := le_lastEdge hlast (Table.mem_keys_of_get? he)
    omega
  constructor
  case sound =>
    rw [hcount, ← Int.sub_add_cancel s.next 1]
    exact sound_view hg.consistent hlast hg.numbered
  case count_le => exact hcount.ge
  case own_eq_none => exact fun _ _ => rfl
  case outer_lt =>
    rintro i (⟨e, he, -⟩ | ⟨e, he, -⟩)
    · exact hlt he
    · exact hlt he
  case inner_lt =>
    intro i hi
    obtain ⟨k, hk⟩ := Option.ne_none_iff_exists'.1 hi
    obtain ⟨e, he, -⟩ := Option.bind_eq_some_iff.1 hk
    exact hlt he
  case choices =>
    have hnone : g.Chosen [] := ⟨nodup_nil, by simp⟩
    exact visit_chosen hnone (by simp) hchosen
  case kept => exact fun _ _ => rfl
  case tame => exact fun k m hm => .of_kind_ne (hg.no_cat k m hm) (hg.no_merge k m hm)

/-- The nodes are divided as they were chosen before the first of them is. -/
theorem yields_divideAll {g g' : Graph} {supply supply' : Supply} {fanOut : Nat}
    {batch : Option Int} : Yields (g.divideAll fanOut batch) supply g' supply' ↔
      ∃ chosen, g.choices supply.order = .ok chosen ∧
      Yields (g.channelSource >>= fun s => divideChosen fanOut batch g s chosen) supply g'
        supply' :=
  yields_get_bind.trans yields_lift_bind

/-- **A graph with its nodes divided gives the same outputs.**  Streams that fit the graph can be
completed to streams that fit the divided graph, and conversely, with the same streams on the edges
that are seen from outside; and the same inputs lead to the same outputs. -/
theorem divideAll_same_outputs (I : Interpretation S) {g g' : Graph} {supply supply' : Supply}
    {fanOut : Nat} {batch : Option Int} (hg : g.Divisible supply) (hpos : 1 ≤ fanOut)
    (hI : ∀ k w p, g.node? k = some w → w.choice = some p → I.Supports fanOut w p)
    (hy : Yields (g.divideAll fanOut batch) supply g' supply') :
    SameStreams g.IsOuter (g.view.Runs (I.meaning fun _ => none))
        (g'.view.Runs (I.meaning (g.owner fanOut batch supply))) ∧
      ∀ σ τ, g.view.Runs (I.meaning fun _ => none) σ →
        g'.view.Runs (I.meaning (g.owner fanOut batch supply)) τ →
        (∀ i, g.IsInput i → τ i = σ i) → ∀ i, g.IsOutput i → τ i = σ i := by
  obtain ⟨chosen, hchosen, hrest⟩ := yields_divideAll.1 hy
  obtain ⟨s, supply₁, hs, hdivide⟩ := yields_bind.1 hrest
  have hown : g.owner fanOut batch supply =
      ownersFrom fanOut batch (fun _ => none) g s supply₁ chosen := by
    rw [owner, hchosen, show g.channelSource.outcome supply = (.ok s, supply₁) from hs]
  have hsame := (hg.progress I fanOut hchosen hs).run hg hpos hI hdivide
  rw [← hown] at hsame
  refine ⟨hsame, fun σ τ hσ hτ hin i hi => ?_⟩
  obtain ⟨ρ, hρ, heq⟩ := hsame.back τ hτ
  obtain ⟨e, he, -⟩ := id hi
  have hρσ := runs_unique hg.acyclic hg.consistent hρ hσ
    (fun j hj => (heq j (.inl hj)).trans (hin j hj)) i e he
  rw [← heq i (.inr hi), hρσ]

/-! ### Two stages -/

/-- A node with one input and one output that may be divided in one way. -/
def stage (id input output : Int) (command : String) (p : Parallelizer) : Node where
  id := id
  invocation :=
    { command := command
      implicitInput := some input
      implicitOutput := some output
      streaming := [input]
      outputs := [output] }
  parallelizers := [p]

/-- One node behind the other.  The first is divided with tags; the second drops them, and puts its
outputs together by twos. -/
def twoStages : Graph where
  nodes := ⟨[(0, stage 0 0 1 "tr" ⟨.roundRobin, .concatenate, 0, true⟩),
    (1, stage 1 1 2 "grep" ⟨.roundRobinRaw, .binary, 0, true⟩)]⟩
  edges := ⟨[(0, ⟨{ ident := 0 }, none, some 0⟩), (1, ⟨{ ident := 1 }, some 0, some 1⟩),
    (2, ⟨{ ident := 2 }, some 1, none⟩)]⟩

theorem twoStages_node (h : twoStages.node? k = some m) :
    (k = 0 ∧ m = stage 0 0 1 "tr" ⟨.roundRobin, .concatenate, 0, true⟩) ∨
      k = 1 ∧ m = stage 1 1 2 "grep" ⟨.roundRobinRaw, .binary, 0, true⟩ := by
  simp only [node?, twoStages, Table.get?, Table.lookup] at h
  grind

theorem twoStages_feeds {k' : Int} (h : twoStages.Feeds k k') : k < k' := by
  obtain ⟨i, hsource, htarget⟩ := h
  simp only [view, edge?, twoStages, Table.get?, Table.lookup] at hsource htarget
  grind

theorem twoStages_divisible : twoStages.Divisible { nextNode := 2 } := by
  constructor
  case consistent => decide
  case acyclic => exact acyclic_of_lt fun _ _ => twoStages_feeds
  all_goals
    intro k m h
    obtain ⟨rfl, rfl⟩ | ⟨rfl, rfl⟩ := twoStages_node h <;> simp [stage]

/-- Cuts a list such that all pieces but the last hold one item. -/
def pieces : Nat → List Nat → List (List Nat)
  | 0, _ => []
  | 1, x => [x]
  | k + 2, x => x.take 1 :: pieces (k + 1) (x.drop 1)

theorem length_pieces (k : Nat) (x : List Nat) : (pieces k x).length = k := by
  fun_induction pieces k x <;> simp_all

theorem flatten_pieces {k : Nat} (hk : 1 ≤ k) (x : List Nat) : (pieces k x).flatten = x := by
  fun_induction pieces k x with
  | case1 => cases hk
  | case2 => simp
  | case3 k x ih => rw [flatten_cons, ih (by omega), take_append_drop]

/-- Every node adds one to every item. -/
def increments : Interpretation (List Nat) where
  node _ xs := [xs.flatten.map (· + 1)]
  split := pieces
  rawSplit := pieces
  chunk := pieces
  merge := List.flatten
  unwrap := id
  wrap f := f
  mapper _ := List.map (· + 1)
  gather _ := List.flatten
  length_split := length_pieces
  length_rawSplit := length_pieces
  length_chunk := length_pieces

theorem increments_combine (w : Node) (p : Parallelizer) (xs : List (List Nat)) :
    increments.combine w p xs = xs.flatten := by
  unfold Interpretation.combine
  split
  · cases xs with
    | nil => rfl
    | cons x xs =>
      show xs.foldl (fun a b => [a, b].flatten) x = _
      induction xs generalizing x with
      | nil => simp
      | cons _ _ ih => rw [foldl_cons, ih]; simp
  · rfl

theorem increments_single (w : Node) : increments.single w = List.map (· + 1) := by
  funext x
  simp [Interpretation.single, increments]

theorem increments_supports (hpos : 1 ≤ fanOut) (w : Node) (p : Parallelizer) :
    increments.Supports fanOut w p := by
  -- adding one to all pieces adds one to all items, however the pieces are put together
  have hcopies : ∀ xs : List (List Nat),
      increments.combine w p (xs.map (increments.mapper w.id)) = xs.flatten.map (· + 1) := by
    intro xs
    rw [increments_combine]
    exact map_flatten.symm
  constructor
  case single =>
    intro x
    rw [increments_single]
    simp [increments]
  case roundRobin =>
    rw [increments_single]
    exact fun _ => ⟨flatten_pieces hpos, fun ys _ => map_flatten.symm⟩
  case roundRobinRaw =>
    rw [increments_single]
    refine fun _ => ⟨fun x => ?_, fun ys _ => ?_⟩
    · rw [hcopies]
      exact congrArg (List.map (· + 1)) (flatten_pieces hpos x)
    · rw [hcopies]
      exact congrArg (fun zs : List (List Nat) => zs.flatten.map (· + 1)) (map_id ys)
  case consecutive =>
    rw [increments_single]
    intro _ x
    rw [hcopies]
    exact congrArg (List.map (· + 1)) (flatten_pieces hpos x)
  case assoc =>
    intro _ _ a b c
    simp [increments]

/-- A node is visited once all before it have been. -/
theorem visit_of_ready {node : Node} {before after rest visited : List Int} {putBack : Nat}
    {chosen : List (Int × Option Parallelizer)} (hnode : g.node? k = some node)
    (hbefore : g.previousNodes k = .ok before) (hready : before.all visited.contains)
    (hnew : visited.contains k = false) (hafter : g.nextNodes k = .ok after) :
    g.visit (k :: rest) putBack visited chosen =
      g.visit (rest ++ after) 0 (k :: visited) (chosen ++ [(k, node.choice)]) := by
  rw [visit]
  split
  · simp_all
  · simp_all

theorem twoStages_choices : twoStages.choices .ascending =
    .ok [(0, some ⟨.roundRobin, .concatenate, 0, true⟩),
      (1, some ⟨.roundRobinRaw, .binary, 0, true⟩)] := by
  have hsources : SetOrder.ascending.list twoStages.sourceNodes = [0] := by decide +kernel
  rw [choices, hsources, visit_of_ready rfl rfl rfl rfl rfl]
  show twoStages.visit [1] _ _ _ = _
  rw [visit_of_ready rfl rfl rfl rfl rfl]
  show twoStages.visit [] _ _ _ = _
  rw [visit]
  rfl

theorem twoStages_divideAll :
    ∃ g' supply', Yields (twoStages.divideAll 2 none) { nextNode := 2 } g' supply' := by
  obtain ⟨g', supply', hy⟩ :
      ∃ g' supply', Yields (twoStages.channelSource >>= fun s => divideChosen 2 none twoStages s
      [(0, some ⟨.roundRobin, .concatenate, 0, true⟩),
        (1, some ⟨.roundRobinRaw, .binary, 0, true⟩)])
      { nextNode := 2 } g' supply' := exists_yields_of_isOk (by decide +kernel)
  exact ⟨g', supply', yields_divideAll.2 ⟨_, twoStages_choices, hy⟩⟩

theorem divideAll_same_outputs_twoStages :
    ∃ g' supply', Yields (twoStages.divideAll 2 none) { nextNode := 2 } g' supply' ∧
    SameStreams twoStages.IsOuter (twoStages.view.Runs (increments.meaning fun _ => none))
        (g'.view.Runs (increments.meaning (twoStages.owner 2 none { nextNode := 2 }))) ∧
      ∀ σ τ, twoStages.view.Runs (increments.meaning fun _ => none) σ →
        g'.view.Runs (increments.meaning (twoStages.owner 2 none { nextNode := 2 })) τ →
        (∀ i, twoStages.IsInput i → τ i = σ i) → ∀ i, twoStages.IsOutput i → τ i = σ i := by
  obtain ⟨g', supply', hy⟩ := twoStages_divideAll
  exact ⟨g', supply', hy, divideAll_same_outputs increments twoStages_divisible (by decide)
    (fun _ w p _ _ => increments_supports (by decide) w p) hy⟩

end Graph

end ShellFlow
