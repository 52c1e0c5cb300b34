import ShellFlow.Proofs.Graph.Transparency
import ShellFlow.Proofs.Graph.Validity

/-!
# Optimization keeps graphs valid

Nodes are divided one after the other, and then buffers are put in.  A division may take out nodes
that an earlier one has put in, so what is kept is said of all nodes at once: those with old numbers
are nodes of the first graph, those with new numbers are such as divisions put in, and none of them
leads back to an edge from the first graph against the direction in which data flows there.

What is left to fail is that no node may remain: a node without operands that ends a division is
taken out together with a node for which there is no aggregator, and nothing takes their place.
-/

namespace ShellFlow.Graph

open Relation (TransGen ReflTransGen)

variable {g₀ g g' g'' : Graph} {s s' : ChannelSource} {t t' t'' : Supply} {n m : Node}
  {p : Parallelizer} {fanOut : Nat}
  {batch : Option Int} {i j k : Int}

/-! ### The direction of data -/

/-- Some node reads one edge and writes the other. -/
def Passes (g : Graph) (i j : Int) : Prop := ∃ k m, g.node? k = some m ∧ i ∈ m.inputs ∧
    j ∈ m.outputs

/-- Behind the reader of an edge is the writer of every edge behind it. -/
theorem feeds_of_passes (hcons : g.consistent? = .ok true) (h : TransGen g.Passes i j) :
    ∃ k k', g.view.target i = some k ∧ g.view.source j = some k' ∧ ReflTransGen g.Feeds k k' := by
  induction h with
  | single hpasses =>
    obtain ⟨k, m, hm, hi, hj⟩ := hpasses
    obtain ⟨hread, hwritten⟩ := consistent_nodes hcons hm
    exact ⟨k, k, hread _ hi, hwritten _ hj, .refl⟩
  | tail _ hpasses ih =>
    obtain ⟨k, k', htarget, hsource, hfeeds⟩ := ih
    obtain ⟨k'', m, hm, hi, hj⟩ := hpasses
    obtain ⟨hread, hwritten⟩ := consistent_nodes hcons hm
    exact ⟨k, k'', htarget, hwritten _ hj, hfeeds.tail ⟨_, hsource, hread _ hi⟩⟩

theorem Acyclic.not_passes (h : g.Acyclic) (hcons : g.consistent? = .ok true) :
    ¬ TransGen g.Passes i i := by
  intro hpasses
  obtain ⟨k, k', htarget, hsource, hfeeds⟩ := feeds_of_passes hcons hpasses
  exact h k' (.head' ⟨i, hsource, htarget⟩ hfeeds)

/-! ### One division after the other -/

/-- Nodes of `g₀` were divided, with `g` as result so far.  Nodes from `first` on and edges from
`fresh` on are new. -/
structure Dividing (g₀ : Graph) (first : Nat) (fresh : Int) (g : Graph) (s : ChannelSource)
    (t : Supply) : Prop where
  sound : g.view.Sound t.nextNode s.next
  first_le : first ≤ t.nextNode
  fresh_le : fresh ≤ s.next
  kept (k : Int) (m : Node) : g.node? k = some m → k < first → g₀.node? k = some m
  placed (k : Int) (m : Node) : g.node? k = some m → first ≤ k → m.Placed
  passes (k : Int) (m : Node) : g.node? k = some m → ∀ i ∈ m.inputs, ∀ j ∈ m.outputs,
    i ≠ j ∧ (i < fresh → j < fresh → TransGen g₀.Passes i j)

/-- The node is taken out together with another, and nothing takes their place: one ends a division
and has no operands, and for the division of the other there is no aggregator. -/
def Vanishes (g : Graph) (m : Node) : Prop :=
  ∃ n p m', g.node? n.id = some n ∧ n.choice = some p ∧ p.splitter = .roundRobin ∧
    p.aggregator ≠ .concatenate ∧
    g.Fuses n p m' ∧ m'.invocation.operands = [] ∧ (m = n ∨ m = m')

theorem node_of_parallelize (hy : Yields (g.parallelize k p s fanOut batch) t (g', s') t') :
    ∃ n, g.node? k = some n := by
  obtain @⟨n, _, _, _, _, _, _, _, _, _, _, _, _, hn, -⟩ := divides_of_parallelize hy
  exact ⟨n, node_eq_ok.1 hn⟩

namespace Dividing

variable {first : Nat} {fresh : Int} {chosen : List (Int × Option Parallelizer)}

section

variable (h : Dividing g₀ first fresh g s t) (hfit : ∀ k m, g₀.node? k = some m → m.OperandsFit)
include h hfit

theorem fit (hm : g.node? k = some m) : m.OperandsFit := by
  by_cases hk : k < first
  · exact hfit k m (h.kept k m hm hk)
  · exact (h.placed k m hm (by omega)).fit

theorem operandsBelow : g.OperandsBelow n p s.next := by
  intro m hm i hi
  exact h.sound.inputs_lt hm.2.1 i ((h.fit hfit hm.2.1 hm.ends_division).2 i hi)

/-- The node that is divided is still that of the first graph, and its division has a layout. -/
theorem exists_layout (hnum : ∀ k m, g₀.node? k = some m → m.id = k ∧ k < first)
    (hn : g₀.node? n.id = some n) (hpos : 1 ≤ fanOut)
    (hy : Yields (g.parallelize n.id p s fanOut batch) t (g', s') t') :
    g.node? n.id = some n ∧ ∃ L : Layout, L.Describes n p fanOut g s t g' s' t' ∧
    Edits s.next g s'.next g' := by
  obtain ⟨w, hw⟩ := node_of_parallelize hy
  obtain rfl : w = n := Option.some.inj ((h.kept _ _ hw (hnum _ _ hn).2).symm.trans hn)
  exact ⟨hw, parallelize_layout h.sound (h.operandsBelow hfit) hw hpos hy⟩

end

section

variable (h : Dividing g₀ first fresh g s t) (hcons : g₀.consistent? = .ok true)
  (hacyclic : g₀.Acyclic)
  (hnum : ∀ k m, g₀.node? k = some m → m.id = k ∧ k < first) (hbelow : g₀.Below fresh)
  (hfit : ∀ k m, g₀.node? k = some m → m.OperandsFit)
include h hcons hacyclic hnum hbelow hfit

/-- **What one division keeps.** -/
theorem step (hn : g₀.node? n.id = some n) (hpos : 1 ≤ fanOut)
    (hy : Yields (g.parallelize n.id p s fanOut batch) t (g', s') t') :
    Dividing g₀ first fresh g' s' t' := by
  obtain ⟨hng, L, hL, -⟩ := h.exists_layout hfit hnum hn hpos hy
  have hops : g.OperandsBelow n p s.next := h.operandsBelow hfit
  have hfused : ∀ m, L.fused = some m → m.OperandsFit :=
    fun m hm => h.fit hfit ((hL.fused m).1 hm).2.1
  have hcases := fun {k : Int} {m : Node} => hL.node_cases (k := k) (m := m) h.sound hops hng hfused
  obtain ⟨next, hfront, -, hback⟩ := hL.exists_ranges
  have hfirst := h.first_le
  have hfresh := h.fresh_le
  have hcount : t.nextNode ≤ t'.nextNode := by
    obtain ⟨v, hlays, -⟩ := hL.view
    have := hlays.count_le
    omega
  constructor
  case sound => exact hL.sound h.sound hops hng hfused
  case first_le => omega
  case fresh_le =>
    have := hfront.le
    have := hback.next_le
    omega
  case kept =>
    intro k m hm hk
    rcases hcases hm with hold | ⟨hle, -⟩
    · exact h.kept k m (Layout.base_node hold).1 hk
    · omega
  case placed =>
    intro k m hm hk
    rcases hcases hm with hold | ⟨-, hplaced, -⟩
    · exact h.placed k m (Layout.base_node hold).1 hk
    · exact hplaced
  case passes =>
    -- the node writes its output from its input in the first graph, too
    have hx : L.input ∈ n.inputs := by simp [hL.inputs]
    have ho : L.output ∈ n.outputs := by simp [hL.outputs]
    have hv₀ := sound_of_lt hcons hbelow hnum
    have hxlt := hv₀.inputs_lt hn L.input hx
    have holt := hv₀.outputs_lt hn L.output ho
    have hpass : g₀.Passes L.input L.output := ⟨n.id, n, hn, hx, ho⟩
    intro k m hm i hi j hj
    rcases hcases hm with hold | ⟨-, -, hnew⟩
    · exact h.passes k m (Layout.base_node hold).1 i hi j hj
    rcases hnew i hi j hj with ⟨hlt, hle⟩ | ⟨rfl, hle | ⟨hne, hused⟩⟩
    · exact ⟨by omega, fun _ hj => by omega⟩
    · exact ⟨by omega, fun hi => by omega⟩
    · -- the edge is an operand of the node in front, which wrote the input
      obtain ⟨m', hm'⟩ := Option.ne_none_iff_exists'.1 hne
      obtain ⟨⟨x, hx', hsource⟩, hm'g, -⟩ := id ((hL.fused m').1 hm')
      obtain rfl : x = L.input := by simpa [hL.inputs] using hx'
      obtain ⟨w, hw, hwrites⟩ := (h.sound.source L.input m'.id).1 hsource
      obtain rfl := Option.mem_unique hm'g hw
      rw [Layout.used, hm'] at hused
      have hin := (hfused m' hm' ((hL.fused m').1 hm').ends_division).2 i (mem_usedOperands hused)
      have htrans : i < fresh → TransGen g₀.Passes i L.output :=
        fun hi => ((h.passes _ _ hm'g i hin L.input hwrites).2 hi hxlt).tail hpass
      refine ⟨?_, fun hi _ => htrans hi⟩
      rintro rfl
      exact hacyclic.not_passes hcons (htrans holt)

/-- **What all divisions together keep.** -/
theorem run (hchosen : ∀ c ∈ chosen, ∃ w, g₀.node? c.1 = some w)
    (hpos : 1 ≤ fanOut) (hy : Yields (divideChosen fanOut batch g s chosen) t g' t') :
    ∃ s', Dividing g₀ first fresh g' s' t' ∧ Edits s.next g s'.next g' := by
  induction chosen generalizing g s t with
  | nil =>
    obtain ⟨rfl, rfl⟩ := hy.pure
    exact ⟨s, h, .refl _ _⟩
  | cons c _ ih =>
    obtain ⟨⟨n, hn⟩, hothers⟩ := List.forall_mem_cons.1 hchosen
    obtain ⟨k, _ | p⟩ := c
    · exact ih h hothers hy
    · obtain ⟨⟨g₁, s₁⟩, t₁, hfirst, hrest⟩ := hy.bind
      obtain rfl : n.id = k := (hnum _ _ hn).1
      obtain ⟨s', hend, hedits⟩ :=
        ih (h.step hcons hacyclic hnum hbelow hfit hn hpos hfirst) hothers hrest
      obtain ⟨-, -, -, hstep⟩ := h.exists_layout hfit hnum hn hpos hfirst
      exact ⟨s', hend, hstep.trans hedits⟩

/-- **All nodes are gone only if each of them may vanish.** -/
theorem vanishes (hchosen : ∀ c ∈ chosen, ∃ w, g₀.node? c.1 = some w ∧ c.2 = w.choice)
    (hpos : 1 ≤ fanOut) (hy : Yields (divideChosen fanOut batch g s chosen) t g' t')
    (hgone : ∀ k, g'.node? k = none) (hm : g.node? k = some m) : k < first ∧ g₀.Vanishes m := by
  induction chosen generalizing g s t k m with
  | nil =>
    obtain ⟨rfl, rfl⟩ := hy.pure
    rw [hgone k] at hm
    cases hm
  | cons c chosen ih =>
    obtain ⟨⟨n, hn, hchoice⟩, hothers⟩ := List.forall_mem_cons.1 hchosen
    obtain ⟨k', _ | p⟩ := c
    · exact ih h hothers hy hm
    · obtain ⟨⟨g₁, s₁⟩, t₁, hfirst, hrest⟩ := hy.bind
      obtain rfl : n.id = k' := (hnum _ _ hn).1
      have hnext := h.step hcons hacyclic hnum hbelow hfit hn hpos hfirst
      obtain ⟨hng, L, hL, -⟩ := h.exists_layout hfit hnum hn hpos hfirst
      have hfused : ∀ m, L.fused = some m → m.OperandsFit :=
        fun m hm => h.fit hfit ((hL.fused m).1 hm).2.1
      rcases hL.exists_node h.sound (h.operandsBelow hfit) hng hfused hpos with
        ⟨k₁, m₁, hle, hm₁⟩ | ⟨hsplitter, hagg, hview, m', hm', hoperands⟩
      · -- a new node does not vanish
        have := (ih hnext hothers hrest hm₁).1
        have := h.first_le
        omega
      · have hfuses := (hL.fused m').1 hm'
        obtain ⟨⟨x, hx, hsource⟩, hm'g, hkind⟩ := id hfuses
        rw [if_neg (by simp [hsplitter])] at hkind
        have hold : m'.id < first := by
          by_contra hle
          exact (h.placed _ _ hm'g (by omega)).rejoins hkind hoperands
        have hm'₀ := h.kept _ _ hm'g hold
        have hfuses₀ : g₀.Fuses n p m' := by
          obtain ⟨w, hw, hwrites⟩ := (h.sound.source x m'.id).1 hsource
          obtain rfl := Option.mem_unique hm'g hw
          exact ⟨⟨x, hx, (consistent_nodes hcons hm'₀).2 x hwrites⟩, hm'₀, hfuses.2.2⟩
        have hpair : ∀ w, w = n ∨ w = m' → g₀.Vanishes w := fun w hw =>
          ⟨n, p, m', hn, hchoice.symm, hsplitter, hagg, hfuses₀, hoperands, hw⟩
        by_cases hk : k = n.id
        · obtain rfl := Option.mem_unique hm (hk ▸ hng)
          exact ⟨hk ▸ (hnum _ _ hn).2, hpair m (.inl rfl)⟩
        · by_cases hk' : k = m'.id
          · obtain rfl := Option.mem_unique hm (hk' ▸ hm'g)
            exact ⟨hk' ▸ hold, hpair m (.inr rfl)⟩
          · refine ih hnext hothers hrest (show g₁.view.node k = some m from ?_)
            rw [hview, Layout.base, hm', Option.elim_some, View.remove_node_of_ne _ hk',
              View.remove_node_of_ne _ hk]
            exact hm

end

end Dividing

/-! ### Validity -/

/-- The graph `g'` is made from `g` by edits, and channels are added under the numbers behind all
edges of `g`. -/
def Grows (g g' : Graph) : Prop := ∃ last next, g.lastEdge = .ok last ∧ Edits (last + 1) g next g'

theorem entries_eq_nil_iff : g.nodes.entries = [] ↔ ∀ k, g.node? k = none := by
  constructor
  · intro h k
    simp [node?, Table.get?, h, Table.lookup]
  · intro h
    rcases hes : g.nodes.entries with _ | ⟨⟨k, m⟩, es⟩
    · rfl
    · have := h k
      simp [node?, Table.get?, hes, Table.lookup] at this

/-- The last check passes exactly if the graph is valid. -/
theorem yields_optimize (hvalid : g.valid? = .ok true)
    (hdivide : Yields (g.divideAll fanOut batch) t g' t')
    (hbuffers : Yields g'.addBuffers t' g'' t'') :
    Yields (g.optimize fanOut batch true) t g'' t'' ↔ g''.valid? = .ok true := by
  constructor
  · intro h
    obtain ⟨b, -, h⟩ := h.lift_bind
    obtain ⟨_, t₁, hrequire, h⟩ := h.bind
    obtain ⟨-, rfl⟩ := yields_require.1 hrequire
    obtain ⟨g₁, t₁, hdivide', h⟩ := h.bind
    obtain ⟨rfl, rfl⟩ := hdivide'.unique hdivide
    obtain ⟨g₂, t₂, hbuffers', h⟩ := h.bind
    obtain ⟨rfl, rfl⟩ := hbuffers'.unique hbuffers
    obtain ⟨b, hlast, h⟩ := h.lift_bind
    obtain ⟨_, t₃, hrequire, -⟩ := h.bind
    rw [hlast, (yields_require.1 hrequire).1]
  · intro h
    refine yields_lift_bind.2 ⟨true, hvalid, yields_bind.2 ⟨(), t, yields_require.2 ⟨rfl, rfl⟩, ?_⟩⟩
    refine yields_bind.2 ⟨g', t', hdivide, yields_bind.2 ⟨g'', t'', hbuffers, ?_⟩⟩
    exact yields_lift_bind.2
      ⟨true, h, yields_bind.2 ⟨(), t'', yields_require.2 ⟨rfl, rfl⟩, yields_pure.2 ⟨rfl, rfl⟩⟩⟩

/-- **Optimized graphs are valid unless no node is left.** -/
theorem optimize_valid (hvalid : g.valid? = .ok true) (hacyclic : g.Acyclic) (htidy : g.Tidy)
    (hnum : ∀ k m, g.node? k = some m → m.id = k ∧ k < t.nextNode)
    (hfit : ∀ k m, g.node? k = some m → m.OperandsFit) (hpos : 1 ≤ fanOut)
    (hdivide : Yields (g.divideAll fanOut batch) t g' t')
    (hbuffers : Yields g'.addBuffers t' g'' t'') :
    g''.consistent? = .ok true ∧ (g''.valid? = .ok true ↔ g''.nodes.entries ≠ []) ∧
      (Yields (g.optimize fanOut batch true) t g'' t'' ↔ g''.nodes.entries ≠ []) ∧
      ((∃ k m, g.node? k = some m ∧ ¬ g.Vanishes m) → g''.valid? = .ok true) ∧
      g.Grows g' ∧ g'.Grows g'' := by
  obtain ⟨hne, hcons, hdetached⟩ := valid_iff.1 hvalid
  obtain ⟨chosen, hchosen, hy⟩ := yields_lift_bind.1 hdivide
  obtain ⟨s, t₁, hsource, hy⟩ := yields_bind.1 hy
  obtain ⟨hlast, hcount⟩ := yields_channelSource hsource
  have hbelow : g.Below s.next := fun i e he => by
    have := le_lastEdge hlast (Table.mem_keys_of_get? he)
    omega
  have hnone : g.Chosen [] := ⟨List.nodup_nil, by simp⟩
  have hchoice := (visit_chosen hnone (by simp) hchosen).choice
  -- in the beginning nothing was divided
  have hv : g.view.Sound t.nextNode s.next := sound_of_lt hcons hbelow hnum
  have hstart : Dividing g t.nextNode s.next g s t₁ := by
    refine ⟨hcount ▸ hv, hcount.ge, Int.le_refl _, fun k m hm _ => hm, fun k m hm hk => ?_,
      fun k m hm i hi j hj => ?_⟩
    · have := (hnum k m hm).2
      omega
    · refine ⟨?_, fun _ _ => .single ⟨k, m, hm, hi, hj⟩⟩
      rintro rfl
      exact hacyclic.notMem_outputs hcons hm hi hj
  obtain ⟨s', hdivided, hedits⟩ := hstart.run hcons hacyclic hnum hbelow hfit
    (fun c hc => (hchoice c hc).imp fun w hw => hw.1) hpos hy
  have hcons' : g'.consistent? = .ok true := consistent_of_sound (hedits.tidy htidy) hdivided.sound
  have hloop : g'.view.NoLoop := fun k m hm i hi ho => (hdivided.passes k m hm i hi i ho).1 rfl
  obtain ⟨last, s'', first, visited, hlast', hend, hedits'⟩ := addBuffers_run hcons'
    (fun k m hm => ⟨hdivided.sound.id_eq hm, hdivided.sound.id_lt hm⟩) hloop hbuffers
  have hall := hedits'.tidy (hedits.tidy htidy)
  have hcons'' : g''.consistent? = .ok true := consistent_of_sound hall hend.buffering.sound
  have hvalid'' : g''.valid? = .ok true ↔ g''.nodes.entries ≠ [] := by
    rw [valid_iff]
    refine ⟨fun h => h.1, fun hne => ⟨hne, hcons'', fun hbackground => ?_⟩⟩
    rw [hedits'.background, hedits.background] at hbackground
    exact hedits'.detached (hedits.detached (hdetached hbackground))
  refine ⟨hcons'', hvalid'', ?_, ?_, ⟨_, s'.next, hlast, by rwa [Int.sub_add_cancel]⟩, last,
    s''.next, hlast', hedits'⟩
  · rw [← hvalid'']
    exact yields_optimize hvalid hdivide hbuffers
  · rintro ⟨k, m, hm, hstays⟩
    refine hvalid''.2 fun hnil => hstays ?_
    -- buffers take no node out
    have hgone : ∀ k, g'.node? k = none := by
      intro k
      by_contra hne
      obtain ⟨m, hm⟩ := Option.ne_none_iff_exists'.1 hne
      obtain ⟨m', f, hm', -⟩ := hend.buffering.kept k m hm
      have := entries_eq_nil_iff.1 hnil k
      rw [show g''.node? k = some m' from hm'] at this
      cases this
    exact (hstart.vanishes hcons hacyclic hnum hbelow hfit hchoice hpos hy hgone hm).2

theorem twoStages_optimize :
    ∃ g' t' g'' t'', Yields (twoStages.divideAll 2 none) { nextNode := 2 } g' t' ∧
    Yields g'.addBuffers t' g'' t'' := by
  obtain ⟨g'', t'', hy⟩ :
      ∃ g'' t'', Yields ((twoStages.channelSource >>= fun s => divideChosen 2 none twoStages s
      [(0, some ⟨.roundRobin, .concatenate, 0, true⟩),
        (1, some ⟨.roundRobinRaw, .binary, 0, true⟩)]) >>= addBuffers)
      { nextNode := 2 } g'' t'' := exists_yields_of_isOk (by decide +kernel)
  obtain ⟨g', t', hdivide, hbuffers⟩ := hy.bind
  exact ⟨g', t', g'', t'', yields_divideAll.2 ⟨_, twoStages_choices, hdivide⟩, hbuffers⟩

theorem optimize_valid_twoStages : twoStages.valid? = .ok true ∧ twoStages.Acyclic ∧
    ∃ g' t' g'' t'', Yields (twoStages.divideAll 2 none) { nextNode := 2 } g' t' ∧
      Yields g'.addBuffers t' g'' t'' ∧ g''.valid? = .ok true := by
  have hvalid : twoStages.valid? = .ok true := by decide
  have hacyclic := acyclic_of_lt fun _ _ => twoStages_feeds
  obtain ⟨g', t', g'', t'', hdivide, hbuffers⟩ := twoStages_optimize
  have hfit : ∀ k m, twoStages.node? k = some m → m.OperandsFit := fun k m hm =>
    .of_ne (twoStages_divisible.no_cat k m hm) (twoStages_divisible.no_merge k m hm)
  refine ⟨hvalid, hacyclic, g', t', g'', t'', hdivide, hbuffers, ?_⟩
  refine (optimize_valid hvalid hacyclic ⟨by decide, by decide⟩ twoStages_divisible.numbered hfit
    (by decide) hdivide
    hbuffers).2.2.2.1 ⟨0, _, rfl, ?_⟩
  rintro ⟨n, p, m, -, -, hsplitter, -, ⟨-, hm, hkind⟩, -, -⟩
  rw [if_neg (by simp [hsplitter])] at hkind
  exact twoStages_divisible.no_merge _ _ hm hkind

/-- A node without operands that ends a division, and a node without an aggregator behind it. -/
def dwindling : Graph where
  nodes :=
    ⟨[(0, { id := 0, kind := .merge, invocation := { command := "r_merge", outputs := [0] } }),
    (1, stage 1 0 1 "grep" ⟨.roundRobin, .nary, 0, true⟩)]⟩
  edges := ⟨[(0, ⟨{ ident := 0 }, some 0, some 1⟩), (1, ⟨{ ident := 1 }, some 1, none⟩)]⟩

/-- Nothing is left of the two nodes. -/
theorem optimize_leaves_nothing : dwindling.valid? = .ok true ∧ dwindling.Acyclic ∧ dwindling.Tidy ∧
    (∀ k m, dwindling.node? k = some m → m.OperandsFit) ∧ ∃ g' t' g'' t'',
    Yields (dwindling.divideAll 2 none) { nextNode := 2 } g' t' ∧ Yields g'.addBuffers t' g'' t'' ∧
      g''.valid? = .ok false := by
  have hchoices : dwindling.choices .ascending =
      .ok [(0, none), (1, some ⟨.roundRobin, .nary, 0, true⟩)] := by
    have hsources : SetOrder.ascending.list dwindling.sourceNodes = [0] := by decide +kernel
    rw [choices, hsources, visit_of_ready rfl rfl rfl rfl rfl]
    show dwindling.visit [1] _ _ _ = _
    rw [visit_of_ready rfl rfl rfl rfl rfl]
    show dwindling.visit [] _ _ _ = _
    rw [visit]
    rfl
  obtain ⟨g'', t'', hy, hempty⟩ : ∃ g'' t'',
      Yields ((dwindling.channelSource >>= fun s => divideChosen 2 none dwindling s
        [(0, none), (1, some ⟨.roundRobin, .nary, 0, true⟩)]) >>=
          addBuffers) { nextNode := 2 } g'' t'' ∧
        g''.isEmpty = true := exists_yields_of_any (by decide +kernel)
  obtain ⟨g', t', hdivide, hbuffers⟩ := yields_bind.1 hy
  replace hdivide := yields_divideAll.2 ⟨_, hchoices, hdivide⟩
  refine ⟨by decide, acyclic_of_lt ?_, ⟨by decide, by decide⟩, fun k m hm => ?_, g', t', g'', t'',
    hdivide,
    hbuffers, ?_⟩
  · rintro k k' ⟨i, hsource, htarget⟩
    simp only [view, edge?, dwindling, Table.get?, Table.lookup] at hsource htarget
    grind
  · have hmem := Table.mem_entries_of_get? hm
    simp only [dwindling, List.mem_cons, List.not_mem_nil, Prod.mk.injEq, or_false] at hmem
    obtain ⟨rfl, rfl⟩ | ⟨rfl, rfl⟩ := hmem <;> exact .of_no_edge rfl
  · rw [valid?, if_pos hempty]
    rfl

end ShellFlow.Graph
