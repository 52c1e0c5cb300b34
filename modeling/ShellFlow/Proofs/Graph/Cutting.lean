import ShellFlow.Proofs.Graph.Pieces

/-!
# Cutting a graph, step by step

A graph is cut by taking its nodes one after the other.  Each step looks at the node that waits
first, together with the piece that reached it.
-/

namespace ShellFlow

namespace Partition

variable (p : Partition)

/-- Notes that a piece reads some edges. -/
def addReaders (ids : List Int) (number : Nat) : Partition :=
  ids.foldl (fun p i => p.addReader i number) p

/-- A piece goes on behind its last node to the only reader of the node, or else is finished, and
one is begun for each reader. -/
def goOn (number : Nat) (piece : Graph) : List Int → List (Int × Nat × Graph) × Partition
  | [k] => ([(k, number, piece)], p)
  | after => (p.finish number piece).beginAll after

theorem goOn_of_length_ne (number : Nat) (piece : Graph) {after : List Int} (h : after.length ≠ 1) :
    p.goOn number piece after = (p.finish number piece).beginAll after := by
  rcases after with _ | ⟨k, _ | ⟨l, ls⟩⟩
  · rfl
  · exact absurd rfl h
  · rfl

end Partition

namespace Graph

variable {c c' : Cut}

/-- A cut that is under way: nodes that wait with the piece that reached them, edges that were
passed, nodes that were taken. -/
structure Cut where
  waiting : List (Int × Nat × Graph)
  passed : List Int
  taken : List Int
  partition : Partition
  supply : Supply

/-- What a graph knows about a node. -/
structure Known (g : Graph) (n : Int) (m : Node) (ins outs : List (Int × Edge)) : Prop where
  node : g.node? n = some m
  ins : g.edgesOf m.inputs = .ok ins
  outs : g.edgesOf m.outputs = .ok outs

/-- Cutting goes on to its end. -/
def Cut.Ends (g : Graph) (c : Cut) (p : Partition) (t : Supply) : Prop :=
  Yields (g.cut c.waiting c.passed c.taken c.partition) c.supply p t

/-- A node that waits is looked at. -/
inductive Step (g : Graph) : Cut → Cut → Prop
  /-- The node reads an edge that was not passed yet. -/
  | blocked {n m ins outs number piece rest passed taken p t} :
      g.Known n m ins outs → ¬ (∀ i ∈ m.inputs, i ∈ passed) →
      Step g ⟨(n, number, piece) :: rest, passed, taken, p, t⟩
        ⟨rest, passed, taken, p.finishNonempty number piece, t⟩
  /-- Streams meet in the node: it will be the first of a piece. -/
  | met {n m ins outs number piece rest passed taken p t} :
      g.Known n m ins outs → (∀ i ∈ m.inputs, i ∈ passed) → 1 < m.inputs.length →
      piece.sourceNodes ≠ [] → Step g ⟨(n, number, piece) :: rest, passed, taken, p, t⟩
        ⟨(n, p.begun, {}) :: rest, passed, taken, (p.finish number piece).begin.2, t⟩
  /-- The node was taken before. -/
  | dropped {n m ins outs number piece rest passed taken p t} :
      g.Known n m ins outs → (∀ i ∈ m.inputs, i ∈ passed) →
      m.inputs.length ≤ 1 ∨ piece.sourceNodes = [] → n ∈ taken →
      Step g ⟨(n, number, piece) :: rest, passed, taken, p, t⟩ ⟨rest, passed, taken, p, t⟩
  /-- The node joins the piece, which goes on to its readers. -/
  | joined {n m ins outs number piece rest passed taken p t piece' t' after q} :
      g.Known n m ins outs → (∀ i ∈ m.inputs, i ∈ passed) →
      m.inputs.length ≤ 1 ∨ piece.sourceNodes = [] → n ∉ taken →
      Yields (piece.extendPiece m (ins.map (·.2.channel)) (outs.map (·.2.channel))) t piece' t' →
      g.nextNodes n = .ok after →
      q = (p.addReaders (ins.map (·.2.channel.ident)) number).goOn number piece' after →
      Step g ⟨(n, number, piece) :: rest, passed, taken, p, t⟩ ⟨rest ++ q.1, m.outputs ++ passed,
        n :: taken, q.2, t'⟩

variable {g piece piece' : Graph} {n k : Int} {m : Node} {ins outs : List (Int × Edge)}
  {number : Nat}
  {rest : List (Int × Nat × Graph)} {passed taken after : List Int} {p r : Partition}
    {t t' : Supply}

/-- The piece with which the first node goes on: a fresh one if streams meet there. -/
def settled (m : Node) (number : Nat) (piece : Graph) (p : Partition) : Nat × Graph × Partition :=
  if 1 < m.inputs.length ∧
    piece.sourceNodes ≠ [] then (p.begun, {}, (p.finish number piece).begin.2)
  else (number, piece, p)

theorem cut_known (h : g.Known n m ins outs) : g.cut ((n, number, piece) :: rest) passed taken p =
    if ∀ i ∈ m.inputs, i ∈ passed then
      if n ∈ taken then g.cut rest passed taken (settled m number piece p).2.2
      else do
        let piece' ← (settled m number piece p).2.1.extendPiece m (ins.map (·.2.channel))
          (outs.map (·.2.channel))
        let after ← Build.lift (g.nextNodes n)
        let q := ((settled m number piece p).2.2.addReaders (ins.map (·.2.channel.ident))
          (settled m number piece p).1).goOn (settled m number piece p).1 piece' after
        g.cut (rest ++ q.1) (m.outputs ++ passed) (n :: taken) q.2
    else g.cut rest passed taken (p.finishNonempty number piece) := by
  have hlift : ∀ {α β : Type} {x : Except Fault α} {a : α} {f : α → Build β}, x = .ok a →
      Build.lift x >>= f = f a := by
    rintro α β x a f rfl
    rfl
  rw [cut]
  split
  · next hnone => cases h.node.symm.trans hnone
  · next m' hm' =>
    obtain rfl : m = m' := Option.some.inj (h.node.symm.trans hm')
    rw [hlift h.ins, hlift h.outs]
    have hpassed : (!ins.all fun e => passed.contains e.1) = true ↔
        ¬ ∀ i ∈ m.inputs, i ∈ passed := by
      rw [← edgesOf_map_fst h.ins]
      simp
    have hsettled : (if (decide (ins.length > 1) && !piece.sourceNodes.isEmpty) = true then
        ((p.finish number piece).begin.1, ({} : Graph), (p.finish number piece).begin.2)
        else (number, piece, p)) = settled m number piece p := by
      refine if_congr ?_ rfl rfl
      rw [← edgesOf_map_fst h.ins]
      simp
    by_cases hall : ∀ i ∈ m.inputs, i ∈ passed
    · rw [if_neg (fun hno => hpassed.1 hno hall), if_pos hall]
      dsimp only
      rw [hsettled]
      obtain ⟨number', piece₁, q⟩ := settled m number piece p
      by_cases hn : n ∈ taken
      · rw [if_pos hn, dif_pos (List.contains_iff_mem.2 hn)]
      · rewrite [if_neg hn, dif_neg (fun hc => hn (List.contains_iff_mem.1 hc)),
          Partition.addReaders, List.foldl_map, edgesOf_map_fst h.outs]
        refine bind_congr fun piece' => bind_congr fun after => ?_
        rcases after with _ | ⟨k, _ | ⟨l, ls⟩⟩ <;> rfl
    · rw [if_pos (hpassed.2 hall), if_neg hall]

theorem settled_of_meets (hlen : 1 < m.inputs.length) (hpiece : piece.sourceNodes ≠ []) :
    settled m number piece p = (p.begun, {}, (p.finish number piece).begin.2) :=
  if_pos ⟨hlen, hpiece⟩

theorem settled_of_not_meets (h : m.inputs.length ≤ 1 ∨ piece.sourceNodes = []) :
    settled m number piece p = (number, piece, p) := by
  refine if_neg fun hmeets => ?_
  rcases h with hlen | hpiece
  · exact absurd hmeets.1 (Nat.not_lt.2 hlen)
  · exact hmeets.2 hpiece

theorem sourceNodes_empty : ({} : Graph).sourceNodes = [] := by
  refine List.eq_nil_iff_forall_not_mem.2 fun k hk => ?_
  rcases mem_sourceNodes.1 hk with ⟨e, he, -⟩ | ⟨n, hn, -⟩
  · cases he
  · cases hn

/-! ### Steps and ends -/

theorem known_of_ends (h : Cut.Ends g ⟨(n, number, piece) :: rest, passed, taken, p, t⟩ r t') :
    ∃ m ins outs, g.Known n m ins outs := by
  unfold Cut.Ends at h
  rw [cut] at h
  split at h
  · exact (yields_throw.1 h).elim
  · next m hm =>
    obtain ⟨ins, hins, h⟩ := h.lift_bind
    obtain ⟨outs, houts, -⟩ := h.lift_bind
    exact ⟨m, ins, outs, hm, hins, houts⟩

/-- What is at the end of a step is at the end of what was before it. -/
theorem Step.ends (h : Step g c c') (hends : c'.Ends g r t') : c.Ends g r t' := by
  unfold Cut.Ends at hends ⊢
  cases h with
  | blocked hknown hblocked =>
    rw [cut_known hknown, if_neg hblocked]
    exact hends
  | met hknown hpassed hlen hpiece =>
    rw [cut_known hknown, if_pos hpassed] at hends
    rw [cut_known hknown, if_pos hpassed, settled_of_meets hlen hpiece]
    rw [settled_of_not_meets (.inr sourceNodes_empty)] at hends
    exact hends
  | dropped hknown hpassed hmeets hn =>
    rw [cut_known hknown, if_pos hpassed, settled_of_not_meets hmeets, if_pos hn]
    exact hends
  | joined hknown hpassed hmeets hn hextend hnext hq =>
    rw [cut_known hknown, if_pos hpassed, settled_of_not_meets hmeets, if_neg hn]
    subst hq
    exact yields_bind.2 ⟨_, _, hextend, yields_lift_bind.2 ⟨_, hnext, hends⟩⟩

/-- A cut that ends has nothing to do, or goes one step. -/
theorem exists_step_of_ends
    (h : Cut.Ends g ⟨(n, number, piece) :: rest, passed, taken, p, t⟩ r t') :
    ∃ c, Step g ⟨(n, number, piece) :: rest, passed, taken, p, t⟩ c ∧ c.Ends g r t' := by
  obtain ⟨m, ins, outs, hknown⟩ := known_of_ends h
  unfold Cut.Ends at h
  by_cases hpassed : ∀ i ∈ m.inputs, i ∈ passed
  · rw [cut_known hknown, if_pos hpassed] at h
    by_cases hmeets : m.inputs.length ≤ 1 ∨ piece.sourceNodes = []
    · rw [settled_of_not_meets hmeets] at h
      by_cases hn : n ∈ taken
      · rw [if_pos hn] at h
        exact ⟨_, .dropped hknown hpassed hmeets hn, h⟩
      · rw [if_neg hn] at h
        obtain ⟨piece', t₁, hextend, h⟩ := h.bind
        obtain ⟨after, hnext, h⟩ := h.lift_bind
        exact ⟨_, .joined hknown hpassed hmeets hn hextend hnext rfl, h⟩
    · obtain ⟨hlen, hpiece⟩ := not_or.1 hmeets
      refine ⟨_, .met hknown hpassed (Nat.not_le.1 hlen) hpiece, ?_⟩
      unfold Cut.Ends
      rw [settled_of_meets (Nat.not_le.1 hlen) hpiece] at h
      rw [cut_known hknown, if_pos hpassed, settled_of_not_meets (.inr sourceNodes_empty)]
      exact h
  · rw [cut_known hknown, if_neg hpassed] at h
    exact ⟨_, .blocked hknown hpassed, h⟩

/-! ### Steps come to an end -/

/-- How many sources the piece has that reached the first node. -/
def Cut.sources (c : Cut) : Nat :=
  match c.waiting with
  | [] => 0
  | (_, _, piece) :: _ => piece.sourceNodes.length

/-- Fewer nodes are left, or fewer wait, or the piece that reached the first has fewer sources. -/
def Cut.left (g : Graph) (c : Cut) : Nat ×ₗ Nat ×ₗ Nat :=
  toLex (g.unvisited c.taken, toLex (c.waiting.length, c.sources))

theorem Step.left_lt (h : Step g c c') : c'.left g < c.left g := by
  cases h with
  | blocked | dropped =>
    exact Prod.Lex.toLex_lt_toLex.2
      (.inr ⟨rfl, Prod.Lex.toLex_lt_toLex.2 (.inl (Nat.lt_succ_self _))⟩)
  | met _ _ _ hpiece =>
    refine Prod.Lex.toLex_lt_toLex.2 (.inr ⟨rfl, Prod.Lex.toLex_lt_toLex.2 (.inr ⟨rfl, ?_⟩)⟩)
    show ({} : Graph).sourceNodes.length < _
    rw [sourceNodes_empty]
    exact List.length_pos_iff.2 hpiece
  | joined hknown _ _ hn =>
    exact Prod.Lex.toLex_lt_toLex.2
      (.inl (g.unvisited_lt (Table.mem_keys_of_get? hknown.node) (by simpa using hn)))

theorem step_wellFounded (g : Graph) : WellFounded fun c' c => Step g c c' :=
  Subrelation.wf (fun h => Step.left_lt h) (InvImage.wf (Cut.left g) wellFounded_lt)

/-- **A cut ends with a partition if and only if steps lead there.** -/
theorem ends_iff_steps {c : Cut} : c.Ends g r t' ↔
    ∃ c', Relation.ReflTransGen (Step g) c c' ∧ c'.waiting = [] ∧ c'.partition = r ∧
    c'.supply = t' := by
  constructor
  · induction c using (step_wellFounded g).induction with
    | _ c ih =>
      obtain ⟨waiting, passed, taken, p, t⟩ := c
      intro h
      rcases waiting with _ | ⟨⟨n, number, piece⟩, rest⟩
      · unfold Cut.Ends at h
        rw [cut] at h
        obtain ⟨rfl, rfl⟩ := h.pure
        exact ⟨_, .refl, rfl, rfl, rfl⟩
      · obtain ⟨c₁, hstep, hends⟩ := exists_step_of_ends h
        obtain ⟨c', hsteps, hlast⟩ := ih c₁ hstep hends
        exact ⟨c', .head hstep hsteps, hlast⟩
  · rintro ⟨c', hsteps, hnil, rfl, rfl⟩
    induction hsteps using Relation.ReflTransGen.head_induction_on with
    | refl =>
      unfold Cut.Ends
      rw [hnil, cut]
      exact yields_pure.2 ⟨rfl, rfl⟩
    | head hstep _ ih => exact hstep.ends ih

/-- A cut at the beginning: each source waits with a piece of its own. -/
def startCut (g : Graph) (t : Supply) : Cut where
  waiting := (({} : Partition).beginAll (t.order.list g.sourceNodes)).1
  passed := g.openInputs
  taken := []
  partition := (({} : Partition).beginAll (t.order.list g.sourceNodes)).2
  supply := t

theorem yields_partition : Yields g.partition t r t' ↔ ∃ c,
    Relation.ReflTransGen (Step g) (g.startCut t) c ∧ c.waiting = [] ∧ c.partition = r ∧
    c.supply = t' :=
  yields_get_bind.trans (@ends_iff_steps g r t' (g.startCut t))

end Graph

/-!
### The pieces of a cut

While a graph is cut, each node that was taken has a copy in one piece, and the nodes of a piece are
those that were taken into it, in this order.  Pieces differ by their numbers, whether nodes wait
with them or they are finished.
-/

open List

namespace Partition

variable (p : Partition) (ns : List Int)

theorem beginAll_nodes : (p.beginAll ns).1.map (·.1) = ns := by
  induction ns generalizing p with
  | nil => rfl
  | cons n _ ih => exact congrArg (n :: ·) (ih p.begin.2)

theorem beginAll_pieces : (p.beginAll ns).2.pieces = p.pieces := by
  induction ns generalizing p with
  | nil => rfl
  | cons _ _ ih => exact ih p.begin.2

theorem beginAll_readers : (p.beginAll ns).2.readers = p.readers := by
  induction ns generalizing p with
  | nil => rfl
  | cons _ _ ih => exact ih p.begin.2

/-- The pieces that are begun have numbers that were not given out. -/
theorem begun_le_of_mem_beginAll {w : Int × Nat × Graph} (hw : w ∈ (p.beginAll ns).1) :
    p.begun ≤ w.2.1 := by
  induction ns generalizing p with
  | nil => cases hw
  | cons _ _ ih =>
    rcases mem_cons.1 hw with rfl | hw
    · exact le_rfl
    · exact (Nat.le_succ p.begun).trans (ih p.begin.2 hw)

end Partition

namespace Graph

variable {g piece piece' : Graph} {copy : Int → Int} {home : Int → Nat} {taken : List Int}
  {pieces pieces' : List (Nat × Graph)} {a b begun next : Nat} {k n : Int} {m : Node}
    {ins outs : List (Int × Edge)}
  {t t' : Supply}

/-- The nodes that were taken into a piece, the first taken first. -/
def chainOf (home : Int → Nat) (taken : List Int) (a : Nat) : List Int :=
    (taken.filter fun k => home k = a).reverse

theorem mem_chainOf : k ∈ chainOf home taken a ↔ k ∈ taken ∧ home k = a := by
  simp [chainOf]

/-- The node that was taken last is the last of its piece. -/
theorem chainOf_take (hn : n ∉ taken) (a b : Nat) :
    chainOf (Function.update home n a) (n :: taken) b =
    if b = a then chainOf home taken b ++ [n] else chainOf home taken b := by
  have hold : taken.filter (fun k => Function.update home n a k = b) = taken.filter fun k =>
      home k = b := by
    refine filter_congr fun k hk => ?_
    have hne : k ≠ n := fun heq => hn (heq ▸ hk)
    rw [Function.update_of_ne hne]
  unfold chainOf
  by_cases hb : b = a
  · rw [filter_cons_of_pos (by simp [hb]), hold, if_pos hb, reverse_cons]
  · rw [filter_cons_of_neg (by simpa using Ne.symm hb), hold, if_neg hb]

/-- Pieces, of which `begun` were begun, hold copies of the nodes that were taken, with numbers
below `next`. -/
structure Held (g : Graph) (copy : Int → Int) (home : Int → Nat) (taken : List Int)
    (pieces : List (Nat × Graph)) (begun next : Nat) : Prop where
  nodup : (pieces.map (·.1)).Nodup
  lt (q : Nat × Graph) : q ∈ pieces → q.1 < begun
  home_mem (k : Int) : k ∈ taken → home k ∈ pieces.map (·.1)
  part (q : Nat × Graph) : q ∈ pieces → g.IsPart copy (chainOf home taken q.1) q.2
  chain (a : Nat) : (chainOf home taken a).IsChain fun k k' => g.nextNodes k = .ok [k']
  copy_lt (k : Int) : k ∈ taken → copy k < next
  copy_inj (k l : Int) : k ∈ taken → l ∈ taken → copy k = copy l → k = l

namespace Held

theorem start (g : Graph) (copy : Int → Int) (home : Int → Nat) (next : Nat) :
    g.Held copy home [] [] 0 next where
  nodup := nodup_nil
  lt _ hq := absurd hq not_mem_nil
  home_mem _ hk := absurd hk not_mem_nil
  part _ hq := absurd hq not_mem_nil
  chain _ := List.IsChain.nil
  copy_lt _ hk := absurd hk not_mem_nil
  copy_inj _ _ hk := absurd hk not_mem_nil

section

variable (h : g.Held copy home taken pieces begun next)
include h

/-- The order of the pieces does not matter. -/
theorem perm (hperm : pieces.Perm pieces') : g.Held copy home taken pieces' begun next where
  nodup := (hperm.map _).nodup_iff.1 h.nodup
  lt q hq := h.lt q (hperm.mem_iff.2 hq)
  home_mem k hk := (hperm.map _).mem_iff.1 (h.home_mem k hk)
  part q hq := h.part q (hperm.mem_iff.2 hq)
  chain := h.chain
  copy_lt := h.copy_lt
  copy_inj := h.copy_inj

theorem chainOf_eq_nil (ha : begun ≤ a) : chainOf home taken a = [] := by
  refine eq_nil_iff_forall_not_mem.2 fun k hk => ?_
  obtain ⟨htaken, rfl⟩ := mem_chainOf.1 hk
  obtain ⟨q, hq, heq⟩ := mem_map.1 (h.home_mem k htaken)
  exact absurd (h.lt q hq) (Nat.not_lt.2 (heq ▸ ha))

theorem begin : g.Held copy home taken (pieces ++ [(begun, ({} : Graph))]) (begun + 1) next where
  nodup := by
    rw [map_append, nodup_append_comm]
    refine nodup_cons.2 ⟨fun hmem => ?_, h.nodup⟩
    obtain ⟨q, hq, heq⟩ := mem_map.1 hmem
    exact (h.lt q hq).ne heq
  lt q hq := by
    rcases mem_append.1 hq with hq | hq
    · exact Nat.lt_succ_of_lt (h.lt q hq)
    · rw [mem_singleton.1 hq]
      exact Nat.lt_succ_self begun
  home_mem k hk := by
    rw [map_append]
    exact mem_append_left _ (h.home_mem k hk)
  part q hq := by
    rcases mem_append.1 hq with hq | hq
    · exact h.part q hq
    · rw [mem_singleton.1 hq, h.chainOf_eq_nil le_rfl]
      exact IsPart.empty g copy
  chain := h.chain
  copy_lt := h.copy_lt
  copy_inj := h.copy_inj

end

theorem beginAll {p : Partition} (h : g.Held copy home taken pieces p.begun next) (ns : List Int) :
    g.Held copy home taken (pieces ++ (p.beginAll ns).1.map (·.2)) (p.beginAll ns).2.begun
      next := by
  induction ns generalizing p pieces with
  | nil => simpa [Partition.beginAll] using h
  | cons _ _ ih =>
    have hrest := @ih _ p.begin.2 h.begin
    rwa [List.append_assoc] at hrest

theorem forget (h : g.Held copy home taken ((a, piece) :: pieces) begun next)
    (hnil : chainOf home taken a = []) : g.Held copy home taken pieces begun next where
  nodup := (nodup_cons.1 h.nodup).2
  lt q hq := h.lt q (mem_cons_of_mem _ hq)
  home_mem k hk := by
    rcases mem_cons.1 (h.home_mem k hk) with heq | hmem
    · exact absurd (mem_chainOf.2 ⟨hk, heq⟩) (hnil ▸ not_mem_nil)
    · exact hmem
  part q hq := h.part q (mem_cons_of_mem _ hq)
  chain := h.chain
  copy_lt := h.copy_lt
  copy_inj := h.copy_inj

/-- **A node is taken into a piece**, whose last node is read by this node only. -/
theorem extend (h : g.Held copy home taken ((a, piece) :: pieces) begun t.nextNode)
    (hcons : g.consistent? = .ok true) (hknown : g.Known n m ins outs)
    (hnamed : ∀ e ∈ ins ++ outs, e.2.channel.ident = e.1) (hn : n ∉ taken)
    (hlast : ∀ k ∈ (chainOf home taken a).getLast?, g.nextNodes k = .ok [n])
    (hy : Yields (piece.extendPiece m (ins.map (·.2.channel)) (outs.map (·.2.channel))) t
      piece' t') :
    g.Held (Function.update copy n t.nextNode) (Function.update home n a) (n :: taken)
    ((a, piece') :: pieces) begun
      t'.nextNode := by
  obtain ⟨rfl, -⟩ := extendPiece_spec hy
  have hne : ∀ k ∈ taken, k ≠ n := fun k hk heq => hn (heq ▸ hk)
  have hcopy : ∀ k ∈ taken, Function.update copy n ↑t.nextNode k = copy k :=
    fun k hk => Function.update_of_ne (hne k hk) _ _
  have hpart : ∀ q ∈ (a, piece) :: pieces, g.IsPart (Function.update copy n t.nextNode)
    (chainOf home taken q.1) q.2 :=
    fun q hq => (h.part q hq).congr fun k hk => hcopy k (mem_chainOf.1 hk).1
  refine ⟨h.nodup,
    forall_mem_cons.2 ⟨h.lt (a, piece) mem_cons_self, fun q hq => h.lt q (mem_cons_of_mem _ hq)⟩,
    forall_mem_cons.2 ⟨?_, fun k hk => ?_⟩, forall_mem_cons.2 ⟨?_, fun q hq => ?_⟩, fun b => ?_,
    forall_mem_cons.2 ⟨?_, fun k hk => ?_⟩, ?_⟩
  · rw [Function.update_self]
    exact mem_cons_self
  · rw [Function.update_of_ne (hne k hk)]
    exact h.home_mem k hk
  · rw [chainOf_take hn, if_pos rfl]
    refine (hpart _ mem_cons_self).extend hcons hknown.node (Function.update_self _ _ _) ?_
      hknown.ins hknown.outs
      hnamed hy
    intro l hl
    obtain ⟨htaken, -⟩ := mem_chainOf.1 hl
    rw [hcopy l htaken]
    exact (h.copy_lt l htaken).ne
  · have hqa : q.1 ≠ a := fun heq => (nodup_cons.1 h.nodup).1 (mem_map.2 ⟨q, hq, heq⟩)
    rw [chainOf_take hn, if_neg hqa]
    exact hpart q (mem_cons_of_mem _ hq)
  · rw [chainOf_take hn]
    by_cases hb : b = a
    · rw [if_pos hb]
      refine isChain_append.2 ⟨h.chain b, isChain_singleton n, fun k hk l hl => ?_⟩
      obtain rfl : n = l := by simpa using hl
      exact hlast k (hb ▸ hk)
    · rw [if_neg hb]
      exact h.chain b
  · rw [Function.update_self]
    exact Int.ofNat_lt.2 (Nat.lt_succ_self _)
  · rw [hcopy k hk]
    exact (h.copy_lt k hk).trans (Int.ofNat_lt.2 (Nat.lt_succ_self _))
  · -- the copy of the node has a number of its own
    have hfresh : ∀ k ∈ taken, Function.update copy n ↑t.nextNode k ≠ t.nextNode := by
      intro k hk
      rw [hcopy k hk]
      exact (h.copy_lt k hk).ne
    intro k l hk hl heq
    rcases mem_cons.1 hk with hkn | hk'
    · rcases mem_cons.1 hl with hln | hl'
      · exact hkn.trans hln.symm
      · rw [hkn, Function.update_self] at heq
        exact absurd heq.symm (hfresh l hl')
    · rcases mem_cons.1 hl with hln | hl'
      · rw [hln, Function.update_self] at heq
        exact absurd heq (hfresh k hk')
      · rw [hcopy k hk', hcopy l hl'] at heq
        exact h.copy_inj k l hk' hl' heq

end Held

end Graph

end ShellFlow
