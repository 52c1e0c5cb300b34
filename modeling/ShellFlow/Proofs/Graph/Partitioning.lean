import ShellFlow.Proofs.Graph.Cutting
import ShellFlow.Proofs.Graph.Taking

/-!
# Graphs are partitioned

A cut of a graph puts a copy of every node into one piece.  Inside a piece each node but the last is
read by the next one only, and an edge between two pieces is open in both.  The cut fails only where
an edge is filed under a number that is not the one of its channel, or a node writes an edge twice.
-/

namespace ShellFlow

open List

namespace Partition

variable (p : Partition) (ids : List Int) (number : Nat)

theorem addReaders_pieces : (p.addReaders ids number).pieces = p.pieces := by
  induction ids generalizing p with
  | nil => rfl
  | cons i _ ih => exact ih (p.addReader i number)

theorem addReaders_begun : (p.addReaders ids number).begun = p.begun := by
  induction ids generalizing p with
  | nil => rfl
  | cons i _ ih => exact ih (p.addReader i number)

/-- An edge is noted once for each time that it is listed. -/
theorem addReaders_get? (i : Int) : (p.addReaders ids number).readers.get? i =
    if i ∈ ids then some ((p.readers.get? i).getD [] ++ List.replicate (ids.count i) number)
    else p.readers.get? i := by
  induction ids generalizing p with
  | nil => rfl
  | cons j ids ih =>
    have hfirst : (p.addReader j number).readers.get? i =
        if i = j then some ((p.readers.get? j).getD [] ++ [number]) else p.readers.get? i :=
      Table.get?_insert p.readers i j _
    show ((p.addReader j number).addReaders ids number).readers.get? i = _
    rw [ih, hfirst]
    by_cases hij : i = j
    · subst hij
      by_cases hi : i ∈ ids
      · simp [hi, replicate_succ]
      · simp [hi, count_eq_zero_of_not_mem hi]
    · simp [hij, count_cons_of_ne (Ne.symm hij)]

end Partition

/-- An edge as a piece has it: an end is the copy of a node if the piece has a copy of it, and else
is open. -/
def Edge.part (copy? : Int → Option Int) (e : Edge) : Option Edge :=
  if e.source.bind copy? = none ∧ e.target.bind copy? = none then none
  else some { e with source := e.source.bind copy?, target := e.target.bind copy? }

namespace Graph

variable {g piece piece' : Graph} {copy : Int → Int} {home : Int → Nat} {taken : List Int}
  {i k n : Int} {m : Node}
  {ins outs : List (Int × Edge)} {p : Partition} {c c' : Cut} {t t' : Supply}

/-- The pieces of a partition together are the graph: the node with the number `k` has a copy with
the number `copy k` in the piece with the number `home k`. -/
structure Partitioned (g : Graph) (p : Partition) (copy : Int → Int) (home : Int → Nat) : Prop where
  /-- Every piece occurs once. -/
  nodup : (p.pieces.map (·.1)).Nodup
  /-- Every piece has a node. -/
  nonempty (q : Nat × Graph) : q ∈ p.pieces → q.2.isEmpty = false
  /-- Every node is copied into a piece. -/
  home_mem (k : Int) (m : Node) : g.node? k = some m → home k ∈ p.pieces.map (·.1)
  /-- Different nodes have different copies. -/
  copy_inj (k l : Int) (m m' : Node) : g.node? k = some m → g.node? l = some m' →
    copy k = copy l → k = l
  /-- The nodes of a piece are the copies of the nodes that are copied into it. -/
  node (q : Nat × Graph) : q ∈ p.pieces → ∀ k' m', q.2.node? k' = some m' ↔
    ∃ k m, g.node? k = some m ∧ home k = q.1 ∧ copy k = k' ∧ m' = { m with id := k' }
  /-- Edges and nodes of a piece agree. -/
  consistent (q : Nat × Graph) : q ∈ p.pieces → q.2.consistent? = .ok true
  /-- The nodes of a piece form a chain: each but the last is read by the next one only. -/
  chain (q : Nat × Graph) : q ∈ p.pieces →
    q.2.nodes.keys.IsChain fun k k' => q.2.nextNodes k = .ok [k']
  /-- A piece has the edges that have an end in it, open at the ends that are not in it. -/
  edge (q : Nat × Graph) : q ∈ p.pieces → ∀ i,
    q.2.edge? i = (g.edge? i).bind (Edge.part fun k => if home k = q.1 then some (copy k) else none)
  /-- An edge that a node reads is read by the piece of the node, once for each time that the node
  lists it. -/
  reads (i : Int) (numbers : List Nat) : p.readers.get? i = some numbers ↔
    ∃ k m, g.node? k = some m ∧ i ∈ m.inputs ∧ numbers = List.replicate (m.inputs.count i) (home k)

/-- The graphs that are partitioned. -/
structure Cuttable (g : Graph) : Prop where
  tidy : g.Tidy
  consistent : g.consistent? = .ok true
  acyclic : g.Acyclic
  named (i : Int) (e : Edge) : g.edge? i = some e → e.source ≠ none ∨ e.target ≠ none →
    e.channel.ident = i
  nodup (k : Int) (m : Node) : g.node? k = some m → m.outputs.Nodup

/-! ### Edges of a node -/

theorem Known.named (h : g.Known n m ins outs) (hg : g.Cuttable) :
    ∀ e ∈ ins ++ outs, e.2.channel.ident = e.1 := by
  obtain ⟨hsource, htarget⟩ := listed_of_consistent hg.consistent
  have hend : ∀ {edges : Node → List Int} {stop : Edge → Option Int} {es : List (Int × Edge)},
      Listed g.node? edges (fun i => (g.edge? i).bind stop) → g.edgesOf (edges m) = .ok es →
        ∀ e ∈ es, g.edge? e.1 = some e.2 ∧ stop e.2 ≠ none := by
    intro edges stop es hlisted hes e he
    have hedge := edge_of_mem_edgesOf hes e he
    have hi : e.1 ∈ edges m := edgesOf_map_fst hes ▸ mem_map_of_mem he
    have hn := (hlisted e.1 n).2 ⟨m, h.node, hi⟩
    refine ⟨hedge, fun hnone => ?_⟩
    simp [hedge, hnone] at hn
  intro e he
  rcases mem_append.1 he with he | he
  · obtain ⟨hedge, hread⟩ := hend htarget h.ins e he
    exact hg.named e.1 e.2 hedge (.inr hread)
  · obtain ⟨hedge, hwritten⟩ := hend hsource h.outs e he
    exact hg.named e.1 e.2 hedge (.inl hwritten)

theorem Known.map_ident (h : g.Known n m ins outs) (hg : g.Cuttable) :
    ins.map (·.2.channel.ident) = m.inputs ∧ outs.map (·.2.channel.ident) = m.outputs := by
  rw [← edgesOf_map_fst h.ins, ← edgesOf_map_fst h.outs]
  exact ⟨map_congr_left fun e he => h.named hg e (mem_append_left _ he),
    map_congr_left fun e he => h.named hg e (mem_append_right _ he)⟩

/-! ### Readers -/

/-- The reader of an edge is the piece of the node that reads it, if the node was taken. -/
def ReadBy (g : Graph) (home : Int → Nat) (taken : List Int) (p : Partition) : Prop :=
  ∀ i numbers, p.readers.get? i = some numbers ↔
    ∃ k ∈ taken, ∃ m, g.node? k = some m ∧ i ∈ m.inputs ∧
      numbers = List.replicate (m.inputs.count i) (home k)

theorem ReadBy.take (h : g.ReadBy home taken p) (hcons : g.consistent? = .ok true)
    (hm : g.node? n = some m) (hn : n ∉ taken) (a : Nat) :
    g.ReadBy (Function.update home n a) (n :: taken) (p.addReaders m.inputs a) := by
  obtain ⟨-, htarget⟩ := listed_of_consistent hcons
  have hhome : ∀ k ∈ taken, Function.update home n a k = home k :=
    fun k hk => Function.update_of_ne (show k ≠ n from fun heq => hn (heq ▸ hk)) _ _
  -- an edge is read by one node only
  have honly : ∀ {i k m'}, i ∈ m.inputs → g.node? k = some m' → i ∈ m'.inputs → k = n := by
    intro i k m' hi hm' hi'
    have hread := (htarget i k).2 ⟨m', hm', hi'⟩
    rw [(htarget i n).2 ⟨m, hm, hi⟩] at hread
    exact (Option.some.inj hread).symm
  intro i numbers
  rw [Partition.addReaders_get?]
  by_cases hi : i ∈ m.inputs
  · have hnone : p.readers.get? i = none := by
      refine Option.eq_none_iff_forall_ne_some.2 fun ns hns => ?_
      obtain ⟨k, hk, m', hm', hi', -⟩ := (h i ns).1 hns
      exact hn (honly hi hm' hi' ▸ hk)
    rw [if_pos hi, hnone, Option.getD_none, nil_append]
    constructor
    · intro heq
      refine ⟨n, mem_cons_self, m, hm, hi, ?_⟩
      rw [Function.update_self]
      exact (Option.some.inj heq).symm
    · rintro ⟨k, -, m', hm', hi', rfl⟩
      obtain rfl := honly hi hm' hi'
      obtain rfl := Option.mem_unique hm hm'
      rw [Function.update_self]
  · rw [if_neg hi, h i numbers]
    constructor
    · rintro ⟨k, hk, hrest⟩
      refine ⟨k, mem_cons_of_mem _ hk, ?_⟩
      rwa [hhome k hk]
    · rintro ⟨k, hk, hrest⟩
      rcases mem_cons.1 hk with rfl | hk
      · obtain ⟨m', hm', hi', -⟩ := hrest
        obtain rfl := Option.mem_unique hm hm'
        exact absurd hi' hi
      · rw [hhome k hk] at hrest
        exact ⟨k, hk, hrest⟩

/-! ### The cut -/

/-- What holds of a cut that is under way. -/
structure Cutting (g : Graph) (copy : Int → Int) (home : Int → Nat) (c : Cut) : Prop where
  reached : g.Reached (c.waiting.map (·.1)) c.passed c.taken
  held : g.Held copy home c.taken (c.waiting.map (·.2) ++ c.partition.pieces) c.partition.begun
    c.supply.nextNode
  last (w : Int × Nat × Graph) : w ∈ c.waiting →
    ∀ k ∈ (chainOf home c.taken w.2.1).getLast?, g.nextNodes k = .ok [w.1]
  filled (q : Nat × Graph) : q ∈ c.partition.pieces → chainOf home c.taken q.1 ≠ []
  readBy : g.ReadBy home c.taken c.partition

namespace Cutting

theorem sourceNodes_eq_nil (hg : g.Cuttable) (h : g.Cutting copy home c) {w : Int × Nat × Graph}
    (hw : w ∈ c.waiting) : w.2.2.sourceNodes = [] ↔ chainOf home c.taken w.2.1 = [] := by
  have hpart := h.held.part w.2 (mem_append_left _ (mem_map_of_mem hw))
  exact hpart.sourceNodes_eq_nil hg.consistent hg.acyclic (h.held.chain w.2.1)

section Moves

variable {number : Nat} {rest : List (Int × Nat × Graph)} {passed : List Int}

/-- The first node is passed over, and the piece that reached it has no node. -/
theorem forget (h : g.Cutting copy home ⟨(n, number, piece) :: rest, passed, taken, p, t⟩)
    (hskip : n ∈ taken ∨ ¬ g.Fed taken n) (hnil : chainOf home taken number = []) :
    g.Cutting copy home ⟨rest, passed, taken, p, t⟩ where
  reached := h.reached.skip hskip
  held := h.held.forget hnil
  last w hw := h.last w (mem_cons_of_mem _ hw)
  filled := h.filled
  readBy := h.readBy

theorem perm_finish (q : Nat × Graph) (ws ps : List (Nat × Graph)) :
    (q :: (ws ++ ps)).Perm (ws ++ (ps ++ [q])) := by
  rw [← List.append_assoc]
  exact (perm_append_singleton q (ws ++ ps)).symm

/-- The piece that reached the first node is finished. -/
theorem filled_finish (h : g.Cutting copy home ⟨(n, number, piece) :: rest, passed, taken, p, t⟩)
    (hpiece : chainOf home taken number ≠ []) :
    ∀ q ∈ (p.finish number piece).pieces, chainOf home taken q.1 ≠ [] := by
  intro q hq
  rcases mem_append.1 hq with hq | hq
  · exact h.filled q hq
  · rw [mem_singleton.1 hq]
    exact hpiece

section

variable (hg : g.Cuttable)
  (h : g.Cutting copy home ⟨(n, number, piece) :: rest, passed, taken, p, t⟩)
  (hknown : g.Known n m ins outs) (hpassed : ∀ i ∈ m.inputs, i ∈ passed) (hn : n ∉ taken)
  (hextend : Yields (piece.extendPiece m (ins.map (·.2.channel)) (outs.map (·.2.channel))) t
    piece' t')
include hg h hknown hpassed hn hextend

/-- The first node is taken into the piece that reached it. -/
theorem take :
    g.Reached (rest.map (·.1) ++ m.outputs.filterMap g.view.target) (m.outputs ++ passed)
    (n :: taken) ∧
      ∃ copy' home',
          g.Held copy' home' (n :: taken) ((number, piece') :: (rest.map (·.2) ++ p.pieces)) p.begun
          t'.nextNode ∧
        (chainOf home' (n :: taken) number).getLast? = some n ∧
        (∀ w ∈ rest, ∀ k ∈ (chainOf home' (n :: taken) w.2.1).getLast?, g.nextNodes k = .ok [w.1]) ∧
        (∀ q ∈ p.pieces, chainOf home' (n :: taken) q.1 ≠ []) ∧
        g.ReadBy home' (n :: taken) (p.addReaders (ins.map (·.2.channel.ident)) number) := by
  have hfed := (h.reached.passed_iff_fed hg.consistent hknown.node).1 hpassed
  -- other pieces keep their nodes
  have hother : ∀ q ∈ rest.map (·.2) ++ p.pieces,
      chainOf (Function.update home n number) (n :: taken) q.1 = chainOf home taken q.1 := by
    intro q hq
    have hne : q.1 ≠ number := fun heq => (nodup_cons.1 h.held.nodup).1 (mem_map.2 ⟨q, hq, heq⟩)
    rw [chainOf_take hn, if_neg hne]
  refine ⟨h.reached.take hg.consistent hknown.node hfed hn (hg.nodup n m hknown.node), _, _,
    h.held.extend hg.consistent hknown (hknown.named hg) hn (h.last _ mem_cons_self) hextend, ?_,
      ?_, ?_, ?_⟩
  · rw [chainOf_take hn, if_pos rfl, getLast?_concat]
  · intro w hw
    rw [hother w.2 (mem_append_left _ (mem_map_of_mem hw))]
    exact h.last w (mem_cons_of_mem _ hw)
  · intro q hq
    rw [hother q (mem_append_right _ hq)]
    exact h.filled q hq
  · rw [(hknown.map_ident hg).1]
    exact h.readBy.take hg.consistent hknown.node hn number

/-- The piece goes on to the readers of the node. -/
theorem goOn {after : List Int} (hnext : g.nextNodes n = .ok after) {q : Partition}
    (hq : q = p.addReaders (ins.map (·.2.channel.ident)) number) :
    ∃ copy' home', g.Cutting copy' home' ⟨rest ++ (q.goOn number piece' after).1,
      m.outputs ++ passed, n :: taken, (q.goOn number piece' after).2, t'⟩ := by
  obtain ⟨hreached, copy', home', hheld, hnode, hlast, hfilled, hreadBy⟩ :=
    h.take hg hknown hpassed hn hextend
  have hafter : m.outputs.filterMap g.view.target = after :=
    Except.ok.inj ((nextNodes_eq (listed_of_consistent hg.consistent).1 hknown.node).symm.trans
      hnext)
  have hpieces : q.pieces = p.pieces := hq ▸ Partition.addReaders_pieces p _ _
  have hbegun : q.begun = p.begun := hq ▸ Partition.addReaders_begun p _ _
  rw [hafter] at hreached
  rw [← hpieces, ← hbegun] at hheld
  rw [← hpieces] at hfilled
  rw [← hq] at hreadBy
  by_cases hone : after.length = 1
  · obtain ⟨k, rfl⟩ := length_eq_one_iff.1 hone
    refine ⟨copy', home', ?_, ?_, ?_, hfilled, hreadBy⟩
    · rw [map_append]
      exact hreached
    · rw [map_append, List.append_assoc]
      exact hheld.perm perm_middle.symm
    · refine forall_mem_append.2 ⟨hlast, forall_mem_singleton.2 fun l hl => ?_⟩
      obtain rfl := Option.mem_unique hnode hl
      exact hnext
  · rw [q.goOn_of_length_ne number piece' hone]
    have hfinished :
        g.Held copy' home' (n :: taken) (rest.map (·.2) ++ (q.finish number piece').pieces)
        (q.finish number piece').begun t'.nextNode := hheld.perm (perm_finish _ _ _)
    refine ⟨copy', home', ?_, ?_, ?_, ?_, ?_⟩
    · rw [map_append, Partition.beginAll_nodes]
      exact hreached
    · refine (hfinished.beginAll after).perm ?_
      rw [Partition.beginAll_pieces, map_append, List.append_assoc, List.append_assoc]
      exact perm_append_comm.append_left _
    · refine forall_mem_append.2 ⟨hlast, fun w hw l hl => ?_⟩
      rw [hfinished.chainOf_eq_nil (Partition.begun_le_of_mem_beginAll _ after hw)] at hl
      cases hl
    · rw [Partition.beginAll_pieces]
      refine forall_mem_append.2 ⟨hfilled, forall_mem_singleton.2 fun hnil => ?_⟩
      rw [hnil] at hnode
      cases hnode
    · unfold ReadBy
      rw [Partition.beginAll_readers]
      exact hreadBy

end

end Moves

/-- **Every step keeps it.** -/
theorem step (hg : g.Cuttable) (h : g.Cutting copy home c) (hstep : Step g c c') :
    ∃ copy' home', g.Cutting copy' home' c' := by
  cases hstep with
  | @blocked n m ins outs number piece rest passed taken p t hknown hblocked =>
    have hskip := fun hfed => hblocked ((h.reached.passed_iff_fed hg.consistent hknown.node).2 hfed)
    have hnil := h.sourceNodes_eq_nil hg mem_cons_self
    unfold Partition.finishNonempty
    by_cases hempty : piece.sourceNodes = []
    · rw [if_pos (List.isEmpty_iff.2 hempty)]
      exact ⟨copy, home, h.forget (.inr hskip) (hnil.1 hempty)⟩
    · rw [if_neg fun hc => hempty (List.isEmpty_iff.1 hc)]
      exact ⟨copy, home, h.reached.skip (.inr hskip), h.held.perm (perm_finish _ _ _),
        fun w hw => h.last w (mem_cons_of_mem _ hw), h.filled_finish (hnil.not.1 hempty), h.readBy⟩
  | met _ _ _ hpiece =>
    have hnil := h.sourceNodes_eq_nil hg mem_cons_self
    have hheld := (h.held.perm (perm_finish _ _ _)).begin
    refine ⟨copy, home, h.reached, hheld.perm (perm_append_singleton _ _), ?_,
      h.filled_finish (hnil.not.1 hpiece), h.readBy⟩
    refine forall_mem_cons.2 ⟨fun k hk => ?_, fun w hw => h.last w (mem_cons_of_mem _ hw)⟩
    rw [h.held.chainOf_eq_nil le_rfl] at hk
    cases hk
  | dropped hknown _ hmeets hn =>
    -- a node with a single input is not reached twice
    have hempty := hmeets.resolve_left fun hlen => (h.reached.single hknown.node hlen).2 hn
    exact ⟨copy, home, h.forget (.inl hn) ((h.sourceNodes_eq_nil hg mem_cons_self).1 hempty)⟩
  | joined hknown hpassed _ hn hextend hnext hq =>
    exact hq ▸ h.goOn hg hknown hpassed hn hextend hnext rfl

/-- A copy of the first node can join the piece that reached it. -/
theorem exists_extendPiece (hg : g.Cuttable) {number : Nat} {rest : List (Int × Nat × Graph)}
    {passed : List Int} (h : g.Cutting copy home ⟨(n, number, piece) :: rest, passed, taken, p, t⟩)
    (hknown : g.Known n m ins outs) (hn : n ∉ taken) :
    ∃ piece' t', Yields (piece.extendPiece m (ins.map (·.2.channel)) (outs.map (·.2.channel))) t
      piece' t' := by
  obtain ⟨hsource, htarget⟩ := listed_of_consistent hg.consistent
  have hpart := h.held.part (number, piece) mem_cons_self
  refine Graph.exists_extendPiece ?_ ?_ (hg.nodup n m hknown.node) (fun i hi => ?_) t
  · rw [map_map]
    exact (hknown.map_ident hg).1
  · rw [map_map]
    exact (hknown.map_ident hg).2
  · have hwritten : g.view.source i = some n := (hsource i n).2 ⟨m, hknown.node, hi⟩
    refine ⟨hpart.edge?_eq_none (fun k hk heq => ?_) fun k hk heq => ?_, fun hi' => ?_⟩
    · rw [hwritten] at heq
      exact hn (Option.some.inj heq ▸ (mem_chainOf.1 hk).1)
    · exact hn (h.reached.fed k (mem_chainOf.1 hk).1 n ⟨i, hwritten, heq⟩)
    · exact hg.acyclic n (.single ⟨i, hwritten, (htarget i n).2 ⟨m, hknown.node, hi'⟩⟩)

/-- **While nodes wait there is a step.** -/
theorem exists_step (hg : g.Cuttable) (h : g.Cutting copy home c) (hc : c.waiting ≠ []) :
    ∃ c', Step g c c' := by
  obtain ⟨waiting, passed, taken, p, t⟩ := c
  obtain ⟨⟨n, number, piece⟩, rest, rfl⟩ := exists_cons_of_ne_nil hc
  obtain ⟨m, hm⟩ := h.reached.known n mem_cons_self
  obtain ⟨⟨ins, hins⟩, outs, houts⟩ := exists_edgesOf_node hg.consistent hm
  have hknown : g.Known n m ins outs := ⟨hm, hins, houts⟩
  by_cases hpassed : ∀ i ∈ m.inputs, i ∈ passed
  · by_cases hmeets : m.inputs.length ≤ 1 ∨ piece.sourceNodes = []
    · by_cases hn : n ∈ taken
      · exact ⟨_, .dropped hknown hpassed hmeets hn⟩
      · obtain ⟨piece', t', hextend⟩ := h.exists_extendPiece hg hknown hn
        have hnext := nextNodes_eq (listed_of_consistent hg.consistent).1 hm
        exact ⟨_, .joined hknown hpassed hmeets hn hextend hnext rfl⟩
    · obtain ⟨hlen, hpiece⟩ := not_or.1 hmeets
      exact ⟨_, .met hknown hpassed (Nat.not_le.1 hlen) hpiece⟩
  · exact ⟨_, .blocked hknown hpassed⟩

/-- The cut of a graph comes to an end. -/
theorem exists_steps (hg : g.Cuttable) (h : g.Cutting copy home c) : ∃ c' copy' home',
    Relation.ReflTransGen (Step g) c c' ∧ c'.waiting = [] ∧ g.Cutting copy' home' c' := by
  induction c using (step_wellFounded g).induction generalizing copy home with
  | _ c ih =>
    by_cases hc : c.waiting = []
    · exact ⟨c, copy, home, .refl, hc, h⟩
    · obtain ⟨c₁, hstep⟩ := h.exists_step hg hc
      obtain ⟨copy₁, home₁, h₁⟩ := h.step hg hstep
      obtain ⟨c', copy', home', hsteps, hend⟩ := ih c₁ hstep h₁
      exact ⟨c', copy', home', .head hstep hsteps, hend⟩

end Cutting

theorem cutting_start (hg : g.Cuttable) (t : Supply) :
    g.Cutting id (fun _ => 0) (g.startCut t) := by
  have hpieces : (({} : Partition).beginAll (t.order.list g.sourceNodes)).2.pieces = [] :=
    Partition.beginAll_pieces _ _
  have hheld : g.Held id (fun _ => 0) [] _ _ t.nextNode :=
    @Held.beginAll _ _ _ _ _ _ {} (Held.start g id (fun _ => 0) t.nextNode)
      (t.order.list g.sourceNodes)
  refine ⟨?_, ?_, fun w hw k hk => ?_, fun q hq => ?_, fun i numbers => ?_⟩
  · rw [startCut, Partition.beginAll_nodes]
    exact reached_start t.order hg.tidy hg.consistent
  · rw [startCut, hpieces, append_nil]
    exact hheld
  · cases hk
  · rw [startCut, hpieces] at hq
    cases hq
  · rw [startCut, Partition.beginAll_readers]
    constructor
    · intro hread
      cases hread
    · rintro ⟨k, hk, -⟩
      cases hk

/-! ### The partition -/

theorem IsPart.edge?_eq {ks : List Int} (h : g.IsPart copy ks piece) (i : Int) :
    piece.edge? i =
    (g.edge? i).bind (Edge.part fun k => if k ∈ ks then some (copy k) else none) := by
  have hsource := h.source i
  have htarget := h.target i
  cases hedge : piece.edge? i with
  | none =>
    simp only [view, hedge, Option.bind_none] at hsource htarget
    cases he : g.edge? i with
    | none => rfl
    | some =>
      rw [he] at hsource htarget
      exact (if_pos ⟨hsource.symm, htarget.symm⟩).symm
  | some e' =>
    have hchannel : piece.channelAt i = some e'.channel := by rw [channelAt, hedge, Option.map_some]
    obtain ⟨hgraph, hends⟩ := h.channel i e'.channel hchannel
    obtain ⟨e, he, hsame⟩ := Option.map_eq_some_iff.1 hgraph
    simp only [view, hedge, he, Option.bind_some] at hsource htarget hends
    unfold partEnd at hsource htarget
    rw [he, Option.bind_some, Edge.part, ← hsource, ← htarget,
      if_neg fun hno => hends.elim (· hno.1) (· hno.2), hsame]

/-- When no node waits any more, the graph is partitioned. -/
theorem Cutting.partitioned (hg : g.Cuttable) (h : g.Cutting copy home c) (hc : c.waiting = []) :
    g.Partitioned c.partition copy home := by
  obtain ⟨waiting, passed, taken, p, t⟩ := c
  obtain rfl : waiting = [] := hc
  have htaken : ∀ {k m}, g.node? k = some m → k ∈ taken :=
    hg.acyclic.mem_of_fed hg.consistent h.reached.waits
  have hpart : ∀ q ∈ p.pieces, g.IsPart copy (chainOf home taken q.1) q.2 := h.held.part
  refine ⟨h.held.nodup, ?_, ?_, ?_, ?_, ?_, ?_, ?_, ?_⟩
  · intro q hq
    have hkeys := (hpart q hq).keys_eq
    cases hempty : q.2.isEmpty with
    | false => rfl
    | true =>
      rw [Table.keys, List.isEmpty_iff.1 hempty] at hkeys
      exact absurd (map_eq_nil_iff.1 hkeys.symm) (h.filled q hq)
  · intro k m hm
    exact h.held.home_mem k (htaken hm)
  · intro k l m m' hm hm'
    exact h.held.copy_inj k l (htaken hm) (htaken hm')
  · intro q hq k' m'
    rw [(hpart q hq).node?_eq_some]
    constructor
    · rintro ⟨k, hk, m, hm, hrest⟩
      exact ⟨k, m, hm, (mem_chainOf.1 hk).2, hrest⟩
    · rintro ⟨k, m, hm, hhome, hrest⟩
      exact ⟨k, mem_chainOf.2 ⟨htaken hm, hhome⟩, m, hm, hrest⟩
  · exact fun q hq => (hpart q hq).consistent hg.consistent
  · exact fun q hq => (hpart q hq).chain hg.consistent (h.held.chain q.1)
  · intro q hq i
    rw [(hpart q hq).edge?_eq]
    refine Option.bind_congr fun e he => ?_
    -- the ends of an edge are nodes, and all nodes were taken
    have hends : ∀ {edges : Node → List Int} {stop : Edge → Option Int},
        Listed g.node? edges (fun i => (g.edge? i).bind stop) →
          (stop e).bind (fun k => if k ∈ chainOf home taken q.1 then some (copy k) else none) =
            (stop e).bind fun k => if home k = q.1 then some (copy k) else none := by
      intro edges stop hlisted
      refine Option.bind_congr fun k hk => if_congr ?_ rfl rfl
      obtain ⟨m, hm, -⟩ := (hlisted i k).1 (by simpa [he] using hk)
      exact mem_chainOf.trans (and_iff_right (htaken hm))
    obtain ⟨hsource, htarget⟩ := listed_of_consistent hg.consistent
    rw [Edge.part, Edge.part, hends hsource, hends htarget]
  · intro i numbers
    rw [h.readBy i numbers]
    constructor
    · rintro ⟨k, -, m, hrest⟩
      exact ⟨k, m, hrest⟩
    · rintro ⟨k, m, hm, hrest⟩
      exact ⟨k, htaken hm, m, hm, hrest⟩

/-! ### What every cut checks -/

/-- Edges are filed under the numbers of their channels, and no node writes an edge twice. -/
structure Written (piece : Graph) : Prop where
  named (i : Int) (d : Channel Int) : piece.channelAt i = some d → d.ident = i
  nodup (k : Int) (m : Node) : piece.node? k = some m → m.outputs.Nodup

theorem written_empty : Written {} where
  named _ _ h := nomatch h
  nodup _ _ h := nomatch h

/-- A node cannot join a piece if it writes an edge twice. -/
theorem Written.extend (h : piece.Written) (hknown : g.Known n m ins outs)
    (hy : Yields (piece.extendPiece m (ins.map (·.2.channel)) (outs.map (·.2.channel))) t
      piece' t') :
    piece'.Written := by
  obtain ⟨-, hnodes, hchannel, -, hnodup⟩ := extendPiece_spec hy
  have houtputs : m.outputs.Nodup := by
    have hident : (outs.map (·.2.channel)).map (·.ident) =
        m.outputs.map fun i => ((g.channelAt i).map (·.ident)).getD 0 := by
      rw [← edgesOf_map_fst hknown.outs, map_map, map_map]
      refine map_congr_left fun e he => ?_
      simp [channelAt, edge_of_mem_edgesOf hknown.outs e he]
    exact List.Nodup.of_map _ (hident ▸ hnodup)
  constructor
  · intro i d hd
    rw [hchannel, Option.or_eq_some_iff] at hd
    rcases hd with hd | ⟨-, hd⟩
    · exact h.named i d hd
    · simpa using find?_some hd
  · intro k m' hm'
    rw [node?, hnodes, Table.get?_insert] at hm'
    split at hm'
    · obtain rfl := Option.some.inj hm'
      exact houtputs
    · exact h.nodup k m' hm'

def Cut.Written (c : Cut) : Prop :=
  (∀ w ∈ c.waiting, w.2.2.Written) ∧ ∀ q ∈ c.partition.pieces, q.2.Written

theorem beginAll_written (p : Partition) (ns : List Int) :
    ∀ w ∈ (p.beginAll ns).1, w.2.2.Written := by
  induction ns generalizing p with
  | nil => exact fun w hw => absurd hw not_mem_nil
  | cons _ _ ih => exact forall_mem_cons.2 ⟨written_empty, ih p.begin.2⟩

theorem goOn_written (hpiece : piece.Written) (hpieces : ∀ q ∈ p.pieces, q.2.Written) (number : Nat)
    (after : List Int) : (∀ w ∈ (p.goOn number piece after).1, w.2.2.Written) ∧
      ∀ q ∈ (p.goOn number piece after).2.pieces, q.2.Written := by
  by_cases hone : after.length = 1
  · obtain ⟨k, rfl⟩ := length_eq_one_iff.1 hone
    exact ⟨forall_mem_singleton.2 hpiece, hpieces⟩
  · rw [p.goOn_of_length_ne number piece hone, Partition.beginAll_pieces]
    exact ⟨beginAll_written _ _, forall_mem_append.2 ⟨hpieces, forall_mem_singleton.2 hpiece⟩⟩

theorem Step.written (hstep : Step g c c') (h : c.Written) : c'.Written := by
  obtain ⟨hwaiting, hpieces⟩ := h
  cases hstep with
  | blocked =>
    obtain ⟨hpiece, hrest⟩ := forall_mem_cons.1 hwaiting
    refine ⟨hrest, ?_⟩
    unfold Partition.finishNonempty
    split
    · exact hpieces
    · exact forall_mem_append.2 ⟨hpieces, forall_mem_singleton.2 hpiece⟩
  | met =>
    obtain ⟨hpiece, hrest⟩ := forall_mem_cons.1 hwaiting
    exact ⟨forall_mem_cons.2 ⟨written_empty, hrest⟩,
      forall_mem_append.2 ⟨hpieces, forall_mem_singleton.2 hpiece⟩⟩
  | dropped => exact ⟨(forall_mem_cons.1 hwaiting).2, hpieces⟩
  | joined hknown _ _ _ hextend _ hq =>
    obtain ⟨hpiece, hrest⟩ := forall_mem_cons.1 hwaiting
    rw [← Partition.addReaders_pieces] at hpieces
    subst hq
    obtain ⟨hfurther, hall⟩ := goOn_written (hpiece.extend hknown hextend) hpieces _ _
    exact ⟨forall_mem_append.2 ⟨hrest, hfurther⟩, hall⟩

theorem written_of_partition (h : Yields g.partition t p t') : ∀ q ∈ p.pieces, q.2.Written := by
  have hrun : ∀ c, Relation.ReflTransGen (Step g) (g.startCut t) c → c.Written := by
    intro c hsteps
    induction hsteps with
    | refl =>
      refine ⟨beginAll_written _ _, ?_⟩
      rw [startCut, Partition.beginAll_pieces]
      exact fun q hq => absurd hq not_mem_nil
    | tail _ hstep ih => exact hstep.written ih
  obtain ⟨c, hsteps, -, rfl, -⟩ := yields_partition.1 h
  exact (hrun c hsteps).2

/-- In a partition an edge with an end has the number of its channel, if it has this number in the
pieces. -/
theorem Partitioned.named (h : g.Partitioned p copy home) (hcons : g.consistent? = .ok true)
    (hwritten : ∀ q ∈ p.pieces, q.2.Written) {e : Edge} (he : g.edge? i = some e)
    (hend : e.source ≠ none ∨ e.target ≠ none) : e.channel.ident = i := by
  obtain ⟨hsource, htarget⟩ := listed_of_consistent hcons
  have hnode : ∀ {edges : Node → List Int} {stop : Edge → Option Int},
      Listed g.node? edges (fun i => (g.edge? i).bind stop) → stop e ≠ none →
        ∃ k, stop e = some k ∧ ∃ m, g.node? k = some m := by
    intro edges stop hlisted hend
    obtain ⟨k, hk⟩ := Option.ne_none_iff_exists'.1 hend
    obtain ⟨m, hm, -⟩ := (hlisted i k).1 (by simpa [he] using hk)
    exact ⟨k, hk, m, hm⟩
  obtain ⟨k, hk, m, hm⟩ : ∃ k, (e.source = some k ∨ e.target = some k) ∧
      ∃ m, g.node? k = some m := by
    rcases hend with hend | hend
    · obtain ⟨k, hk, hm⟩ := hnode hsource hend
      exact ⟨k, .inl hk, hm⟩
    · obtain ⟨k, hk, hm⟩ := hnode htarget hend
      exact ⟨k, .inr hk, hm⟩
  obtain ⟨q, hq, hnumber⟩ := mem_map.1 (h.home_mem k m hm)
  -- the piece of the node has the edge
  have hpart : (q.2.edge? i).map Edge.channel = some e.channel := by
    rw [h.edge q hq, he, Option.bind_some, Edge.part, if_neg, Option.map_some]
    rintro ⟨hs, ht⟩
    rcases hk with hk | hk
    · simp [hk, hnumber] at hs
    · simp [hk, hnumber] at ht
  exact (hwritten q hq).named i e.channel hpart

/-- **A graph without cycles is partitioned if and only if its edges are filed under the numbers of
their channels, and no node writes an edge twice.** -/
theorem exists_partitioned_iff (htidy : g.Tidy) (hcons : g.consistent? = .ok true)
    (hacyclic : g.Acyclic) (t : Supply) :
    (∃ p t', Yields g.partition t p t' ∧ ∃ copy home, g.Partitioned p copy home) ↔
      (∀ i e, g.edge? i = some e → e.source ≠ none ∨ e.target ≠ none → e.channel.ident = i) ∧
        ∀ k m, g.node? k = some m → m.outputs.Nodup := by
  constructor
  · rintro ⟨p, t', hy, copy, home, h⟩
    have hwritten := written_of_partition hy
    refine ⟨fun i e he hend => h.named hcons hwritten he hend, fun k m hm => ?_⟩
    obtain ⟨q, hq, hnumber⟩ := List.mem_map.1 (h.home_mem k m hm)
    have hnode : q.2.node? (copy k) = some { m with id := copy k } :=
      (h.node q hq _ _).2 ⟨k, m, hm, hnumber.symm, rfl, rfl⟩
    show ({ m with id := copy k } : Node).outputs.Nodup
    exact (hwritten q hq).nodup (copy k) _ hnode
  · rintro ⟨hnamed, hnodup⟩
    have hg : g.Cuttable := ⟨htidy, hcons, hacyclic, hnamed, hnodup⟩
    obtain ⟨c', copy, home, hsteps, hend, h⟩ := (cutting_start hg t).exists_steps hg
    exact ⟨c'.partition, c'.supply, yields_partition.2 ⟨c', hsteps, hend, rfl, rfl⟩, copy, home,
      h.partitioned hg hend⟩

def tool (id : Int) (inputs outputs : List Int) : Node where
  id := id
  invocation := { command := "tool", streaming := inputs, outputs := outputs }

/-- Streams part behind the first node, and meet in the last. -/
def diamond : Graph where
  nodes :=
    ⟨[(0, tool 0 [] [0, 1]), (1, tool 1 [0] [2]), (2, tool 2 [1] [3]), (3, tool 3 [2, 3] [4])]⟩
  edges := ⟨[(0, ⟨{ ident := 0 }, some 0, some 1⟩), (1, ⟨{ ident := 1 }, some 0, some 2⟩),
    (2, ⟨{ ident := 2 }, some 1, some 3⟩), (3, ⟨{ ident := 3 }, some 2, some 3⟩),
    (4, ⟨{ ident := 4 }, some 3, none⟩)]⟩

theorem exists_partitioned_diamond : diamond.Tidy ∧ diamond.consistent? = .ok true ∧
    diamond.Acyclic ∧ ∃ p t', Yields diamond.partition { nextNode := 4 } p t' ∧
    ∃ copy home, diamond.Partitioned p copy home := by
  have htidy : diamond.Tidy := ⟨by decide, by decide⟩
  have hcons : diamond.consistent? = .ok true := by decide
  have hacyclic : diamond.Acyclic := by
    refine acyclic_of_lt ?_
    rintro k k' ⟨i, hsource, htarget⟩
    simp only [view, edge?, diamond, Table.get?, Table.lookup] at hsource htarget
    grind
  refine ⟨htidy, hcons, hacyclic, (exists_partitioned_iff htidy hcons hacyclic _).2 ⟨?_, ?_⟩⟩
  · intro i e he _
    simp only [edge?, diamond, Table.get?, Table.lookup] at he
    grind
  · intro k m hm
    have hall : ∀ entry ∈ diamond.nodes.entries, entry.2.outputs.Nodup := by decide
    exact hall (k, m) (Table.mem_entries_of_get? hm)

/-- The first node writes one edge twice. -/
def doubled : Graph where
  nodes := ⟨[(0, tool 0 [] [0, 0]), (1, tool 1 [0] [1])]⟩
  edges := ⟨[(0, ⟨{ ident := 0 }, some 0, some 1⟩), (1, ⟨{ ident := 1 }, some 1, none⟩)]⟩

/-- Its copy cannot join a piece. -/
theorem partition_doubled_broken : doubled.Tidy ∧ doubled.consistent? = .ok true ∧ doubled.Acyclic ∧
    (doubled.partition.outcome { nextNode := 2 }).1 = .error .broken := by
  refine ⟨⟨by decide, by decide⟩, by decide, acyclic_of_lt ?_, ?_⟩
  · rintro k k' ⟨i, hsource, htarget⟩
    simp only [view, edge?, doubled, Table.get?, Table.lookup] at hsource htarget
    grind
  · show ((doubled.cut _ _ _ _).outcome _).1 = _
    rw [cut.eq_def]
    exact map_eq_error (f := fun _ => ()) |>.1 (by decide +kernel)

end Graph

end ShellFlow
