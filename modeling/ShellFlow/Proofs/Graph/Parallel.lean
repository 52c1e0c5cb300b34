import ShellFlow.Proofs.Graph.Division
import ShellFlow.Proofs.Graph.Soundness

/-!
# A division keeps the streams

Whichever way a node is divided, what it reads is cut into pieces, or is there in pieces already;
the pieces go through copies of it, and what the copies make is put together.  That is what the node
made, so the streams stay the same.
-/

namespace ShellFlow

open List
open ShellFlow.Graph (freshIds length_freshIds nodup_freshIds Layout)

variable {S : Type} {p : Parallelizer}

namespace Interpretation

variable (I : Interpretation S) {w m : Node} {k : Nat}

/-- What is made of a stream that is split. -/
def cut (p : Parallelizer) (k : Nat) (x : S) : List S :=
  match p.splitter with
  | .roundRobin => I.split k x
  | .roundRobinRaw => I.rawSplit k x
  | _ => I.chunk k x

def copy (w : Node) (p : Parallelizer) : S → S :=
  if p.splitter = .roundRobin then I.wrap (I.single w) else I.mapper w.id

/-- What is made of the outputs of all copies of a node. -/
def close (w : Node) (p : Parallelizer) (xs : List S) : S :=
  if p.splitter = .roundRobin then I.merge xs else I.combine w p xs

variable {I}

theorem length_cut (k : Nat) (x : S) : (I.cut p k x).length = k := by
  unfold cut
  split
  · exact I.length_split k x
  · exact I.length_rawSplit k x
  · exact I.length_chunk k x

theorem part_of_splits (h : Graph.Splits p m) (x : S) :
    I.part w m [x] = I.cut p m.outputs.length x := by
  unfold Graph.Splits at h
  unfold cut
  split
  · next hsplitter =>
    rw [hsplitter] at h
    simp [part, h.1, h.2]
  · next hsplitter =>
    rw [hsplitter] at h
    simp [part, h.1, h.2]
  · split at h
    · contradiction
    · contradiction
    · simp [part, show m.kind = .split from h]

theorem part_of_isCopy (h : Graph.IsCopy p w.invocation m) (x : S) :
    I.part w m [x] = [I.copy w p x] := by
  unfold Graph.IsCopy at h
  unfold copy
  split at h
  · next hsplitter =>
    obtain ⟨⟨name, hkind⟩, -⟩ := h
    simp [part, hsplitter, hkind]
  · next hsplitter => simp [part, hsplitter, h.1, h.2]

theorem part_of_isBack (h : Graph.IsBack p w.invocation m) (hextra : p.extra = 0)
    (hbinary : p.aggregator ≠ .binary) (xs : List S) : I.part w m xs = [I.close w p xs] := by
  unfold Graph.IsBack at h
  unfold close combine
  split at h
  · next hsplitter => rw [if_pos hsplitter, part_merge h.1]
  · next hsplitter =>
    rw [if_neg hsplitter, part_gather h.1 (h.2 hextra)]
    split
    · contradiction
    · rfl

/-- What the copies make of the pieces, put together, is what the node makes. -/
theorem Supports.close_cut (h : I.Supports k w p)
    (hsplitter : ∀ name, p.splitter ≠ .other name) (x : S) :
    I.close w p ((I.cut p k x).map (I.copy w p)) = I.single w x := by
  cases heq : p.splitter with
  | roundRobin =>
    obtain ⟨hsplit, hwrap⟩ := h.roundRobin heq
    simp only [close, copy, cut, heq, if_true]
    rw [hwrap _ (I.length_split k x), hsplit]
  | roundRobinRaw => simpa [close, copy, cut, heq] using (h.roundRobinRaw heq).1 x
  | consecutive => simpa [close, copy, cut, heq] using h.consecutive heq x
  | other name => exact absurd heq (hsplitter name)

end Interpretation

namespace Division

variable {D : Division S} {g g' : Graph} {s s' : ChannelSource} {t t' : Supply} {n m : Node}
  {L : Layout}
  {P : Node → Prop} {ns : List Node} {ws : List (List Int × List Int)} {outs : List Int}
    {count k next : Int}

/-- What the node reads, in terms of the streams that are left once it is taken out. -/
def value (D : Division S) (L : Layout) (σ : Int → S) : S :=
  L.fused.elim (σ L.input) fun m => D.interp.merge (m.inputs.map σ)

/-- The copies are put in: what they write, put together, is what the node made. -/
structure Copied (D : Division S) (n : Node) (p : Parallelizer) (L : Layout)
    (first fresh next : Int) (ns : List Node) (outs : List Int) (count : Int) : Prop where
  wired : Wired (fun _ => True) first ns (L.front ++ copies L.pieces L.groups) count
  groups : L.groups = outs.map ([·])
  causal : Causal (L.front ++ copies L.pieces L.groups)
  reads (i : Int) : i ∈ reads (L.front ++ copies L.pieces L.groups) → i < next
  writes (i : Int) : i ∈ writes (L.front ++ copies L.pieces L.groups) → fresh ≤ i
  length (m : Node) : m ∈ ns → ∀ xs, xs.length = m.inputs.length →
    (D.behaviour m xs).length = m.outputs.length
  value (σ : Int → S) : (∀ m ∈ ns, m.Holds D.behaviour σ) →
    D.interp.single n (D.value L σ) = D.interp.close n p (outs.map σ)

theorem groups_singletons (hgroups : L.groups = Graph.groupIds next (p.extra + 1).toNat D.fanOut)
    (hextra : p.extra = 0) : L.groups = (freshIds next D.fanOut).map ([·]) := by
  rw [hgroups, hextra]
  exact Graph.groupIds_one _ _

/-- A tree of calls puts the outputs of the copies together by twos. -/
theorem value_tree {root : Int}
    (hassoc : ∀ a b c, D.interp.gather n.id [D.interp.gather n.id [a, b], c] =
      D.interp.gather n.id [a, D.interp.gather n.id [b, c]])
    (hJ : ∀ m ∈ ns, ∀ xs, D.behaviour m xs = [D.interp.gather n.id xs])
    {first last : Int}
    (hchain : Chain 1 first (outs.map ([·])) (ns.map fun m => (m.inputs, m.outputs)) last [[root]])
    {σ : Int → S} (hholds : ∀ m ∈ ns, m.Holds D.behaviour σ) :
    σ root = foldFirst (fun a b => D.interp.gather n.id [a, b]) (D.interp.gather n.id [])
    (outs.map σ) := by
  have hcomputes : Computes (fun a b => D.interp.gather n.id [a, b]) (fun ids => σ (ids.headD 0)) 1
      (ns.map fun m => (m.inputs, m.outputs)) := by
    intro a b c hmem ha hb
    obtain ⟨m, hm, heq⟩ := mem_map.1 hmem
    obtain ⟨hin, hout⟩ := Prod.mk.inj heq
    obtain ⟨a, rfl⟩ := length_eq_one_iff.1 ha
    obtain ⟨b, rfl⟩ := length_eq_one_iff.1 hb
    have hholds := hholds m hm
    rw [Node.Holds, hJ m hm, hin, hout] at hholds
    obtain _ | ⟨c, _ | ⟨_, _⟩⟩ := c
    · simp at hholds
    · simpa using hholds.symm
    · simp at hholds
  have hvalue := hchain.value_eq hassoc hcomputes (D.interp.gather n.id [])
  simpa [Function.comp_def, foldFirst] using hvalue

section

variable (hs : D.Starts g.view n t.nextNode s.next)
include hs

theorem Starts.operandsBelow : g.OperandsBelow n p s.next := fun _ hm i hi =>
  hs.sound.inputs_lt hm.2.1 i (((hs.tame _ _ hm.2.1).fit hm.ends_division).2 i hi)

variable (hL : L.Describes n p D.fanOut g s t g' s' t')
include hL

/-- The node that is taken out, too, is the end of a division with tags. -/
theorem Starts.fused (hfused : L.fused = some m) : g.view.node m.id = some m ∧ L.input ∈ m.outputs ∧
    m.kind = .merge ∧ p.splitter ≠ .consecutive ∧ D.Rejoins m := by
  obtain ⟨⟨i, hi, hsource⟩, hm, hends⟩ := (hL.fused m).1 hfused
  obtain rfl : i = L.input := by simpa [hL.inputs] using hi
  obtain ⟨m', hm', hmem⟩ := (hs.sound.source _ _).1 hsource
  obtain rfl := Option.mem_unique hm hm'
  have htame := hs.tame m.id m hm
  split at hends
  · exact absurd hends htame.name
  · next hsplitter => exact ⟨hm, hmem, hends, hsplitter, htame.rejoins hends⟩

theorem Starts.fused_fit (m : Node) (hfused : L.fused = some m) : m.OperandsFit :=
  (hs.tame _ _ (hs.fused hL hfused).1).fit

theorem Starts.output_lt : L.output < s.next :=
    hs.sound.outputs_lt hs.node L.output (by simp [hL.outputs])

/-- Once the nodes are taken out, it is known what must flow on the edge that nobody writes. -/
theorem Starts.same_base : SameStreams D.seen (g.view.Runs D.behaviour) fun σ =>
    (L.base g.view n).Runs D.behaviour σ ∧ σ L.output = D.interp.single n (D.value L σ) := by
  unfold Layout.base value
  cases hfused : L.fused with
  | none => exact .of_iff (hs.runs_remove hL.inputs hL.outputs)
  | some m =>
    obtain ⟨hm, hx, hkind, -⟩ := hs.fused hL hfused
    exact hs.fuse hL.inputs hL.outputs hm (hL.other m hfused) hx hkind

theorem Starts.value_congr {σ τ : Int → S} (h : ∀ i, i < s.next → τ i = σ i) :
    D.value L τ = D.value L σ := by
  unfold value
  cases hfused : L.fused with
  | none => exact h _ (hs.sound.inputs_lt hs.node _ (by simp [hL.inputs]))
  | some =>
    have hm := (hs.fused hL hfused).1
    exact congrArg D.interp.merge (map_congr_left fun i hi => h i (hs.sound.inputs_lt hm i hi))

theorem Starts.length_pieces : L.pieces.length = D.fanOut := by
  obtain ⟨next, hfront, -⟩ := hL.exists_ranges
  rw [hfront.length, Layout.supply]
  cases hfused : L.fused with
  | none => exact Nat.min_self _
  | some =>
    have hrejoins := (hs.fused hL hfused).2.2.2.2
    simp [hrejoins.operands, hrejoins.length]

/-- Parts are put in.  The condition on the edge that nobody writes may be traded for one that is
the same once the parts have run. -/
theorem Starts.same_parts {rest : List (List Int × List Int)} {Q : (Int → S) → Prop}
    (hwired : Wired P t.nextNode ns ws count) (hws : L.wires = ws ++ rest) (hcausal : Causal ws)
    (hnew : ∀ i ∈ writes ws, s.next ≤ i)
    (hlen : ∀ m ∈ ns, ∀ xs, xs.length = m.inputs.length →
      (D.behaviour m xs).length = m.outputs.length)
    (hQ : ∀ σ, (∀ m ∈ ns, m.Holds D.behaviour σ) →
      (σ L.output = D.interp.single n (D.value L σ) ↔ Q σ)) :
    SameStreams D.seen (g.view.Runs D.behaviour) fun σ =>
      (ns.foldl View.add (L.base g.view n)).Runs D.behaviour σ ∧ Q σ := by
  have hout := hs.output_lt hL
  have hnodup := hL.nodup_writes hout
  rw [hws, writes_append] at hnodup
  refine (hs.same_base hL).trans
    (hwired.sameStreams (hL.base_sound hs.sound hs.node) hcausal (nodup_append.1 hnodup).1
    hnew hlen hs.seen_lt (fun σ τ heq hσ => ?_) hQ)
  rwa [heq _ hout, hs.value_congr hL heq]

section

variable (hsupports : D.interp.Supports D.fanOut n p) (hsplitter : ∀ name, p.splitter ≠ .other name)
include hsupports hsplitter

/-- The pieces are such that the copies make of them what the node makes. -/
theorem Starts.front (hwired : Wired (Graph.IsFront p L.fused) t.nextNode ns L.front count) :
    (∀ m ∈ ns, ∀ xs, xs.length = m.inputs.length → (D.behaviour m xs).length = m.outputs.length) ∧
    ∀ σ, (∀ m ∈ ns, m.Holds D.behaviour σ) →
      D.interp.close n p ((L.pieces.map σ).map (D.interp.copy n p)) =
        D.interp.single n (D.value L σ) := by
  have hpart := fun m hm => hs.part m (hwired.forall_mem m hm).2
  have hkinds := fun m hm => (hwired.forall_mem m hm).1.2
  obtain ⟨ins, next, hfront, hpieces, -⟩ := hL.front
  generalize hops : L.fused.map (·.invocation.operands) = ops at hfront
  generalize L.front = ws at hfront hwired
  cases hfront with
  | split =>
    have hnone := Option.map_eq_none_iff.1 hops
    rw [Graph.map_take_edge, take_of_length_le (by simp)] at hpieces
    have hpieces := (List.map_inj_right fun _ _ => Option.some.inj).1 hpieces
    obtain ⟨m, rfl, heq⟩ := map_eq_singleton_iff.1 hwired.map_eq
    obtain ⟨hin, hout⟩ := Prod.mk.inj heq
    have hsplits := hkinds m mem_cons_self
    rw [if_pos hnone] at hsplits
    have hlen : m.outputs.length = D.fanOut := by rw [hout, length_freshIds]
    have hcut : ∀ x, D.behaviour m [x] = D.interp.cut p D.fanOut x := fun x => by
      rw [hpart m mem_cons_self, Interpretation.part_of_splits hsplits, hlen]
    refine ⟨forall_mem_singleton.2 fun xs hxs => ?_, fun σ hholds => ?_⟩
    · rw [hin] at hxs
      obtain ⟨x, rfl⟩ := length_eq_one_iff.1 hxs
      rw [hcut, Interpretation.length_cut, hlen]
    · have hm := hholds m mem_cons_self
      rw [Node.Holds, hin, map_singleton, hcut, hout, hpieces] at hm
      rw [← hm, hsupports.close_cut hsplitter, value, hnone]
      rfl
  | kept _ hraw =>
    obtain ⟨m, hfused, rfl⟩ := Option.map_eq_some_iff.1 hops
    obtain ⟨-, -, -, hconsecutive, hrejoins⟩ := hs.fused hL hfused
    have htags : p.splitter = .roundRobin := by
      cases heq : p.splitter <;> simp_all
    rw [hrejoins.operands, Graph.map_take_edge,
      take_of_length_le (Nat.le_of_eq hrejoins.length)] at hpieces
    have hpieces := (List.map_inj_right fun _ _ => Option.some.inj).1 hpieces
    cases hwired
    refine ⟨by simp, fun σ _ => ?_⟩
    rw [Interpretation.close, Interpretation.copy, if_pos htags, if_pos htags, ← hpieces,
      (hsupports.roundRobin htags).2 _ (by simp [hrejoins.length]), value, hfused]
    rfl
  | @untagged _ us hraw hus =>
    obtain ⟨m, hfused, rfl⟩ := Option.map_eq_some_iff.1 hops
    have hrejoins := (hs.fused hL hfused).2.2.2.2
    have hcount : m.invocation.operands.length = D.fanOut := by
      simp [hrejoins.operands, hrejoins.length]
    rw [hcount, Graph.map_take_edge, take_of_length_le (by simp)] at hpieces
    have hpieces := (List.map_inj_right fun _ _ => Option.some.inj).1 hpieces
    obtain rfl : m.inputs = us := by
      rw [hrejoins.operands, map_map] at hus
      exact (List.map_inj_right fun _ _ => Option.some.inj).1 hus
    have htags : p.splitter ≠ .roundRobin := by simp [hraw]
    have hunwrap : ∀ m' ∈ ns, ∀ x, D.behaviour m' [x] = [D.interp.unwrap x] := fun m' hm' x => by
      have hkind := hkinds m' hm'
      rw [hfused, if_neg (by simp)] at hkind
      simp [hpart m' hm', Interpretation.part, hkind]
    refine ⟨hwired.length_copies hunwrap, fun σ hholds => ?_⟩
    have hmap := hwired.map_copies hunwrap (by simp [hrejoins.length, hcount]) hholds
    rw [hcount] at hmap
    rw [Interpretation.close, Interpretation.copy, if_neg htags, if_neg htags, ← hpieces, hmap,
      (hsupports.roundRobinRaw hraw).2 _ (by simp [hrejoins.length]), value, hfused]
    rfl

theorem Starts.copied {ns₁ ns₂ : List Node} {c₁ c₂ : Int} (hextra : p.extra = 0)
    (hfront : Wired (Graph.IsFront p L.fused) t.nextNode ns₁ L.front c₁)
    (hcopies : Wired (fun m => m.Placed ∧ Graph.IsCopy p n.invocation m) c₁ ns₂
      (copies L.pieces L.groups) c₂)
    (hrange : L.FrontRange p D.fanOut s.next next)
    (hgroups : L.groups = Graph.groupIds next (p.extra + 1).toNat D.fanOut) :
    D.Copied n p L t.nextNode s.next next (ns₁ ++ ns₂) (freshIds next D.fanOut) c₂ := by
  obtain ⟨hcausal, hreads, hwrites⟩ := Layout.Describes.causal_pieces hgroups hrange fun i =>
    hL.used_lt hs.sound hs.operandsBelow hs.node
  have hsingle := groups_singletons hgroups hextra
  have hcopy : ∀ m ∈ ns₂, ∀ x, D.behaviour m [x] = [D.interp.copy n p x] := by
    intro m hm x
    obtain ⟨⟨-, hm'⟩, hid⟩ := hcopies.forall_mem m hm
    rw [hs.part m (Int.le_trans hfront.count_le hid), Interpretation.part_of_isCopy hm']
  have hwired := (hfront.imp fun _ _ => trivial).append (hcopies.imp fun _ _ => trivial)
  rw [hsingle] at hcopies
  obtain ⟨hlen, hpieces⟩ := hs.front hL hsupports hsplitter hfront
  refine ⟨hwired, hsingle, hcausal, hreads, hwrites,
    forall_mem_append.2 ⟨hlen, hcopies.length_copies hcopy⟩,
    fun σ hholds => ?_⟩
  rw [forall_mem_append] at hholds
  rw [hcopies.map_copies hcopy (by simp [hs.length_pieces hL]) hholds.2, hpieces σ hholds.1]

end

variable (hc : D.Copied n p L t.nextNode s.next next ns outs count) (hextra : p.extra = 0)
include hc hextra

/-- One node reads all that the copies write. -/
theorem Starts.same_one (hbinary : p.aggregator ≠ .binary) (hid : count ≤ m.id)
    (hin : m.inputs = outs) (hout : m.outputs = [L.output]) (hm : Graph.IsBack p n.invocation m) :
    SameStreams D.seen (g.view.Runs D.behaviour)
    (((ns ++ [m]).foldl View.add (L.base g.view n)).Runs D.behaviour) := by
  have hbase := hL.base_sound hs.sound hs.node
  have hall := hc.wired.append (.single hid rfl hin hout trivial)
  have hholds : ∀ σ, m.Holds D.behaviour σ ↔ σ L.output = D.interp.close n p (outs.map σ) :=
    fun σ => by
    rw [Node.Holds, hin, hout, map_singleton, hs.part m (Int.le_trans hc.wired.count_le hid),
      Interpretation.part_of_isBack hm hextra hbinary, singleton_inj, eq_comm]
  refine (hs.same_parts hL hc.wired rfl hc.causal hc.writes hc.length fun σ hσ => by
    rw [hc.value σ hσ, ← hholds]).trans (.of_iff fun σ => ?_)
  rw [hall.runs_foldl fun k hk => hbase.node_of_le hk,
    hc.wired.runs_foldl fun k hk => hbase.node_of_le hk]
  simp only [forall_mem_append, forall_mem_singleton, and_assoc]

/-- A tree of nodes puts together what the copies write, and the last one writes the missing edge.
-/
theorem Starts.same_tree {root first last : Int} {ns' : List Node}
    (hsupports : D.interp.Supports D.fanOut n p) (htags : p.splitter ≠ .roundRobin)
    (hbinary : p.aggregator = .binary)
    (hback : Wired (fun m => m.Placed ∧ Graph.IsBack p n.invocation m) count ns' L.back t'.nextNode)
    (hcausal : Causal L.back) (hchain : Chain 1 first (outs.map ([·])) L.back last [[root]])
    (hnext : s.next ≤ next) (hwrites : ∀ i ∈ writes L.back, next ≤ i) :
    SameStreams D.seen (g.view.Runs D.behaviour) fun σ =>
      ((ns ++ ns').foldl View.add (L.base g.view n)).Runs D.behaviour σ ∧ σ L.output = σ root := by
  rw [← hback.map_eq] at hchain
  have hJ : ∀ m ∈ ns', ∀ xs, D.behaviour m xs = [D.interp.gather n.id xs] := by
    intro m hm xs
    obtain ⟨⟨-, hm⟩, hid⟩ := hback.forall_mem m hm
    rw [Graph.IsBack, if_neg htags] at hm
    rw [hs.part m (Int.le_trans hc.wired.count_le hid),
      Interpretation.part_gather hm.1 (hm.2 hextra)]
  have hlen : ∀ m ∈ ns', ∀ xs, xs.length = m.inputs.length →
      (D.behaviour m xs).length = m.outputs.length := by
    intro m hm xs _
    rw [hJ m hm, length_singleton, (hchain.calls_width _ (mem_map_of_mem hm)).2]
  refine hs.same_parts hL (hc.wired.append (hback.imp fun _ _ => trivial)) (append_nil _).symm
    (hc.causal.append hcausal
    fun i hi j hj => Int.lt_of_lt_of_le (hc.reads i hi) (hwrites j hj)) ?_
      (forall_mem_append.2 ⟨hc.length, hlen⟩)
    fun σ hσ => ?_
  · rw [writes_append]
    exact forall_mem_append.2 ⟨hc.writes, fun i hi => Int.le_trans hnext (hwrites i hi)⟩
  · rw [forall_mem_append] at hσ
    rw [hc.value σ hσ.1, Interpretation.close, if_neg htags, Interpretation.combine, hbinary,
      value_tree (hsupports.assoc htags hbinary) hJ hchain hσ.2]

omit hc

variable (hagg : p.splitter = .roundRobin → p.aggregator = .concatenate)
include hagg

/-- **What was put in makes what the node made.** -/
theorem Starts.same (hsupports : D.interp.Supports D.fanOut n p)
    (hsplitter : ∀ name, p.splitter ≠ .other name) :
    SameStreams D.seen (g.view.Runs D.behaviour) (g'.view.Runs D.behaviour) := by
  obtain ⟨v, ⟨v₁, c₁, v₂, c₂, ⟨ns₁, hfront, rfl⟩, ⟨ns₂, hcopies, rfl⟩, ns₃, hback, rfl⟩,
    hsound, hview⟩ :=
    hL.view_cases hs.sound hs.operandsBelow hs.node (hs.fused_fit hL)
  rw [← foldl_append, ← foldl_append, ← append_assoc] at hview hsound
  obtain ⟨next, hrange, hgroups, hcases⟩ := hL.exists_ranges
  have hc := hs.copied hL hsupports hsplitter hextra hfront hcopies hrange hgroups
  rw [hc.groups] at hcases
  obtain ⟨hfinal, hbinary, hone⟩ | ⟨root, _, _, hfinal, htags, hbinary, hcausal, hchain⟩ :=
    hcases.of_singletons hagg hextra
  · obtain ⟨-, hview⟩ | ⟨_, _, hsome, -⟩ := hview
    · rw [hone] at hback
      obtain ⟨m, rfl, heq⟩ := map_eq_singleton_iff.1 hback.map_eq
      obtain ⟨hin, hout⟩ := Prod.mk.inj heq
      obtain ⟨⟨-, hm⟩, hid⟩ := hback.forall_mem m mem_cons_self
      rw [hview]
      exact hs.same_one hL hc hextra hbinary hid hin hout hm
    · simp [hfinal] at hsome
  · obtain ⟨hnone, -⟩ | ⟨final, m, hsome, hm, -, -, -, hwrites, -, hunread, -, hview⟩ := hview
    · simp [hfinal] at hnone
    obtain rfl : root = final := by simpa [hfinal] using hsome
    have ho := hs.output_lt hL
    have hle := hrange.le
    have hlast : s.next ≤ root := Int.not_lt.1 fun hlt => hL.final_ne hlt hfinal
    rw [hview]
    refine (hs.same_tree hL hc hextra hsupports htags hbinary hback hcausal hchain hle fun i hi =>
      ?_).trans
      (View.redirect_sameStreams hsound hm hunread hwrites (by omega)
        (hs.replaceEdge m root L.output) fun hseen => ?_)
    · rcases hcases.mem_writes hi with rfl | hi'
      · rw [hfinal] at hcases
        exact absurd hi (hcases.output_notMem (by omega))
      · omega
    · have := hs.seen_lt root hseen
      omega

/-- What was put in may be met by later divisions. -/
theorem Starts.tame_parts {v : View} (hjoins : L.Joins n p g.view t v t') (hid : m.id = k)
    (hm : v.node k = some m) : D.Tame m := by
  obtain ⟨v₁, c₁, v₂, c₂, hfront, hcopies, hback⟩ := hjoins
  rcases hback.node_cases hm with hm | ⟨hk, ⟨-, hm⟩, hmem⟩
  · rcases hcopies.node_cases hm with hm | ⟨-, ⟨-, hm⟩, -⟩
    · rcases hfront.node_cases hm with hm | ⟨-, hm, -⟩
      · exact hs.tame k m (Layout.base_node hm).1
      · exact .of_kind_ne hm.1 hm.kind_ne
    · refine .of_kind_ne ?_ hm.kind_ne
      unfold Graph.IsCopy at hm
      split at hm
      · exact hm.2 ▸ Settings.program_ne_cat (by decide)
      · exact hm.2 ▸ (hs.tame n.id n hs.node).name
  · unfold Graph.IsBack at hm
    split at hm
    · next htags =>
      obtain ⟨hkind, hname, hoperands⟩ := hm
      obtain ⟨next, -, hgroups, hcases⟩ := hL.exists_ranges
      rw [groups_singletons hgroups hextra] at hcases
      obtain ⟨-, -, hone⟩ | ⟨_, _, _, -, hne, -⟩ := hcases.of_singletons hagg hextra
      · rw [hone, mem_singleton] at hmem
        obtain ⟨hin, hout⟩ := Prod.mk.inj hmem
        refine ⟨hname, fun _ => ⟨hoperands, by simp [hin], hin ▸ nodup_freshIds _ _,
          ⟨L.output, hout, ?_⟩, fun xs => ?_⟩⟩
        · exact hs.inner_output _ (by simp [hL.outputs])
        · have := hfront.count_le
          have := hcopies.count_le
          rw [hs.part m (by omega), Interpretation.part_merge hkind]
      · exact absurd htags hne
    · exact .of_kind_ne (hm.2 hextra ▸ aggregator_ne_cat _) (by simp [hm.1])

end

variable {batch : Option Int}

/-- **Dividing a node keeps the streams**, whichever way it is divided. -/
theorem Starts.parallelize (hs : D.Starts g.view n t.nextNode s.next)
    (hsupports : D.interp.Supports D.fanOut n p)
    (hagg : p.splitter = .roundRobin → p.aggregator = .concatenate) (hextra : p.extra = 0)
    (hpos : 1 ≤ D.fanOut) (hy : Yields (g.parallelize n.id p s D.fanOut batch) t (g', s') t') :
    D.Divided g.view n t.nextNode s.next g'.view t'.nextNode s'.next := by
  have hsplitter : ∀ name, p.splitter ≠ .other name := by
    intro name hother
    rw [Graph.parallelize, hother] at hy
    exact (yields_throw.1 hy).elim
  obtain ⟨L, hL, -⟩ := Graph.parallelize_layout hs.sound hs.operandsBelow hs.node hpos hy
  obtain ⟨v, hjoins, hsound, hview⟩ :=
    hL.view_cases hs.sound hs.operandsBelow hs.node (hs.fused_fit hL)
  have hlays := hjoins.lays
  have htame : ∀ k m, v.node k = some m → D.Tame m := fun k m hm =>
    hs.tame_parts hL hextra hagg hjoins (hsound.id_eq hm) hm
  have hkept : ∀ k m, g.view.node k = some m → k ≠ n.id → m.kind ≠ .merge →
      v.node k = some m ∧ k < t.nextNode := by
    intro k m hm hk hkind
    have hlt := hs.sound.id_lt hm
    refine ⟨?_, hlt⟩
    rw [hlays.node_of_lt hlt, Layout.base]
    cases hfused : L.fused with
    | none => exact (View.remove_node_of_ne _ hk).trans hm
    | some m' =>
      obtain ⟨hm', -, hkind', -⟩ := hs.fused hL hfused
      have hk' : k ≠ m'.id := by
        rintro rfl
        obtain rfl := Option.mem_unique hm hm'
        exact hkind hkind'
      exact (View.remove_node_of_ne _ hk').trans ((View.remove_node_of_ne _ hk).trans hm)
  obtain ⟨next, hrange, -, hcases⟩ := hL.exists_ranges
  constructor
  case sound => exact hL.sound hs.sound hs.operandsBelow hs.node (hs.fused_fit hL)
  case count_le => exact hlays.count_le
  case next_le =>
    have := hrange.le
    have := hcases.next_le
    omega
  case same => exact hs.same hL hextra hagg hsupports hsplitter
  case keeps =>
    intro k m hm hk hkind
    obtain ⟨hm, hlt⟩ := hkept k m hm hk hkind
    obtain ⟨-, hview⟩ | ⟨final, m₀, -, -, hid, -, -, -, -, -, -, hview⟩ := hview
    · rwa [hview]
    · have hne : k ≠ m₀.id := by omega
      rw [hview, View.redirect, @View.add_node_of_ne _ (m₀.replaceEdge final L.output) k hne,
        View.remove_node_of_ne _ hne, hm]
  case tame =>
    intro k m hm
    obtain ⟨-, hview⟩ | ⟨final, m₀, hfinal, hm₀, -, -, -, hwrites, -, -, -, hview⟩ := hview
    · exact htame k m (hview ▸ hm)
    · rw [hview] at hm
      rcases View.node_of_add hm with ⟨-, rfl⟩ | hm
      · -- who writes the open edge of a tree ends no division with tags
        refine ⟨(htame _ _ hm₀).name, fun hkind => ?_⟩
        obtain ⟨o, hout, ho⟩ := ((htame _ _ hm₀).rejoins hkind).outputs
        obtain rfl : final = o := by simpa [hout] using hwrites
        exact absurd hfinal (hL.final_ne (hs.inner_lt final ho))
      · exact htame k m (View.node_of_remove hm).2

end Division

end ShellFlow
