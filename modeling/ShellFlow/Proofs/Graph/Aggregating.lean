import Mathlib.Data.List.GetD
import ShellFlow.Proofs.Graph.Editing
import ShellFlow.Proofs.Graph.Insertion
import ShellFlow.Proofs.Graph.Trees

/-!
# What the nodes of a reduction tree aggregate

A reduction tree over groups of edges has one node less than there are groups, and drains the edges
of the last group but the first.  Run one after the other, its nodes leave the fold of the given
groups in the last one.
-/

namespace ShellFlow

open List
open ShellFlow.Graph (freshIds mem_freshIds nodup_freshIds length_freshIds)

/-! ### What calls compute -/

section Value

variable {V : Type} {w : Nat} {σ σ' : Int → V} {ids : List Int}
  {op : (Fin w → V) → (Fin w → V) → Fin w → V}

def valuesAt (σ : Int → V) (ids : List Int) : Fin w → V := fun k => σ (ids.getD k 0)

/-- The values of edges after calls, one after the other: each takes the values of the first and of
the second half of its inputs. -/
def runCalls (op : (Fin w → V) → (Fin w → V) → Fin w → V) (σ : Int → V) :
    List (List Int × List Int) → Int → V
  | [] => σ
  | c :: calls =>
    runCalls op (assign σ c.2 (List.ofFn (op (valuesAt σ (c.1.take w)) (valuesAt σ (c.1.drop w)))))
      calls

theorem valuesAt_congr (hlen : ids.length = w) (h : ∀ i ∈ ids, σ i = σ' i) :
    (valuesAt σ ids : Fin w → V) = valuesAt σ' ids := by
  funext k
  have hk : k.val < ids.length := hlen ▸ k.isLt
  unfold valuesAt
  rw [getD_eq_getElem _ _ hk]
  exact h _ (getElem_mem hk)

theorem valuesAt_assign {values : Fin w → V} (hlen : ids.length = w) (hnodup : ids.Nodup) :
    valuesAt (assign σ ids (List.ofFn values)) ids = values := by
  funext k
  have hk : k.val < ids.length := hlen ▸ k.isLt
  have hvalue := congrArg (·[k.val]?) (@map_assign _ σ _ (List.ofFn values) hnodup (by simp [hlen]))
  unfold valuesAt
  rw [getD_eq_getElem _ _ hk]
  simpa [hk] using hvalue

variable {next next' : Int} {groups groups' : List (List Int)} {calls : List (List Int × List Int)}

/-- Calls do not change the values of edges that were there before. -/
theorem Chain.runCalls_of_lt (h : Chain w next groups calls next' groups') {i : Int}
    (hi : i < next) : runCalls op σ calls i = σ i := by
  induction h generalizing σ with
  | nil => rfl
  | cons _ _ _ ih =>
    rw [runCalls, ih (by omega)]
    exact assign_of_notMem fun hmem => by have := (mem_freshIds.1 hmem).1; omega

/-- **Values that calls leave are computed from values that they leave.** -/
theorem Chain.computes (h : Chain w next groups calls next' groups')
    (hlt : ∀ i ∈ groups.flatten, i < next) :
    Computes op (valuesAt (runCalls op σ calls)) w calls := by
  induction h generalizing σ with
  | nil =>
    intro a b outs hmem
    cases hmem
  | @cons next _ front back _ a b calls ha hb hchain ih =>
    intro a' b' outs hmem ha' hb'
    rcases mem_cons.1 hmem with heq | hmem
    · obtain ⟨hins, rfl⟩ := Prod.mk.inj heq
      obtain ⟨rfl, rfl⟩ := append_inj hins (ha'.trans ha.symm)
      rw [runCalls]
      rw [take_left' ha, drop_left' ha]
      -- the rest of the calls leaves alone what this one reads and writes
      have hold : ∀ ids ∈ front ++ a' :: b' :: back, ids.length = w → ∀ values,
          (valuesAt (runCalls op (assign σ (freshIds next w) values) calls) ids : Fin w → V) =
            valuesAt σ ids := by
        intro ids hmem hids values
        refine valuesAt_congr hids fun i hi => ?_
        have := hlt i (mem_flatten.2 ⟨ids, hmem, hi⟩)
        rw [hchain.runCalls_of_lt (by omega)]
        exact assign_of_notMem fun hmem => by have := (mem_freshIds.1 hmem).1; omega
      rw [hold a' (by simp) ha, hold b' (by simp) hb,
        valuesAt_congr (length_freshIds _ _) fun i hi =>
          hchain.runCalls_of_lt (mem_freshIds.1 hi).2]
      exact valuesAt_assign (length_freshIds _ _) (nodup_freshIds _ _)
    · exact ih (lt_step hlt) a' b' outs hmem ha' hb'

/-- **Calls that combine all groups leave the fold of the groups in the last one.** -/
theorem Chain.valuesAt_runCalls {first root : List Int} {rest : List (List Int)}
    (h : Chain w next (first :: rest) calls next' [root])
    (hassoc : ∀ a b c, op (op a b) c = op a (op b c))
    (hwidth : ∀ ids ∈ first :: rest, ids.length = w)
    (hlt : ∀ i ∈ (first :: rest).flatten, i < next) :
    valuesAt (runCalls op σ calls) root = (rest.map (valuesAt σ)).foldl op (valuesAt σ first) := by
  have hgiven : ∀ ids ∈ first :: rest, (valuesAt (runCalls op σ calls) ids : Fin w → V) =
    valuesAt σ ids :=
    fun ids hids => valuesAt_congr (hwidth ids hids) fun i hi =>
      h.runCalls_of_lt (hlt i (mem_flatten.2 ⟨ids, hids, hi⟩))
  have hcomputes : Computes op (valuesAt (runCalls op σ calls)) w calls := h.computes hlt
  have hvalue := h.value_eq hassoc hcomputes (valuesAt σ first)
  rwa [map_congr_left hgiven] at hvalue

end Value

/-! ### The nodes of a tree -/

section MapM

variable {α β γ : Type} {f : α → Build β} {as : List α} {bs : List β} {t t' : Supply}

theorem exists_yields_mapM (h : ∀ a ∈ as, ∀ t, ∃ b t', Yields (f a) t b t') (t : Supply) :
    ∃ bs t', Yields (as.mapM f) t bs t' := by
  induction as generalizing t with
  | nil => exact ⟨[], t, yields_pure.2 ⟨rfl, rfl⟩⟩
  | cons a _ ih =>
    obtain ⟨b, t₁, hb⟩ := h a mem_cons_self t
    obtain ⟨bs, t₂, hbs⟩ := ih (fun a ha => h a (mem_cons_of_mem _ ha)) t₁
    rw [mapM_cons]
    exact ⟨b :: bs, t₂,
      yields_bind.2 ⟨b, t₁, hb, yields_bind.2 ⟨bs, t₂, hbs, yields_pure.2 ⟨rfl, rfl⟩⟩⟩⟩

theorem map_eq_of_yields_mapM {φ : β → γ} {ψ : α → γ}
    (hf : ∀ a ∈ as, ∀ t b t', Yields (f a) t b t' → φ b = ψ a)
    (h : Yields (as.mapM f) t bs t') : bs.map φ = as.map ψ := by
  induction as generalizing t bs with
  | nil =>
    obtain ⟨rfl, -⟩ := h.pure
    rfl
  | cons a _ ih =>
    rw [mapM_cons] at h
    obtain ⟨b, t₁, hb, h⟩ := h.bind
    obtain ⟨rest, t₂, hrest, h⟩ := h.bind
    obtain ⟨rfl, rfl⟩ := h.pure
    rw [map_cons, map_cons, hf a mem_cons_self _ _ _ hb,
      ih (fun a ha => hf a (mem_cons_of_mem _ ha)) hrest]

theorem length_of_yields_mapM (h : Yields (as.mapM f) t bs t') : bs.length = as.length := by
  have hmap : bs.map (fun _ => ()) = as.map fun _ => () :=
    map_eq_of_yields_mapM (fun _ _ _ _ _ _ => rfl) h
  simpa using congrArg List.length hmap

end MapM

theorem drains_resource (s : ChannelSource) (k : Nat) :
    ∀ c ∈ (drains s k).1, c.resource = some (.file (Word.ofString "/dev/null")) := by
  induction k generalizing s with
  | zero => simp [drains]
  | succ k ih => exact forall_mem_cons.2 ⟨rfl, ih _⟩

theorem Graph.exists_binaryAggregator (whole : Invocation) {w : Nat} {ins outs : List Int}
    (hin : ins.length = w + w) (hout : outs.length = w) (hpos : 0 < w) (t : Supply) :
    ∃ n t', Yields (binaryAggregator whole ins outs) t n t' := by
  unfold binaryAggregator
  split
  · exact Node.exists_yields_make _ _ t
  · obtain ⟨n, t', hmake⟩ := Node.exists_yields_make .plain (Parallelizer.gatherPair ins outs) t
    have heven : (ins.length % 2 == 0) = true := beq_iff_eq.2 (by omega)
    refine ⟨n, t', yields_bind.2 ⟨(), t, yields_require.2 ⟨heven, rfl⟩, ?_⟩⟩
    have hsome : ¬ (ins.isEmpty = true ∨ outs.isEmpty = true) := by
      rw [isEmpty_iff_length_eq_zero, isEmpty_iff_length_eq_zero]
      omega
    rw [if_neg hsome]
    exact hmake

/-- Nodes that aggregate groups of `w` edges in order, and nodes that drain the last group but for
its first edge. -/
structure Reduction.Aggregates (tree : Reduction) (w : Nat) (command : String) (first : List Int)
    (rest : List (List Int)) (calls sinks : List Node) : Prop where
  binary (n : Node) : n ∈ calls → n.invocation.command = command ∧ n.inputs.length = w + w ∧
    n.outputs.length = w
  drain (n : Node) : n ∈ sinks → n.invocation.command = "cat" ∧ ∃ i, n.inputs = [i] ∧
    ∃ c ∈ tree.pipes,
    n.outputs = [c.ident] ∧ c.resource = some (.file (Word.ofString "/dev/null"))
  pipes : tree.pipes.map (·.ident) = calls.flatMap Node.outputs ++ sinks.flatMap Node.outputs
  last : (first :: calls.map Node.outputs).getLast? = some (tree.final :: sinks.flatMap Node.inputs)
  read_once (i : Int) : i ∈ (first :: rest).flatten ++ calls.flatMap Node.outputs →
    (tree.nodes.flatMap Node.inputs).count i = if i = tree.final then 0 else 1
  value {V : Type} (op : (Fin w → V) → (Fin w → V) → Fin w → V) (σ : Int → V) :
    (∀ a b c, op (op a b) c = op a (op b c)) →
      valuesAt (runCalls op σ (calls.map fun n => (n.inputs, n.outputs)))
        (tree.final :: sinks.flatMap Node.inputs) =
        (rest.map (valuesAt σ)).foldl op (valuesAt σ first)

theorem Node.drains_edges {extra : List Int} {sinks : List (Channel Int)} {t t' : Supply}
    {ns : List Node} (hlen : extra.length = sinks.length)
    (hne : ∀ e ∈ extra, ∀ c ∈ sinks, e ≠ c.ident)
    (h : Yields ((extra.zip sinks).mapM fun e => Node.cat [e.1] e.2.ident) t ns t') :
    (∀ n ∈ ns, n.invocation.command = "cat" ∧ ∃ i, n.inputs = [i] ∧
      ∃ c ∈ sinks, n.outputs = [c.ident]) ∧ ns.flatMap Node.inputs = extra ∧
      ns.flatMap Node.outputs = sinks.map (·.ident) := by
  have hmap : ns.map (fun n => (n.invocation.command, n.inputs, n.outputs)) =
      (extra.zip sinks).map fun e => ("cat", [e.1], [e.2.ident]) := by
    refine map_eq_of_yields_mapM (fun e he t n t' hmake => ?_) h
    obtain ⟨he, hc⟩ := of_mem_zip he
    obtain ⟨rfl, -⟩ := Node.yields_make hmake
    have hedges :=
      @Invocation.ofAccess_gathering "cat" [] ([e.1].map .edge) none (some e.2.ident) _ _
      (Node.nodup_pair (hne e.1 he e.2 hc))
    exact Prod.ext rfl (Prod.ext hedges.1 hedges.2)
  have hin : ns.map Node.inputs = (extra.zip sinks).map fun e => [e.1] := by
    simpa [Function.comp_def] using congrArg (List.map (·.2.1)) hmap
  have hout : ns.map Node.outputs = (extra.zip sinks).map fun e => [e.2.ident] := by
    simpa [Function.comp_def] using congrArg (List.map (·.2.2)) hmap
  refine ⟨fun n hn => ?_, ?_, ?_⟩
  · obtain ⟨e, he, heq⟩ := mem_map.1 (hmap ▸ mem_map_of_mem hn)
    obtain ⟨hcommand, hedges⟩ := Prod.mk.inj heq
    obtain ⟨hinputs, houtputs⟩ := Prod.mk.inj hedges
    exact ⟨hcommand.symm, e.1, hinputs.symm, e.2, (of_mem_zip he).2, houtputs.symm⟩
  · rw [flatMap_def, hin, ← flatMap_def, ← map_eq_flatMap]
    exact map_fst_zip hlen.le
  · have hsnd := congrArg (List.map (·.ident)) (map_snd_zip hlen.ge)
    rw [map_map] at hsnd
    rw [flatMap_def, hout, ← flatMap_def, ← map_eq_flatMap]
    exact hsnd

section Tree

variable {whole : Invocation} {w : Nat} {s : ChannelSource} {t t₁ t' : Supply} {first : List Int}
  {rest : List (List Int)} {final : Int} {extra : List Int} {ns cats : List Node}

/-- What is given and what the calls write is different. -/
theorem Chain.nodup_written {next next' : Int} {groups groups' : List (List Int)}
    {calls : List (List Int × List Int)} (h : Chain w next groups calls next' groups')
    (hnodup : groups.flatten.Nodup) (hlt : ∀ i ∈ groups.flatten, i < next) :
    (groups.flatten ++ writes calls).Nodup := by
  obtain ⟨k, hwrites, -⟩ := h.writes_eq
  rw [hwrites, nodup_append]
  refine ⟨hnodup, nodup_freshIds _ _, ?_⟩
  rintro i hi j hj rfl
  have := hlt i hi
  have := (mem_freshIds.1 hj).1
  omega

theorem Graph.aggregates_of_yields (hwidth : ∀ ids ∈ first :: rest, ids.length = w)
    (hnodup : (first :: rest).flatten.Nodup) (hlt : ∀ i ∈ (first :: rest).flatten, i < s.next)
    (hchain : Chain w s.next (first :: rest) (reducePlan s (first :: rest)).calls
      (reducePlan s (first :: rest)).source.next [final :: extra])
    (hns : Yields ((reducePlan s (first :: rest)).calls.mapM fun c =>
      binaryAggregator whole c.1 c.2) t ns t₁)
    (hcats : Yields
      ((extra.zip (drains (reducePlan s (first :: rest)).source extra.length).1).mapM fun e =>
      Node.cat [e.1] e.2.ident) t₁ cats t') :
    Reduction.Aggregates ⟨ns ++ cats, (reducePlan s (first :: rest)).pipes ++
      (drains (reducePlan s (first :: rest)).source extra.length).1, final,
      (drains (reducePlan s (first :: rest)).source extra.length).2⟩ w
      (if w = 1 then "agg-" ++ whole.command else "agg2") first rest ns cats := by
  have hpipes : (reducePlan s (first :: rest)).pipes.map (·.ident) =
      writes (reducePlan s (first :: rest)).calls := by
    obtain ⟨k, hwrites, hnext⟩ := hchain.writes_eq
    have hfresh := fresh_reducePlan s (first :: rest)
    have := hfresh.next
    rw [hfresh.idents, hwrites, show (reducePlan s (first :: rest)).pipes.length = k by omega]
  generalize (reducePlan s (first :: rest)).calls = calls at *
  have hwired := hchain.wired_mapM
    (P := fun n => n.invocation.command = if w = 1 then "agg-" ++ whole.command else "agg2")
      hnodup hlt
    (fun c hc hown => (makes_binaryAggregator_command whole hown).mono fun n hn => by
      rw [hn.2, (hchain.calls_width c hc).2]) hns
  have hcommand := fun n hn => (hwired.forall_mem n hn).1
  have hcalls := hwired.map_eq
  have hident := (drains_spec (reducePlan s (first :: rest)).source extra.length).1
  have hresource := drains_resource (reducePlan s (first :: rest)).source extra.length
  generalize (drains (reducePlan s (first :: rest)).source extra.length).1 = sinks at *
  have hlen : extra.length = sinks.length := by simpa using (congrArg List.length hident).symm
  obtain ⟨hdrain, hread, hwritten⟩ := Node.drains_edges hlen (fun e he c hc heq => by
    have hmem : c.ident ∈ sinks.map (·.ident) := mem_map_of_mem hc
    rw [hident] at hmem
    have := hchain.edges_lt hlt e (by simp [he])
    have := (mem_freshIds.1 hmem).1
    omega) hcats
  have hreads : ns.flatMap Node.inputs = reads calls := by
    rw [← hcalls, reads, flatMap_map]
  have hwrites : ns.flatMap Node.outputs = writes calls := by
    rw [← hcalls, writes, flatMap_map]
  refine ⟨fun n hn => ?_, fun n hn => ?_, ?_, ?_, fun i hi => ?_, fun op σ hassoc => ?_⟩
  · have hmem : (n.inputs, n.outputs) ∈ calls :=
      hcalls ▸ mem_map_of_mem (f := fun n => (n.inputs, n.outputs)) hn
    exact ⟨hcommand n hn, hchain.calls_width _ hmem⟩
  · obtain ⟨hcat, i, hinputs, c, hc, houtputs⟩ := hdrain n hn
    exact ⟨hcat, i, hinputs, c, mem_append_right _ hc, houtputs, hresource c hc⟩
  · rw [map_append, hpipes, hwrites, hwritten]
  · have houtputs : ns.map Node.outputs = calls.map (·.2) := by
      rw [← hcalls, map_map]
      rfl
    rw [hread, houtputs]
    rcases hchain.last with ⟨rfl, heq⟩ | hlast
    · rw [(List.cons.inj heq).1]
      rfl
    · rw [getLast?_cons, hlast]
      rfl
  · rw [hwrites] at hi
    have hperm := hchain.perm.count_eq i
    rw [count_eq_one_of_mem (hchain.nodup_written hnodup hlt) hi, flatten_singleton, count_append,
      count_cons] at hperm
    rw [flatMap_append, hreads, hread, count_append]
    by_cases hfinal : i = final
    · subst hfinal
      rw [beq_self_eq_true, if_pos rfl] at hperm
      rw [if_pos rfl]
      omega
    · rw [if_neg (by simpa using Ne.symm hfinal)] at hperm
      rw [if_neg hfinal]
      omega
  · rw [hcalls, hread]
    exact hchain.valuesAt_runCalls hassoc hwidth hlt

/-- **A reduction tree aggregates in order and reads everything once.**  Over groups of one width
there is always a tree, with one binary node less than there are groups, and a drain for each edge
that comes with the last main output.  If the given edges are different and have been numbered,
every given or generated edge is read once but for that output.  For every associative operation the
last group holds the fold of the given ones from the left. -/
theorem Graph.reduceTree_aggregates (whole : Invocation) {m : Nat} (s : ChannelSource) (t : Supply)
    (hwidth : ∀ ids ∈ first :: rest, ids.length = m + 1) :
    ∃ tree t' calls sinks, Yields (reduceTree (binaryAggregator whole) (first :: rest) s)
      t tree t' ∧ tree.nodes = calls ++ sinks ∧ calls.length = rest.length ∧ sinks.length = m ∧
      ((first :: rest).flatten.Nodup → (∀ i ∈ (first :: rest).flatten, i < s.next) →
        tree.Aggregates (m + 1) (if m = 0 then "agg-" ++ whole.command else "agg2") first rest calls
          sinks) := by
  obtain ⟨root, hgroups, hroot, hchain⟩ :=
    reducePlan_chain (s := s) (List.cons_ne_nil first rest) hwidth
  obtain ⟨final, extra, rfl⟩ := List.exists_cons_of_length_eq_add_one hroot
  have hextra : extra.length = m := Nat.succ.inj hroot
  have hsinks :=
    congrArg List.length (drains_spec (reducePlan s (first :: rest)).source extra.length).1
  rw [List.length_map, length_freshIds] at hsinks
  obtain ⟨calls, t₁, hcalls⟩ := exists_yields_mapM (f := fun c => binaryAggregator whole c.1 c.2)
    (fun c hc => exists_binaryAggregator whole (hchain.calls_width c hc).1
      (hchain.calls_width c hc).2
      (Nat.succ_pos m)) t
  obtain ⟨cats, t', hcats⟩ := @exists_yields_mapM _ _ _
    (extra.zip (drains (reducePlan s (first :: rest)).source extra.length).1)
    (fun e _ => Node.exists_yields_make .plain _) t₁
  refine ⟨_, t', calls, cats, (yields_reduceTree hgroups).2 ⟨calls, t₁, cats, hcalls, hcats, rfl⟩,
    rfl, ?_, ?_,
    fun hnodup hlt => by simpa using aggregates_of_yields hwidth hnodup hlt hchain hcalls hcats⟩
  · rw [length_of_yields_mapM hcalls]
    exact Nat.succ.inj hchain.length_eq
  · rw [length_of_yields_mapM hcats, List.length_zip, hsinks, Nat.min_self, hextra]

theorem Graph.reduceTree_aggregates_pairs :
    (∀ ids ∈ [[0, 1], [2, 3], [4, 5]], (ids : List Int).length = 1 + 1) ∧
      ∃ tree t' calls sinks,
        Yields (reduceTree (binaryAggregator { command := "sort" }) [[0, 1], [2, 3], [4, 5]]
        { next := 6, dir := "tmp" }) { nextNode := 3 } tree t' ∧ calls.length = 2 ∧
          sinks.length = 1 ∧
        tree.Aggregates 2 "agg2" [0, 1] [[2, 3], [4, 5]] calls sinks := by
  have hwidth : ∀ ids ∈ [[0, 1], [2, 3], [4, 5]], (ids : List Int).length = 1 + 1 := by decide
  obtain ⟨tree, t', calls, sinks, htree, -, hcalls, hsinks, haggregates⟩ :=
    reduceTree_aggregates { command := "sort" } { next := 6, dir := "tmp" } { nextNode := 3 } hwidth
  exact ⟨hwidth, tree, t', calls, sinks, htree, hcalls, hsinks, haggregates (by decide) (by decide)⟩

end Tree

end ShellFlow
