import ShellFlow.Graph.Join
import ShellFlow.Proofs.Graph.Edits

/-!
# Graphs that can be run

A graph is valid if it has a node, edges and nodes agree, and in the background no edge is standard
input.  Edges and nodes agree as soon as the view of the graph is sound and no number is used twice.
The rest is kept by edits: they use no number twice, and the channels that they add are no standard
input.
-/

namespace ShellFlow

open List

/-! ### Kinds of channels -/

/-- A value is not both zero and one. -/
theorem Value.sameInt_one_of_zero {v : Value} (h : v.sameInt 0) : v.sameInt 1 = false := by
  cases v with
  | bool b => cases b <;> simp_all [Value.sameInt]
  | int n =>
    obtain rfl : 0 = n := by simpa [Value.sameInt] using h
    rfl
  | decimal d =>
    cases d with
    | finite s a m =>
      have hzero : Decimal.signed s a = 0 := by simpa [Value.sameInt, Decimal.sameInt] using h
      have hpos : (0 : Int) < Decimal.powerOfTen m := by
        exact_mod_cast Nat.pow_pos (n := m) (show 0 < 10 by decide)
      show decide (Decimal.signed s a = 1 * (Decimal.powerOfTen m : Int)) = false
      rw [hzero, decide_eq_false_iff_not]
      omega
    | infinite => cases h
    | undefined => cases h
  | _ => rfl

theorem Channel.isStdout_of_isStdin {c : Channel Int} (h : c.isStdin) : c.isStdout = false := by
  obtain ⟨r, hr, hstdin⟩ : ∃ r, c.resource = some r ∧ r.isStdin = true := by
    simpa [Channel.isStdin, Option.any_eq_true] using h
  rw [Channel.isStdout, hr, Option.any_some]
  cases r with
  | descriptor => exact Value.sameInt_one_of_zero hstdin
  | _ => rfl

/-- Two edges stand for the same file. -/
def Edge.SharesFile (e d : Edge) : Prop :=
  ∃ r r', e.channel.resource = some r ∧ d.channel.resource = some r' ∧ Resource.sameFile r r'

theorem Edge.SharesFile.isFile {e d : Edge} (h : e.SharesFile d) :
    e.channel.isFile ∧ d.channel.isFile := by
  obtain ⟨r, r', hr, hr', hsame⟩ := h
  rw [Channel.isFile, Channel.isFile, hr, hr']
  cases r <;> cases r' <;> first | cases hsame | exact ⟨rfl, rfl⟩

theorem Edge.not_sharesFile {e : Edge} (h : e.channel.isFile = false) (d : Edge) :
    ¬ e.SharesFile d ∧ ¬ d.SharesFile e := by
  constructor
  · intro hshares
    rw [hshares.isFile.1] at h
    cases h
  · intro hshares
    rw [hshares.isFile.2] at h
    cases h

namespace Graph

variable {next next' : Int} {g g' : Graph} {found found' : Option Int}

/-! ### Agreement of edges and nodes -/

theorem allM_of_forall {α : Type} {p : α → Except Fault Bool} {as : List α}
    (h : ∀ a ∈ as, p a = .ok true) : allM p as = .ok true := by
  induction as with
  | nil => rfl
  | cons _ _ ih =>
    obtain ⟨ha, has⟩ := forall_mem_cons.1 h
    exact bind_eq_ok.2 ⟨true, ha, ih has⟩

theorem endListed_of_forall {stop : Option Int} {edges : Node → List Int} {i : Int}
    (h : ∀ k, stop = some k → ∃ m, g.node? k = some m ∧ i ∈ edges m) :
    g.endListed stop edges i = .ok true := by
  cases stop with
  | none => rfl
  | some k =>
    obtain ⟨m, hm, hi⟩ := h k rfl
    exact bind_eq_ok.2 ⟨m, node_eq_ok.2 hm, pure_eq_ok.2 (by simpa using hi)⟩

/-- **Edges and nodes agree** if the ends of the edges are where the nodes say and no number is used
twice. -/
theorem consistent_of_listed (htidy : g.Tidy) (hsource : Listed g.node? Node.outputs g.view.source)
    (htarget : Listed g.node? Node.inputs g.view.target) : g.consistent? = .ok true := by
  have hedges : allM g.edgeAgrees g.edges.entries = .ok true := by
    refine allM_of_forall ?_
    rintro ⟨i, e⟩ hmem
    have he : g.edge? i = some e := Table.get?_of_mem htidy.edges hmem
    refine bind_eq_ok.2 ⟨true, endListed_of_forall fun k hk => ?_,
      endListed_of_forall fun k hk => ?_⟩
    · exact (hsource i k).1 (by simpa [view, he] using hk)
    · exact (htarget i k).1 (by simpa [view, he] using hk)
  have hend : ∀ {stop : Edge → Option Int} {i k : Int}, (g.edge? i).bind stop = some k →
      (do return stop (← g.edge i) == some k : Except Fault Bool) = .ok true := by
    intro stop i k h
    obtain ⟨e, he, hstop⟩ := Option.bind_eq_some_iff.1 h
    exact bind_eq_ok.2 ⟨e, edge_eq_ok.2 he, pure_eq_ok.2 (by simp [hstop])⟩
  have hnodes : allM g.nodeAgrees g.nodes.entries = .ok true := by
    refine allM_of_forall ?_
    rintro ⟨k, m⟩ hmem
    have hm : g.node? k = some m := Table.get?_of_mem htidy.nodes hmem
    refine bind_eq_ok.2 ⟨true, allM_of_forall fun i hi => ?_, allM_of_forall fun i hi => ?_⟩
    · exact hend ((htarget i k).2 ⟨m, hm, hi⟩)
    · exact hend ((hsource i k).2 ⟨m, hm, hi⟩)
  exact bind_eq_ok.2 ⟨true, hedges, hnodes⟩

theorem consistent_of_sound {count : Int} (htidy : g.Tidy) (hv : g.view.Sound count next) :
    g.consistent? = .ok true :=
  consistent_of_listed htidy hv.source hv.target

/-!
### Standard edges

The edges that stand for standard input or standard output are found by going through all edges, and
each edge must stand for something.
-/

variable {e : Edge} {i : Int} {p : Channel Int → Bool}

/-- Every edge stands for something. -/
def Resourced (g : Graph) : Prop := ∀ e ∈ g.edges.values, e.channel.resource.isSome

/-- The numbers of the edges whose channels pass a test. -/
def edgesWhere (g : Graph) (p : Channel Int → Bool) : List Int :=
  (g.edges.entries.filter fun e => p e.2.channel).map (·.1)

theorem mem_edgesWhere (htidy : g.Tidy) : i ∈ g.edgesWhere p ↔ ∃ e, g.edge? i = some e ∧
    p e.channel := by
  unfold edgesWhere
  rw [mem_map]
  constructor
  · rintro ⟨⟨j, e⟩, hmem, rfl⟩
    obtain ⟨hmem, hp⟩ := mem_filter.1 hmem
    exact ⟨e, Table.get?_of_mem htidy.edges hmem, hp⟩
  · rintro ⟨e, he, hp⟩
    exact ⟨(i, e), mem_filter.2 ⟨Table.mem_entries_of_get? he, hp⟩, rfl⟩

theorem edgesWhere_eq_singleton (htidy : g.Tidy) (hi : g.edge? i ≠ none)
    (h : ∀ j e, g.edge? j = some e → (p e.channel ↔ j = i)) : g.edgesWhere p = [i] := by
  have hperm : (g.edgesWhere p).Perm [i] := by
    have hnodup : (g.edgesWhere p).Nodup := (filter_sublist.map _).nodup htidy.edges
    refine (perm_ext_iff_of_nodup hnodup (by simp)).2 fun j => ?_
    rw [mem_edgesWhere htidy, mem_singleton]
    constructor
    · rintro ⟨e, he, hp⟩
      exact (h j e he).1 hp
    · rintro rfl
      obtain ⟨e, he⟩ := Option.ne_none_iff_exists'.1 hi
      exact ⟨e, he, (h j e he).2 rfl⟩
  exact perm_singleton.1 hperm

theorem resourceOf_eq_ok {r : Resource} : resourceOf e = .ok r ↔ e.channel.resource = some r := by
  unfold resourceOf
  split <;> simp_all

/-- One step of the search for standard input. -/
def seekStdin (found : Option Int) (entry : Int × Edge) : Except Fault (Option Int) := do
  if (← resourceOf entry.2).isStdin then
    require found.isNone
    return some entry.1
  else return found

/-- One step of the search finds the edge, or goes on with what it had. -/
theorem seekStdin_iff {e : Int × Edge} : seekStdin found e = .ok found' ↔
    e.2.channel.resource.isSome ∧
      found.toList ++ (if e.2.channel.isStdin then [e.1] else []) = found'.toList := by
  unfold seekStdin
  rw [bind_eq_ok]
  simp only [resourceOf_eq_ok, Channel.isStdin]
  rcases Option.eq_none_or_eq_some e.2.channel.resource with hr | ⟨r, hr⟩
  · simp [hr]
  · cases hstdin : r.isStdin with
    | false => cases found <;> cases found' <;> simp [hr, hstdin, pure_eq_ok]
    | true => cases found <;> cases found' <;> simp [hr, hstdin, require, Functor.map, Except.map]

theorem foldlM_seekStdin_iff {es : List (Int × Edge)} :
    es.foldlM seekStdin found = .ok found' ↔ (∀ e ∈ es, e.2.channel.resource.isSome) ∧
      found.toList ++ (es.filter fun e => e.2.channel.isStdin).map (·.1) = found'.toList := by
  induction es generalizing found with
  | nil =>
    show Except.ok found = .ok found' ↔ _
    cases found <;> cases found' <;> simp
  | cons e es ih =>
    have hids : ((e :: es).filter fun e => e.2.channel.isStdin).map (·.1) =
        (if e.2.channel.isStdin then [e.1] else []) ++ (es.filter fun e => e.2.channel.isStdin).map
          (·.1) := by
      cases h : e.2.channel.isStdin <;> simp [h]
    rw [foldlM_cons, bind_eq_ok, forall_mem_cons, hids, ← List.append_assoc]
    constructor
    · rintro ⟨found₁, hfirst, hrest⟩
      obtain ⟨hsome, hfound₁⟩ := seekStdin_iff.1 hfirst
      obtain ⟨hall, hfound'⟩ := ih.1 hrest
      exact ⟨⟨hsome, hall⟩, by rw [hfound₁, hfound']⟩
    · rintro ⟨⟨hsome, hall⟩, hfound'⟩
      -- at most one edge is found, so at most one is found at first
      have hshort : (found.toList ++ if e.2.channel.isStdin then [e.1] else []).length ≤ 1 := by
        have hlen := congrArg List.length hfound'
        have hle : found'.toList.length ≤ 1 := by cases found' <;> simp
        rw [length_append] at hlen
        omega
      obtain ⟨found₁, hfound₁⟩ : ∃ found₁ : Option Int,
          (found.toList ++ if e.2.channel.isStdin then [e.1] else []) = found₁.toList := by
        cases found with
        | none => cases e.2.channel.isStdin with
          | false => exact ⟨none, rfl⟩
          | true => exact ⟨some e.1, rfl⟩
        | some i => cases hstdin : e.2.channel.isStdin with
          | false => exact ⟨some i, rfl⟩
          | true => simp [hstdin] at hshort
      refine ⟨found₁, seekStdin_iff.2 ⟨hsome, hfound₁⟩, ih.2 ⟨hall, ?_⟩⟩
      rw [← hfound₁, hfound']

theorem exists_edge_of_mem_values (htidy : g.Tidy) (he : e ∈ g.edges.values) :
    ∃ i, g.edge? i = some e := by
  obtain ⟨⟨i, d⟩, hmem, rfl⟩ := mem_map.1 he
  exact ⟨i, Table.get?_of_mem htidy.edges hmem⟩

/-- **Standard input is found** if every edge stands for something, and at most one for standard
input. -/
theorem stdinEdge_eq_ok : g.stdinEdge = .ok found ↔
    g.Resourced ∧ g.edgesWhere Channel.isStdin = found.toList := by
  show g.edges.entries.foldlM seekStdin none = .ok found ↔ _
  rw [foldlM_seekStdin_iff, Resourced, Table.values, forall_mem_map]
  rfl

/-- **The last standard output is found** if every edge stands for something. -/
theorem stdoutEdge_eq_ok :
    g.stdoutEdge = .ok found ↔ g.Resourced ∧ (g.edgesWhere Channel.isStdout).getLast? = found := by
  have hgo : ∀ (es : List (Int × Edge)) (found₀ : Option Int),
      es.foldlM
        (fun found e => do if (← resourceOf e.2).isStdout then return some e.1 else return found)
          found₀ =
          .ok found ↔
        (∀ e ∈ es, e.2.channel.resource.isSome = true) ∧
          ((es.filter fun e => e.2.channel.isStdout).map (·.1)).getLast?.or found₀ = found := by
    intro es
    induction es with
    | nil =>
      intro found₀
      show Except.ok found₀ = .ok found ↔ _
      simp
    | cons e _ ih =>
      intro found₀
      rw [foldlM_cons, bind_eq_ok, forall_mem_cons]
      simp only [bind_eq_ok, resourceOf_eq_ok]
      cases hr : e.2.channel.resource with
      | none => simp
      | some r =>
        have hstdout : e.2.channel.isStdout = r.isStdout := by simp [Channel.isStdout, hr]
        cases h : r.isStdout with
        | false => simp [hstdout, h, ih, pure_eq_ok]
        | true => simp [hstdout, h, ih, pure_eq_ok, getLast?_cons]
  rw [Resourced, Table.values, forall_mem_map]
  refine (hgo g.edges.entries none).trans ?_
  rw [Option.or_none]
  rfl

/-- What passes the test as before is found as before. -/
theorem edgesWhere_putEdge (htidy : g.Tidy) {d : Edge} (he : g.edge? i = some e)
    (hp : p d.channel = p e.channel) : (g.putEdge i d).edgesWhere p = g.edgesWhere p := by
  unfold edgesWhere
  have hput : (g.putEdge i d).edges = g.edges.update i fun _ => d :=
    Table.insert_eq_update htidy.edges he fun _ => d
  rw [hput, Table.update, filter_map, map_map]
  have hsame : ∀ x ∈ g.edges.entries,
      p (if x.1 = i then d else x.2).channel = p x.2.channel := by
    intro x hx
    split
    · next heq =>
      have hx' : g.edge? x.1 = some x.2 := Table.get?_of_mem htidy.edges hx
      rw [heq, he] at hx'
      rw [hp, Option.some.inj hx']
    · rfl
  rw [show g.edges.entries.filter
    ((fun x => p x.2.channel) ∘ fun x => (x.1, if x.1 = i then d else x.2)) =
    g.edges.entries.filter (fun x => p x.2.channel) from filter_congr hsame]
  rfl

/-! ### Standard input -/

/-- Every edge stands for something, and not for standard input. -/
def Detached (g : Graph) : Prop := ∀ e ∈ g.edges.values, e.channel.Inner

theorem detached_iff : g.Detached ↔ g.Resourced ∧ g.edgesWhere Channel.isStdin = [] := by
  have hinner : ∀ c : Channel Int, c.Inner ↔ c.resource.isSome ∧ ¬ c.isStdin := by
    intro c
    cases h : c.resource <;> simp [Channel.Inner, Channel.isStdin, h]
  simp only [Detached, Resourced, edgesWhere, Table.values, map_eq_nil_iff, filter_eq_nil_iff,
    forall_mem_map, hinner, imp_and, forall_and]

/-- No channel is found for standard input exactly if there is none. -/
theorem channel_stdinEdge_iff : (∃ found, g.stdinEdge = .ok found ∧ g.channel? found = none) ↔
    g.Detached := by
  rw [detached_iff]
  constructor
  · rintro ⟨found, hfound, hnone⟩
    obtain ⟨hresourced, hfound⟩ := stdinEdge_eq_ok.1 hfound
    cases found with
    | none => exact ⟨hresourced, hfound⟩
    | some i =>
      -- an edge that was found has a channel
      have hmem : i ∈ g.edgesWhere Channel.isStdin := by simp [hfound]
      have hedge : g.edge? i = none := by simpa [channel?] using hnone
      exact absurd ((filter_sublist.map _).subset hmem) (Table.get?_eq_none_iff.1 hedge)
  · exact fun h => ⟨none, stdinEdge_eq_ok.2 h, rfl⟩

/-- **What it takes for a graph to be valid.** -/
theorem valid_iff : g.valid? = .ok true ↔
    g.nodes.entries ≠ [] ∧ g.consistent? = .ok true ∧ (g.background → g.Detached) := by
  have hempty : g.isEmpty = true ↔ g.nodes.entries = [] := List.isEmpty_iff
  constructor
  · intro h
    unfold valid? at h
    split at h
    · cases h
    · next hne =>
      obtain ⟨b, hcons, h⟩ := bind_eq_ok.1 h
      cases b with
      | false => cases h
      | true =>
        refine ⟨fun hnil => hne (hempty.2 hnil), hcons, fun hbackground =>
          channel_stdinEdge_iff.1 ?_⟩
        rw [if_pos rfl, if_pos hbackground] at h
        obtain ⟨found, hfound, h⟩ := bind_eq_ok.1 h
        exact ⟨found, hfound, Option.isNone_iff_eq_none.1 (pure_eq_ok.1 h)⟩
  · rintro ⟨hne, hcons, hdetached⟩
    unfold valid?
    rw [if_neg fun h => hne (hempty.1 h)]
    refine bind_eq_ok.2 ⟨true, hcons, ?_⟩
    rw [if_pos rfl]
    split
    · next hbackground =>
      exact bind_eq_ok.2 ⟨none, stdinEdge_eq_ok.2 (detached_iff.1 (hdetached hbackground)), rfl⟩
    · rfl

/-! ### What edits keep -/

theorem Edits.background (h : Edits next g next' g') : g'.background = g.background := by
  refine h.invariant (P := fun _ g₁ => g₁.background = g.background) ?_ rfl
  intro next₁ g₁ next₂ g₂ hedit hbackground
  rcases hedit.cases with ⟨nodes, rfl, -⟩ | ⟨i, e, rfl, -⟩
  · exact hbackground
  · exact hbackground

theorem Edits.tidy (h : Edits next g next' g') (htidy : g.Tidy) : g'.Tidy := by
  refine h.invariant (P := fun _ g => g.Tidy) ?_ htidy
  intro next₁ g₁ next₂ g₂ hedit htidy
  rcases hedit.cases with ⟨nodes, rfl, hnodup, -⟩ | ⟨i, e, rfl, -⟩
  · exact ⟨hnodup htidy.nodes, htidy.edges⟩
  · exact ⟨htidy.nodes, Table.nodup_keys_insert htidy.edges _ _⟩

theorem Edits.detached (h : Edits next g next' g') (hdetached : g.Detached) : g'.Detached := by
  refine h.invariant (P := fun _ g => g.Detached) ?_ hdetached
  intro next₁ g₁ next₂ g₂ hedit hdetached e he
  rcases hedit.cases with ⟨nodes, rfl, -⟩ | ⟨i, d, rfl, hcase⟩
  · exact hdetached e he
  · rcases Table.mem_values_insert he with rfl | he
    · rcases hcase with ⟨e₀, he₀, hchannel, -⟩ | ⟨-, hinner, -⟩
      · rw [hchannel]
        exact hdetached e₀ (Table.mem_values_of_get? he₀)
      · exact hinner
    · exact hdetached e he

end Graph

end ShellFlow
