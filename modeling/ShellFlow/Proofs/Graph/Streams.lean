import Mathlib.Logic.Function.Basic
import ShellFlow.Proofs.Graph.View
import ShellFlow.Proofs.Lists

/-!
# Added nodes and streams

Nodes that join a graph have new numbers, and for each of them it is known what it reads and what it
writes.  That is enough to say which edges have ends in the larger graph, and when edges and nodes
still agree.
-/

namespace ShellFlow

open List

variable (ws ws' : List (List Int × List Int)) (w : List Int × List Int)

/-- The edges that are read. -/
def reads : List Int := ws.flatMap (·.1)

/-- The edges that are written. -/
def writes : List Int := ws.flatMap (·.2)

@[simp] theorem reads_nil : reads [] = [] := rfl

@[simp] theorem writes_nil : writes [] = [] := rfl

@[simp] theorem reads_cons (ws : List (List Int × List Int)) :
    reads (w :: ws) = w.1 ++ reads ws := rfl

@[simp] theorem writes_cons (ws : List (List Int × List Int)) :
    writes (w :: ws) = w.2 ++ writes ws := rfl

@[simp] theorem reads_append : reads (ws ++ ws') = reads ws ++ reads ws' :=
  flatMap_append

@[simp] theorem writes_append : writes (ws ++ ws') = writes ws ++ writes ws' :=
  flatMap_append

/-- Every node reads only edges with smaller numbers than those that it and the later ones write. -/
structure Causal (ws : List (List Int × List Int)) : Prop where
  own : ∀ c ∈ ws, ∀ i ∈ c.1, ∀ j ∈ c.2, i < j
  later : ws.Pairwise fun c c' => ∀ i ∈ c.1, ∀ j ∈ c'.2, i < j

namespace Causal

variable {ws ws' : List (List Int × List Int)}

theorem of_lt (h : ∀ i ∈ reads ws, ∀ j ∈ writes ws, i < j) : Causal ws := by
  have hlt : ∀ c ∈ ws, ∀ c' ∈ ws, ∀ i ∈ c.1, ∀ j ∈ c'.2, i < j := fun c hc c' hc' i hi j hj =>
    h i (mem_flatMap.2 ⟨c, hc, hi⟩) j (mem_flatMap.2 ⟨c', hc', hj⟩)
  exact ⟨fun c hc => hlt c hc c hc, pairwise_of_forall_mem_list fun c hc c' hc' => hlt c hc c' hc'⟩

theorem append (h : Causal ws) (h' : Causal ws') (hlt : ∀ i ∈ reads ws, ∀ j ∈ writes ws', i < j) :
    Causal (ws ++ ws') := by
  refine ⟨forall_mem_append.2 ⟨h.own, h'.own⟩,
    pairwise_append.2 ⟨h.later, h'.later, fun c hc c' hc' i hi j hj => ?_⟩⟩
  exact hlt i (mem_flatMap.2 ⟨c, hc, hi⟩) j (mem_flatMap.2 ⟨c', hc', hj⟩)

end Causal

/-- Nodes with increasing numbers from `count` on, and what each of them reads and writes. -/
inductive Wired (P : Node → Prop) : Int → List Node → List (List Int × List Int) → Int → Prop
  | nil {count : Int} : Wired P count [] [] count
  | cons {count count' : Int} {n : Node} {ns : List Node} {ins outs : List Int}
      {ws : List (List Int × List Int)} :
      count ≤ n.id → n.inputs = ins → n.outputs = outs → P n → Wired P (n.id + 1) ns ws count' →
      Wired P count (n :: ns) ((ins, outs) :: ws) count'

namespace Wired

variable {P Q : Node → Prop} {count count' count'' : Int} {ns ns' : List Node}
  {ws ws' : List (List Int × List Int)} {i : Int}

theorem single {n : Node} {ins outs : List Int} (hid : count ≤ n.id) (hcount : count' = n.id + 1)
    (hin : n.inputs = ins) (hout : n.outputs = outs) (hP : P n) :
    Wired P count [n] [(ins, outs)] count' := by
  subst hcount
  exact .cons hid hin hout hP .nil

section

variable (h : Wired P count ns ws count')
include h

theorem append (h' : Wired P count' ns' ws' count'') :
    Wired P count (ns ++ ns') (ws ++ ws') count'' := by
  induction h with
  | nil => exact h'
  | cons hid hin hout hP _ ih => exact .cons hid hin hout hP (ih h')

theorem imp (hPQ : ∀ n, P n → Q n) : Wired Q count ns ws count' := by
  induction h with
  | nil => exact .nil
  | cons hid hin hout hP _ ih => exact .cons hid hin hout (hPQ _ hP) ih

theorem count_le : count ≤ count' := by
  induction h with
  | nil => exact Int.le_refl _
  | cons hid _ _ _ _ ih => omega

theorem forall_mem : ∀ n ∈ ns, P n ∧ count ≤ n.id := by
  induction h with
  | nil => simp
  | cons hid _ _ hP _ ih =>
    refine forall_mem_cons.2 ⟨⟨hP, hid⟩, fun m hm => ⟨(ih m hm).1, ?_⟩⟩
    have := (ih m hm).2
    omega

theorem map_eq : ns.map (fun n => (n.inputs, n.outputs)) = ws := by
  induction h with
  | nil => rfl
  | cons _ hin hout _ _ ih => rw [map_cons, ih, hin, hout]

theorem mem_inputs (hi : i ∈ reads ws) : ∃ n ∈ ns, i ∈ n.inputs := by
  rw [← h.map_eq] at hi
  simpa only [reads, flatMap_map, mem_flatMap] using hi

theorem mem_outputs (hi : i ∈ writes ws) : ∃ n ∈ ns, i ∈ n.outputs := by
  rw [← h.map_eq] at hi
  simpa only [writes, flatMap_map, mem_flatMap] using hi

end

end Wired

/-- Nodes of which it is known what they read and write are added to a view. -/
def Lays (P : Node → Prop) (v : View) (count : Int) (ws : List (List Int × List Int)) (v' : View)
    (count' : Int) : Prop :=
  ∃ ns, Wired P count ns ws count' ∧ v' = ns.foldl View.add v

namespace Lays

variable {P Q : Node → Prop} {v v' v'' : View} {count count' count'' next next' : Int}
  {ws ws' : List (List Int × List Int)} {i k : Int} {m : Node}

theorem nil : Lays P v count [] v count := ⟨[], .nil, rfl⟩

theorem imp (h : Lays P v count ws v' count') (hPQ : ∀ n, P n → Q n) :
    Lays Q v count ws v' count' := by
  obtain ⟨ns, hns, rfl⟩ := h
  exact ⟨ns, hns.imp hPQ, rfl⟩

theorem trans (h : Lays P v count ws v' count') (h' : Lays P v' count' ws' v'' count'') :
    Lays P v count (ws ++ ws') v'' count'' := by
  obtain ⟨ns, hns, rfl⟩ := h
  obtain ⟨ns', hns', rfl⟩ := h'
  exact ⟨ns ++ ns', hns.append hns', by rw [foldl_append]⟩

theorem count_le (h : Lays P v count ws v' count') : count ≤ count' := by
  obtain ⟨ns, hns, -⟩ := h
  exact hns.count_le

theorem node_cases (h : Lays P v count ws v' count') (hm : v'.node k = some m) :
    v.node k = some m ∨ count ≤ k ∧ P m ∧ (m.inputs, m.outputs) ∈ ws := by
  obtain ⟨ns, hns, rfl⟩ := h
  induction hns generalizing v with
  | nil => exact .inl hm
  | @cons count _ n ns ins outs ws hid hin hout hP _ ih =>
    rcases ih hm with hm | ⟨hk, hP, hmem⟩
    · rcases View.node_of_add hm with ⟨rfl, rfl⟩ | hm
      · exact .inr ⟨hid, hP, by simp [hin, hout]⟩
      · exact .inl hm
    · exact .inr ⟨by omega, hP, mem_cons_of_mem _ hmem⟩

theorem node_of_lt (h : Lays P v count ws v' count') (hk : k < count) : v'.node k = v.node k := by
  obtain ⟨ns, hns, rfl⟩ := h
  induction hns generalizing v with
  | nil => rfl
  | cons hid _ _ _ _ ih =>
    rw [foldl_cons, ih (by omega), View.add_node_of_ne _ (by omega)]

theorem eq_of_nil (h : Lays P v count [] v' count') : v' = v := by
  obtain ⟨ns, hns, rfl⟩ := h
  cases hns
  rfl

section

variable (h : Lays P v count ws v' count')
include h

theorem exists_node (hne : ws ≠ []) : ∃ k m, count ≤ k ∧ v'.node k = some m := by
  obtain ⟨ns, hns, rfl⟩ := h
  cases hns with
  | nil => exact absurd rfl hne
  | @cons _ _ n ns _ _ ws hid _ _ _ hrest =>
    have hrest : Lays P (v.add n) (n.id + 1) ws (ns.foldl View.add (v.add n)) count' :=
      ⟨ns, hrest, rfl⟩
    refine ⟨n.id, n, hid, ?_⟩
    rw [foldl_cons, hrest.node_of_lt (by omega)]
    simp [View.add]

/-- **An edge has a writer behind the addition** if it had one, or is written by what was added. -/
theorem source_ne_none : v'.source i ≠ none ↔ i ∈ writes ws ∨ v.source i ≠ none := by
  obtain ⟨ns, hns, rfl⟩ := h
  induction hns generalizing v with
  | nil => simp
  | @cons _ _ n _ ins outs _ _ _ hout _ _ ih =>
    rw [foldl_cons, ih, writes_cons, mem_append]
    by_cases hi : i ∈ outs
    · simp [View.add, hout, hi]
    · rw [View.add_source_of_notMem _ (by rwa [hout])]
      simp [hi]

/-- **An edge has a reader behind the addition** if it had one, or is read by what was added. -/
theorem target_ne_none : v'.target i ≠ none ↔ i ∈ reads ws ∨ v.target i ≠ none := by
  obtain ⟨ns, hns, rfl⟩ := h
  induction hns generalizing v with
  | nil => simp
  | @cons _ _ n _ ins outs _ _ hin _ _ _ ih =>
    rw [foldl_cons, ih, reads_cons, mem_append]
    by_cases hi : i ∈ ins
    · simp [View.add, hin, hi]
    · rw [View.add_target_of_notMem _ (by rwa [hin])]
      simp [hi]

/-- **Nodes join a sound view** if each edge that they read is read by one of them only and by
nobody before, and the same holds for the edges that they write. -/
theorem sound (hv : v.Sound count next) (hnext : next ≤ next') (hreads : (reads ws).Nodup)
    (hwrites : (writes ws).Nodup) (hunread : ∀ i ∈ reads ws, i < next' ∧ v.target i = none)
    (hunwritten : ∀ i ∈ writes ws, i < next' ∧ v.source i = none) : v'.Sound count' next' := by
  obtain ⟨ns, hns, rfl⟩ := h
  induction hns generalizing v next with
  | nil => exact hv.mono (Int.le_refl _) hnext
  | @cons count _ n ns ins outs ws hid hin hout hP _ ih =>
    obtain ⟨-, hreads', hin'⟩ := nodup_append.1 hreads
    obtain ⟨-, hwrites', hout'⟩ := nodup_append.1 hwrites
    have hadd : (v.add n).Sound (n.id + 1) next' := by
      refine hv.add (hv.node_of_le hid) (by omega) (by omega) hnext (fun i hi => ?_) fun i hi => ?_
      · exact hunread i (mem_append_left _ (hin ▸ hi))
      · exact hunwritten i (mem_append_left _ (hout ▸ hi))
    refine ih hadd (Int.le_refl _) hreads' hwrites' (fun i hi => ?_) fun i hi => ?_
    · obtain ⟨hlt, hnone⟩ := hunread i (mem_append_right _ hi)
      refine ⟨hlt, ?_⟩
      rw [View.add_target_of_notMem _ fun hmem => hin' i (hin ▸ hmem) i hi rfl, hnone]
    · obtain ⟨hlt, hnone⟩ := hunwritten i (mem_append_right _ hi)
      refine ⟨hlt, ?_⟩
      rw [View.add_source_of_notMem _ fun hmem => hout' i (hout ▸ hmem) i hi rfl, hnone]

end

end Lays

/-!
### Streams through a graph

A node makes its output streams from its input streams, in the order of its lists.  The streams on
the edges of a graph fit if every node of it has made its outputs.  Two graphs do the same if
streams that fit one of them can be completed to streams that fit the other, with the same streams
on the edges that are seen from outside.
-/

variable {S : Type} {ids : List Int} (n : Node) (old new : Int)

/-- What every node makes of its input streams. -/
abbrev Behaviour (S : Type) := Node → List S → List S

/-- A node has made its output streams from its input streams. -/
def Node.Holds (J : Behaviour S) (m : Node) (σ : Int → S) : Prop :=
    J m (m.inputs.map σ) = m.outputs.map σ

/-- Every node writes what it makes of what it reads. -/
def View.Runs (J : Behaviour S) (v : View) (σ : Int → S) : Prop :=
    ∀ k m, v.node k = some m → m.Holds J σ

/-- Streams that meet one condition can be completed to streams that meet the other, both ways, and
stay the same on the edges in `K`. -/
structure SameStreams (K : Int → Prop) (P Q : (Int → S) → Prop) : Prop where
  forth : ∀ σ, P σ → ∃ τ, Q τ ∧ ∀ i, K i → τ i = σ i
  back : ∀ τ, Q τ → ∃ σ, P σ ∧ ∀ i, K i → σ i = τ i

namespace SameStreams

variable {K : Int → Prop} {P Q R : (Int → S) → Prop}

theorem of_iff (h : ∀ σ, P σ ↔ Q σ) : SameStreams K P Q :=
  ⟨fun σ hσ => ⟨σ, (h σ).1 hσ, fun _ _ => rfl⟩, fun τ hτ => ⟨τ, (h τ).2 hτ, fun _ _ => rfl⟩⟩

theorem trans (h : SameStreams K P Q) (h' : SameStreams K Q R) : SameStreams K P R := by
  constructor
  · intro σ hσ
    obtain ⟨τ, hτ, hστ⟩ := h.forth σ hσ
    obtain ⟨ρ, hρ, hτρ⟩ := h'.forth τ hτ
    exact ⟨ρ, hρ, fun i hi => (hτρ i hi).trans (hστ i hi)⟩
  · intro ρ hρ
    obtain ⟨τ, hτ, hτρ⟩ := h'.back ρ hρ
    obtain ⟨σ, hσ, hστ⟩ := h.back τ hτ
    exact ⟨σ, hσ, fun i hi => (hστ i hi).trans (hτρ i hi)⟩

/-- What flows on an edge that is not seen is forced, so it may be left out and put back. -/
theorem of_update {x : Int} {e : (Int → S) → S} (hK : ¬ K x) (hP : ∀ σ, P σ → σ x = e σ)
    (hQ : ∀ σ, Q σ ↔ P (Function.update σ x (e σ))) : SameStreams K P Q := by
  constructor
  · intro σ hσ
    refine ⟨σ, (hQ σ).2 ?_, fun _ _ => rfl⟩
    rwa [← hP σ hσ, Function.update_eq_self]
  · intro τ hτ
    refine ⟨_, (hQ τ).1 hτ, fun i hi => ?_⟩
    have hne : i ≠ x := fun heq => hK (heq ▸ hi)
    exact Function.update_of_ne hne _ _

end SameStreams

/-! ### Single nodes -/

section Nodes

variable {J : Behaviour S} {v : View} {n m : Node} {σ τ : Int → S}

theorem Node.holds_congr (hin : ∀ i ∈ m.inputs, σ i = τ i) (hout : ∀ i ∈ m.outputs, σ i = τ i) :
    m.Holds J σ ↔ m.Holds J τ := by
  rw [Holds, Holds, map_congr_left hin, map_congr_left hout]

theorem View.runs_add (hid : v.node n.id = none) : (v.add n).Runs J σ ↔
    v.Runs J σ ∧ n.Holds J σ := by
  constructor
  · intro h
    refine ⟨fun k m hm => h k m ?_, h n.id n (if_pos rfl)⟩
    have hk : k ≠ n.id := by
      rintro rfl
      rw [hid] at hm
      cases hm
    rwa [add_node_of_ne v hk]
  · rintro ⟨h, hn⟩ k m hm
    obtain ⟨-, rfl⟩ | hm := node_of_add hm
    · exact hn
    · exact h k m hm

theorem View.runs_remove (hn : v.node n.id = some n) :
    v.Runs J σ ↔ (v.remove n).Runs J σ ∧ n.Holds J σ := by
  constructor
  · intro h
    exact ⟨fun k m hm => h k m (node_of_remove hm).2, h n.id n hn⟩
  · rintro ⟨h, hown⟩ k m hm
    by_cases hk : k = n.id
    · subst hk
      obtain rfl := Option.mem_unique hn hm
      exact hown
    · exact h k m (by rwa [remove_node_of_ne v hk])

/-- Streams on edges that no node has do not matter. -/
theorem View.runs_congr (h : ∀ k m, v.node k = some m → ∀ i ∈ m.inputs ++ m.outputs, σ i = τ i) :
    v.Runs J σ ↔ v.Runs J τ := by
  refine forall_congr' fun k => forall_congr' fun m => forall_congr' fun hm => ?_
  refine Node.holds_congr (fun i hi => h k m hm i ?_) (fun i hi => h k m hm i ?_)
  · exact mem_append_left _ hi
  · exact mem_append_right _ hi

theorem View.Sound.runs_congr {count next : Int} (h : v.Sound count next)
    (heq : ∀ i, i < next → σ i = τ i) : v.Runs J σ ↔ v.Runs J τ := by
  refine View.runs_congr fun k m hm i hi => heq i ?_
  obtain hi | hi := mem_append.1 hi
  · exact h.inputs_lt hm i hi
  · exact h.outputs_lt hm i hi

end Nodes

/-! ### Completing streams -/

/-- Streams with those on some edges given. -/
def assign (σ : Int → S) : List Int → List S → Int → S
  | i :: ids, x :: xs => fun j => if j = i then x else assign σ ids xs j
  | _, _ => σ

theorem assign_of_notMem {σ : Int → S} {xs : List S} {j : Int} (h : j ∉ ids) :
    assign σ ids xs j = σ j := by
  fun_induction assign σ ids xs with
  | case1 _ _ _ _ ih =>
    simp only [mem_cons, not_or] at h
    exact (if_neg h.1).trans (ih h.2)
  | case2 => rfl

theorem map_assign {σ : Int → S} {ids : List Int} {xs : List S} (hnodup : ids.Nodup)
    (hlen : xs.length = ids.length) : ids.map (assign σ ids xs) = xs := by
  induction ids generalizing xs with
  | nil => simpa using (eq_nil_of_length_eq_zero hlen).symm
  | cons i ids ih =>
    obtain _ | ⟨x, xs⟩ := xs
    · simp at hlen
    obtain ⟨hi, hnodup⟩ := nodup_cons.1 hnodup
    have hrest : ids.map (assign σ (i :: ids) (x :: xs)) = ids.map (assign σ ids xs) := by
      refine map_congr_left fun j hj => ?_
      have hne : j ≠ i := fun heq => hi (heq ▸ hj)
      simp [assign, hne]
    rw [map_cons, hrest, ih hnodup (by simpa using hlen)]
    simp [assign]

namespace Wired

variable {P : Node → Prop} {J : Behaviour S} {v : View} {count count' next : Int} {ns : List Node}
  {ws : List (List Int × List Int)}

section

variable (h : Wired P count ns ws count')
include h

/-- **Streams can be completed to fit added nodes.**  Each node is given what it makes, one after
the other; the later ones write no edge that an earlier one reads. -/
theorem exists_holds (hws : Causal ws) (hnodup : (writes ws).Nodup)
    (hlen : ∀ n ∈ ns, ∀ xs, xs.length = n.inputs.length → (J n xs).length = n.outputs.length)
    (σ : Int → S) : ∃ τ, (∀ i, i ∉ writes ws → τ i = σ i) ∧ ∀ n ∈ ns, n.Holds J τ := by
  induction h generalizing σ with
  | nil => exact ⟨σ, fun _ _ => rfl, by simp⟩
  | @cons _ _ n _ ins outs ws _ hin hout _ _ ih =>
    subst hin hout
    obtain ⟨hlater, hrest⟩ := pairwise_cons.1 hws.later
    have hfirst : ∀ i ∈ n.inputs, i ∉ n.outputs ++ writes ws := by
      intro i hi hmem
      rcases mem_append.1 hmem with hmem | hmem
      · exact Int.lt_irrefl i (hws.own _ mem_cons_self i hi i hmem)
      · obtain ⟨c, hc, hmem⟩ := mem_flatMap.1 hmem
        exact Int.lt_irrefl i (hlater c hc i hi i hmem)
    obtain ⟨hown, hnodup, hdisjoint⟩ := nodup_append.1 hnodup
    obtain ⟨τ, hτ, hholds⟩ := ih ⟨fun c hc => hws.own c (mem_cons_of_mem _ hc), hrest⟩ hnodup
      (fun m hm => hlen m (mem_cons_of_mem _ hm)) (assign σ n.outputs (J n (n.inputs.map σ)))
    have hold : ∀ i, i ∉ n.outputs ++ writes ws → τ i = σ i := by
      intro i hi
      rw [mem_append, not_or] at hi
      rw [hτ i hi.2, assign_of_notMem hi.1]
    refine ⟨τ, hold, forall_mem_cons.2 ⟨?_, hholds⟩⟩
    have hins : n.inputs.map τ = n.inputs.map σ :=
      map_congr_left fun i hi => hold i (hfirst i hi)
    have houts : n.outputs.map τ = J n (n.inputs.map σ) := by
      rw [map_congr_left fun i hi => hτ i fun hmem => hdisjoint i hi i hmem rfl]
      exact map_assign hown (hlen n mem_cons_self _ (by simp))
    rw [Node.Holds, hins, houts]

theorem runs_foldl (hnew : ∀ k, count ≤ k → v.node k = none) {σ : Int → S} :
    (ns.foldl View.add v).Runs J σ ↔ v.Runs J σ ∧ ∀ n ∈ ns, n.Holds J σ := by
  induction h generalizing v with
  | nil => simp
  | @cons _ _ n _ _ _ _ hid _ _ _ _ ih =>
    have hadd : ∀ k, n.id + 1 ≤ k → (v.add n).node k = none := by
      intro k hk
      rw [View.add_node_of_ne _ (by omega), hnew k (by omega)]
    rw [foldl_cons, ih hadd, View.runs_add (hnew n.id hid), forall_mem_cons, and_assoc]

/-- **Added nodes do not restrict the streams that were there.**  A condition on these streams may
be traded for one that is the same once the added nodes have run. -/
theorem sameStreams (hv : v.Sound count next) (hws : Causal ws)
    (hnodup : (writes ws).Nodup) (hfresh : ∀ i ∈ writes ws, next ≤ i)
    (hlen : ∀ n ∈ ns, ∀ xs, xs.length = n.inputs.length → (J n xs).length = n.outputs.length)
    {K : Int → Prop} (hK : ∀ i, K i → i < next) {E Q : (Int → S) → Prop}
    (hE : ∀ σ τ, (∀ i, i < next → τ i = σ i) → E σ → E τ)
    (hQ : ∀ σ, (∀ n ∈ ns, n.Holds J σ) → (E σ ↔ Q σ)) :
    SameStreams K (fun σ => v.Runs J σ ∧ E σ) (fun σ => (ns.foldl View.add v).Runs J σ ∧ Q σ) := by
  have hruns := fun σ => h.runs_foldl (J := J) (σ := σ) fun k hk => hv.node_of_le hk
  constructor
  · rintro σ ⟨hσ, hEσ⟩
    obtain ⟨τ, hτ, hholds⟩ := h.exists_holds hws hnodup hlen σ
    have hold : ∀ i, i < next → τ i = σ i := fun i hi => hτ i fun hmem => by
      have := hfresh i hmem
      omega
    refine ⟨τ, ⟨(hruns τ).2 ⟨?_, hholds⟩, (hQ τ hholds).1 (hE σ τ hold hEσ)⟩,
      fun i hi => hold i (hK i hi)⟩
    exact (hv.runs_congr hold).2 hσ
  · rintro τ ⟨hτ, hQτ⟩
    obtain ⟨hτ, hholds⟩ := (hruns τ).1 hτ
    exact ⟨τ, ⟨hτ, (hQ τ hholds).2 hQτ⟩, fun _ _ => rfl⟩

end

end Wired

/-! ### Writing another edge -/

/-- The view in which a node writes `new` in the place of `old`. -/
def View.redirect (v : View) (n : Node) (old new : Int) : View :=
    (v.remove n).add (n.replaceEdge old new)

theorem Invocation.map_replaceIn {α : Type} (old new : Int) (ids : List Int) (τ : Int → α) :
    (Invocation.replaceIn old new ids).map τ = ids.map (Function.update τ old (τ new)) := by
  rw [Invocation.replaceIn, map_map]
  refine map_congr_left fun i _ => ?_
  rw [Function.update_apply, Function.comp]
  split <;> rfl

@[simp] theorem Node.id_replaceEdge : (n.replaceEdge old new).id = n.id := rfl

theorem Node.inputs_replaceEdge :
    (n.replaceEdge old new).inputs = Invocation.replaceIn old new n.inputs :=
  (map_append ..).symm

theorem Node.outputs_replaceEdge :
    (n.replaceEdge old new).outputs = Invocation.replaceIn old new n.outputs := rfl

theorem Node.holds_replaceEdge {J : Behaviour S} {n : Node} {old new : Int} {τ : Int → S}
    (hJ : J (n.replaceEdge old new) = J n) :
    (n.replaceEdge old new).Holds J τ ↔ n.Holds J (Function.update τ old (τ new)) := by
  rw [Holds, Holds, hJ, inputs_replaceEdge, outputs_replaceEdge, Invocation.map_replaceIn,
    Invocation.map_replaceIn]

section Redirect

variable {v : View} {count next old new : Int} {n : Node} {J : Behaviour S}

section

variable (h : v.Sound count next) (hn : v.node n.id = some n) (hold : v.target old = none)
include h hn hold

theorem View.Sound.inputs_replaceEdge : (n.replaceEdge old new).inputs = n.inputs := by
  have hne : ∀ i ∈ n.inputs, i ≠ old := by
    rintro i hi rfl
    exact h.target.eq_none_iff.1 hold n.id n hn hi
  rw [Node.inputs_replaceEdge, Invocation.replaceIn]
  exact (map_congr_left fun i hi => if_neg (hne i hi)).trans (map_id _)

theorem View.Sound.redirect (hnew : v.source new = none) (hlt : new < next) :
    (v.redirect n old new).Sound count next := by
  have hkeep : (n.replaceEdge old new).inputs = n.inputs := h.inputs_replaceEdge hn hold
  refine (h.remove hn).add ?_ (h.id_lt hn) (Int.le_refl _) (Int.le_refl _) (fun i hi => ?_)
    (fun i hi => ?_)
  · simp [View.remove]
  · rw [hkeep] at hi
    exact ⟨h.inputs_lt hn i hi, by simp [View.remove, hi]⟩
  · rw [Node.outputs_replaceEdge, Invocation.replaceIn] at hi
    obtain ⟨j, hj, rfl⟩ := mem_map.1 hi
    split
    · refine ⟨hlt, ?_⟩
      simp [View.remove, hnew]
    · exact ⟨h.outputs_lt hn j hj, by simp [View.remove, hj]⟩

/-- Only the node and two writing ends change. -/
theorem View.Sound.redirect_eq (hwrites : old ∈ n.outputs) (hne : new ≠ old) :
    v.redirect n old new = (({ v with
      node := fun k => if k = n.id then some (n.replaceEdge old new) else v.node k } :
        View).setSource new (some n.id)).setSource old none := by
  have hmem : ∀ i, i ∈ (n.replaceEdge old new).outputs ↔ i = new ∨ i ∈ n.outputs ∧ i ≠ old := by
    intro i
    rw [Node.outputs_replaceEdge, Invocation.replaceIn]
    grind
  ext1
  · funext k
    by_cases hk : k = n.id <;> simp [View.redirect, View.add, View.remove, View.setSource, hk]
  · funext i
    have hown : i ∈ n.outputs → v.source i = some n.id := fun hi => (h.source i n.id).2 ⟨n, hn, hi⟩
    simp only [View.redirect, View.add, View.remove, View.setSource, hmem, Node.id_replaceEdge]
    grind
  · funext i
    have hown : i ∈ n.inputs → v.target i = some n.id := fun hi => (h.target i n.id).2 ⟨n, hn, hi⟩
    simp only [View.redirect, View.add, View.remove, View.setSource, h.inputs_replaceEdge hn hold,
      Node.id_replaceEdge]
    grind

/-- **An edge that nobody reads may be written under another number.** -/
theorem View.redirect_sameStreams (hwrites : old ∈ n.outputs) (hne : new ≠ old)
    (hJ : J (n.replaceEdge old new) = J n) {K : Int → Prop} (hK : ¬ K old) :
    SameStreams K (fun σ => v.Runs J σ ∧ σ new = σ old) ((v.redirect n old new).Runs J) := by
  have hid : (v.remove n).node (n.replaceEdge old new).id = none := by simp [View.remove]
  refine .of_update (e := fun σ => σ new) hK (fun σ hσ => hσ.2.symm) fun τ => ?_
  rw [View.redirect, View.runs_add hid, View.runs_remove hn, Node.holds_replaceEdge hJ,
    Function.update_self, Function.update_of_ne hne, eq_self, and_true]
  refine and_congr_left' (View.runs_congr fun k m hm i hi => ?_)
  -- no node but `n` has the old edge
  obtain ⟨hk, hm⟩ := View.node_of_remove hm
  have hother : i ≠ old := by
    rintro rfl
    obtain hi | hi := mem_append.1 hi
    · exact h.target.eq_none_iff.1 hold k m hm hi
    · have hk' := ((h.source i k).2 ⟨m, hm, hi⟩).symm.trans ((h.source i n.id).2 ⟨n, hn, hwrites⟩)
      exact hk (Option.some.inj hk')
  rw [Function.update_of_ne hother]

end

end Redirect

end ShellFlow
