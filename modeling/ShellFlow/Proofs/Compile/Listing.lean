import Mathlib.Data.List.Flatten
import Mathlib.Data.List.Forall2
import ShellFlow.Proofs.Compile.Becoming

/-!
# Listing the trees of a region

The outcomes of the trees of a region are listed in order, where a graph in the background and the
graphs that follow it are listed as their union.  A graph in the background that meets a tree is
listed in front of the tree and again when it is complete.  So every outcome is listed once if and
only if graphs in the background are followed by graphs.
-/

namespace ShellFlow

open List

variable {a : Gathering} {c : Compiled} {cs os run : List Compiled} {g g' u : Graph}
  {held : Option Gathering}
  {s s' : ChannelSource} {t t' : Supply} {trees : List Tree}

/-! ### Numbers of outcomes -/

namespace Compiled

/-- The numbers of the nodes of an outcome. -/
def numbers : Compiled → List Int
  | graph g => g.nodes.keys
  | tree _ => []

def inBackground : Compiled → Bool
  | graph g => g.background
  | tree _ => false

/-- If an outcome is in the background, a graph follows it. -/
def Followed (a b : Compiled) : Prop := a.inBackground → b.graph?.isSome

instance : DecidableRel Followed := fun _ _ => inferInstanceAs (Decidable (_ → _))

/-- If an outcome is a graph, it has nodes. -/
def HasNodes (c : Compiled) : Prop := c.graph?.isSome → c.numbers ≠ []

end Compiled

open Compiled

theorem numbered_outcome {tree : Tree} (h : Yields (compileTree tree s) t (c, s') t') :
    Fresh t.nextNode c.numbers t'.nextNode ∧ c.HasNodes := by
  cases c with
  | graph =>
    have hg := (becomes_of_yields tree h).numbered
    exact ⟨hg.fresh, fun _ => hg.nonempty⟩
  | tree => exact ⟨Fresh.nil _ _, nofun⟩

/-- The nodes of the graphs of some trees have different numbers. -/
theorem numbered_outcomes (h : Yields (compileTrees trees s) t (os, s') t') :
    Fresh t.nextNode (os.flatMap numbers) t'.nextNode ∧ ∀ o ∈ os, o.HasNodes := by
  induction trees generalizing s t os with
  | nil =>
    obtain ⟨rfl, rfl, rfl⟩ := h.pure_pair
    exact ⟨Fresh.nil _ _, by simp⟩
  | cons _ _ ih =>
    obtain ⟨⟨o, s₁⟩, t₁, htree, h⟩ := h.bind
    obtain ⟨⟨os', s₂⟩, t₂, htrees, h⟩ := h.bind
    obtain ⟨rfl, rfl, rfl⟩ := h.pure_pair
    obtain ⟨hfirst, hfirstNodes⟩ := numbered_outcome htree
    obtain ⟨hrest, hrestNodes⟩ := ih htrees
    refine ⟨?_, forall_mem_cons.2 ⟨hfirstNodes, hrestNodes⟩⟩
    rw [flatMap_cons]
    exact hfirst.append hrest (Int.ofNat_le.2 (draws_compileTree _ _ _ _ _ _ htree).nodes)
      (Int.ofNat_le.2 (draws_compileTrees _ _ _ _ _ _ htrees).nodes)

/-! ### Listing apart from compiling -/

/-- How outcomes are listed one after the other, from a graph in the background that is held. -/
inductive Lists : Option Gathering → List Compiled → List Compiled → Prop
  | nothing : Lists none [] []
  | close {a : Gathering} :
      Lists (some a) [] ({ a with listed := a.listed ++ [none] } : Gathering).complete
  | tree {t : Tree} {os cs : List Compiled} (rest : Lists none os cs) :
      Lists none (.tree t :: os) (.tree t :: cs)
  | graph {g : Graph} {os cs : List Compiled} (front : ¬ g.background) (rest : Lists none os cs) :
      Lists none (.graph g :: os) (.graph g :: cs)
  | hold {g : Graph} {os cs : List Compiled} (background : g.background)
      (rest : Lists (some { graph := g }) os cs) : Lists none (.graph g :: os) cs
  | meet {a : Gathering} {t : Tree} {os cs : List Compiled}
      (rest : Lists (some { a with listed := a.listed ++ [none, some (.tree t)] }) os cs) :
      Lists (some a) (.tree t :: os) cs
  | unite {a : Gathering} {g u : Graph} {os cs : List Compiled}
      (united : a.graph.backgroundUnion g = .ok u)
      (background : u.background) (rest : Lists (some { a with graph := u }) os cs) :
      Lists (some a) (.graph g :: os) cs
  | complete {a : Gathering} {g u : Graph} {os cs : List Compiled}
      (united : a.graph.backgroundUnion g = .ok u)
      (front : ¬ u.background) (rest : Lists none os cs) :
      Lists (some a) (.graph g :: os)
        (({ graph := u, listed := a.listed ++ [none] } : Gathering).complete ++ cs)

theorem Lists.cons {held held' : Option Gathering} {o : Compiled} {listed os cs : List Compiled}
    (h : gather held o = .ok (listed, held')) (hrest : Lists held' os cs) :
    Lists held (o :: os) (listed ++ cs) := by
  cases held with
  | none =>
    cases o with
    | tree =>
      cases h
      exact .tree hrest
    | graph g =>
      by_cases hg : g.background = true
      · rw [gather, if_pos hg] at h
        cases h
        exact .hold hg hrest
      · rw [gather, if_neg hg] at h
        cases h
        exact .graph hg hrest
  | some =>
    cases o with
    | tree =>
      cases h
      exact .meet hrest
    | graph =>
      obtain ⟨u, hu, h⟩ := bind_eq_ok.1 h
      by_cases hg : u.background = true
      · rw [if_pos hg] at h
        cases h
        exact .unite hu hg hrest
      · rw [if_neg hg] at h
        cases h
        exact .complete hu hg hrest

/-- **A region is compiled tree by tree, and the outcomes are listed.** -/
theorem exists_outcomes_of_compileAll (h : Yields (compileAll held trees s) t (cs, s') t') :
    ∃ os, Yields (compileTrees trees s) t (os, s') t' ∧ Lists held os cs := by
  induction trees generalizing held s t cs with
  | nil =>
    cases held with
    | none =>
      obtain ⟨rfl, rfl, rfl⟩ := h.pure_pair
      exact ⟨[], yields_pure.2 ⟨rfl, rfl⟩, .nothing⟩
    | some =>
      obtain ⟨rfl, rfl, rfl⟩ := h.pure_pair
      exact ⟨[], yields_pure.2 ⟨rfl, rfl⟩, .close⟩
  | cons _ _ ih =>
    obtain ⟨⟨o, s₁⟩, t₁, htree, h⟩ := h.bind
    obtain ⟨⟨⟨listed, held'⟩, s₂⟩, t₂, hgather, h⟩ := h.bind
    obtain ⟨_, hstep, hgather⟩ := hgather.lift_bind
    obtain ⟨rfl, rfl, rfl⟩ := hgather.pure_pair
    obtain ⟨⟨rest, s₃⟩, t₃, hrest, h⟩ := h.bind
    obtain ⟨rfl, rfl, rfl⟩ := h.pure_pair
    obtain ⟨os, htrees, hos⟩ := ih hrest
    refine ⟨o :: os, ?_, hos.cons hstep⟩
    rw [compileTrees]
    exact yields_bind.2 ⟨_, _, htree, yields_bind.2 ⟨_, _, htrees, yields_pure.2 ⟨rfl, rfl⟩⟩⟩

/-! ### What a listing stands for -/

/-- A listing stands for a run of outcomes: for one tree, or for graphs that were united from left
to right. -/
inductive Stands : List Compiled → Compiled → Prop
  | tree (t : Tree) : Stands [.tree t] (.tree t)
  | graphs {g u : Graph} {gs : List Graph} (united : gs.foldlM Graph.backgroundUnion g = .ok u) :
      Stands ((g :: gs).map .graph) (.graph u)

/-- Listings that stand for consecutive runs of the outcomes, so that each outcome is listed once
and in order. -/
def ListsOnce (os cs : List Compiled) : Prop :=
  ∃ runs : List (List Compiled), runs.flatten = os ∧ List.Forall₂ Stands runs cs

theorem stands_graph (g : Graph) : Stands [.graph g] (.graph g) :=
  @Stands.graphs g g [] rfl

theorem Stands.snoc (h : Stands run (.graph g)) (hu : g.backgroundUnion g' = .ok u) :
    Stands (run ++ [.graph g']) (.graph u) := by
  cases h with
  | @graphs g₀ _ gs united =>
    have hunited : (gs ++ [g']).foldlM Graph.backgroundUnion g₀ = .ok u := by
      rw [foldlM_append]
      exact bind_eq_ok.2 ⟨g, united, bind_eq_ok.2 ⟨u, hu, rfl⟩⟩
    simpa using Stands.graphs hunited

theorem ListsOnce.nil : ListsOnce [] [] := ⟨[], rfl, .nil⟩

theorem ListsOnce.cons {run os cs : List Compiled} {c : Compiled} (h : ListsOnce os cs)
    (hrun : Stands run c) : ListsOnce (run ++ os) (c :: cs) := by
  obtain ⟨runs, rfl, hruns⟩ := h
  exact ⟨run :: runs, rfl, .cons hrun hruns⟩

/-- The union of graphs with different nodes has the nodes of all. -/
theorem keys_foldlM_backgroundUnion {gs : List Graph}
    (hnodup : (((g :: gs).map Compiled.graph).flatMap numbers).Nodup)
    (h : gs.foldlM Graph.backgroundUnion g = .ok u) :
    u.nodes.keys = ((g :: gs).map Compiled.graph).flatMap numbers := by
  induction gs generalizing g with
  | nil =>
    cases h
    exact (append_nil _).symm
  | cons g' _ ih =>
    obtain ⟨v, hv, h⟩ := bind_eq_ok.1 h
    simp only [map_cons, flatMap_cons, ← List.append_assoc] at hnodup ih ⊢
    have hkeys : v.nodes.keys = g.nodes.keys ++ g'.nodes.keys :=
      (@Graph.keys_union { g with background := g'.background } g' v hnodup.of_append_left
        (Graph.backgroundUnion_eq_ok hv)).1
    have hv : (Compiled.graph v).numbers = (Compiled.graph g).numbers ++
      (Compiled.graph g').numbers := hkeys
    rw [← hv] at hnodup ⊢
    exact ih hnodup h

/-- **The union that stands for a run has the nodes of the run.** -/
theorem Stands.numbers_eq (h : Stands run c) (hnodup : (run.flatMap numbers).Nodup) :
    c.numbers = run.flatMap numbers := by
  cases h with
  | tree => rfl
  | graphs united => exact keys_foldlM_backgroundUnion hnodup united

/-- If every outcome is listed once, so is every node. -/
theorem ListsOnce.numbers_eq (h : ListsOnce os cs) (hnodup : (os.flatMap numbers).Nodup) :
    cs.flatMap numbers = os.flatMap numbers := by
  obtain ⟨runs, rfl, hruns⟩ := h
  induction hruns with
  | nil => rfl
  | @cons run c runs cs hrun hruns ih =>
    rw [flatten_cons, flatMap_append] at hnodup ⊢
    rw [flatMap_cons, hrun.numbers_eq hnodup.of_append_left, ih hnodup.of_append_right]

/-! ### When every outcome is listed once -/

/-- What is held, as an outcome. -/
def heldOutcome (held : Option Gathering) : List Compiled :=
    (held.map fun a => Compiled.graph a.graph).toList

theorem isChain_tree_cons {t : Tree} : (Compiled.tree t :: os).IsChain Followed ↔
    os.IsChain Followed := by
  cases os with
  | nil => simp
  | cons => simp [Followed, inBackground]

theorem isChain_graph_cons (h : ¬ g.background) :
    (Compiled.graph g :: os).IsChain Followed ↔ os.IsChain Followed := by
  cases os with
  | nil => simp
  | cons => simp [Followed, inBackground, h]

/-- Only whether a graph is in the background matters for what follows it. -/
theorem isChain_graph_congr (h : u.background = g.background) :
    (Compiled.graph g :: os).IsChain Followed ↔ (Compiled.graph u :: os).IsChain Followed := by
  cases os with
  | nil => simp
  | cons => simp [Followed, inBackground, h]

theorem isChain_cons_graph {a : Compiled} :
    (a :: .graph g :: os).IsChain Followed ↔ (Compiled.graph g :: os).IsChain Followed := by
  simp [Followed, graph?]

/-- What can be held while every outcome is listed once: nothing, or the union of a run that is in
the background and was not listed yet. -/
inductive Holds : Option Gathering → List Compiled → Prop
  | nothing : Holds none []
  | run {run : List Compiled} {g : Graph} (background : g.background)
      (stands : Stands run (.graph g)) : Holds (some { graph := g }) run

/-- Where graphs in the background are followed by graphs, every outcome is listed once. -/
theorem listsOnce_of_isChain (hheld : Holds held run) (h : Lists held os cs)
    (hchain : (heldOutcome held ++ os).IsChain Followed) : ListsOnce (run ++ os) cs := by
  induction h generalizing run with
  | nothing =>
    cases hheld
    exact .nil
  | close =>
    cases hheld with
    | run _ stands => exact ListsOnce.nil.cons stands
  | tree _ ih =>
    cases hheld
    exact (ih .nothing (isChain_tree_cons.1 hchain)).cons (.tree _)
  | graph front _ ih =>
    cases hheld
    exact (ih .nothing ((isChain_graph_cons front).1 hchain)).cons (stands_graph _)
  | hold background _ ih =>
    cases hheld
    exact ih (.run background (stands_graph _)) hchain
  | meet _ _ =>
    cases hheld with
    | run background => exact absurd ((isChain_cons_cons.1 hchain).1 background) (by simp [graph?])
  | unite united background _ ih =>
    cases hheld with
    | run _ stands =>
      have hback := Graph.background_backgroundUnion united
      rw [append_cons]
      exact ih (.run background (stands.snoc united))
        ((isChain_graph_congr hback).1 (isChain_cons_graph.1 hchain))
  | complete united front _ ih =>
    cases hheld with
    | run _ stands =>
      have hback := Graph.background_backgroundUnion united
      rw [append_cons]
      have honce := ih .nothing
        ((isChain_graph_cons (hback ▸ front)).1 (isChain_cons_graph.1 hchain))
      exact honce.cons (stands.snoc united)

/-- A graph with nodes is listed twice. -/
def ListsTwice (cs : List Compiled) : Prop :=
    ∃ u : Graph, u.nodes.keys ≠ [] ∧ [.graph u, .graph u].Sublist cs

theorem ListsTwice.mono {cs' : List Compiled} (h : ListsTwice cs) (hsub : cs.Sublist cs') :
    ListsTwice cs' := by
  obtain ⟨u, hu, htwice⟩ := h
  exact ⟨u, hu, htwice.trans hsub⟩

theorem ListsTwice.not_nodup (h : ListsTwice cs) : ¬ (cs.flatMap numbers).Nodup := by
  obtain ⟨u, hu, htwice⟩ := h
  intro hnodup
  have hsub : (u.nodes.keys ++ u.nodes.keys).Sublist (cs.flatMap numbers) := by
    simpa [numbers] using htwice.flatMap numbers
  obtain ⟨k, hk⟩ := exists_mem_of_ne_nil _ hu
  exact (nodup_append.1 (hnodup.sublist hsub)).2.2 k hk k hk rfl

theorem listsTwice_complete (hnodes : a.graph.nodes.keys ≠ []) (h : none ∈ a.listed) :
    ListsTwice ({ a with listed := a.listed ++ [none] } : Gathering).complete := by
  refine ⟨a.graph, hnodes, ?_⟩
  have hsub : [none, none].Sublist (a.listed ++ [none]) :=
    (singleton_sublist.2 h).append (List.Sublist.refl [none])
  exact hsub.map fun c => c.getD (.graph a.graph)

theorem keys_ne_nil_of_backgroundUnion (hg : g.nodes.keys ≠ [])
    (hu : g.backgroundUnion g' = .ok u) : u.nodes.keys ≠ [] := by
  obtain ⟨k, hk⟩ := exists_mem_of_ne_nil _ hg
  exact ne_nil_of_mem (Graph.mem_keys_backgroundUnion hk hu)

/-- A graph follows whatever is held. -/
theorem broken_of_graph
    (h : (∃ a' ∈ some a, none ∈ a'.listed) ∨
      ¬ (heldOutcome (some a) ++ .graph g :: os).IsChain Followed) :
    none ∈ a.listed ∨ ¬ (Compiled.graph g :: os).IsChain Followed := by
  simpa [heldOutcome, Followed, graph?] using h

/-- Where a graph in the background is followed by a tree, it is listed twice. -/
theorem listsTwice_of_not_isChain (hheld : ∀ a ∈ held, a.graph.background ∧ a.graph.nodes.keys ≠ [])
    (hnodes : ∀ o ∈ os, o.HasNodes) (h : Lists held os cs)
    (hbroken : (∃ a ∈ held, none ∈ a.listed) ∨ ¬ (heldOutcome held ++ os).IsChain Followed) :
    ListsTwice cs := by
  induction h with
  | nothing => exact absurd hbroken (by simp [heldOutcome])
  | @close a =>
    have hlisted : none ∈ a.listed := by simpa [heldOutcome] using hbroken
    exact listsTwice_complete (hheld a rfl).2 hlisted
  | tree _ ih =>
    obtain ⟨-, hos⟩ := forall_mem_cons.1 hnodes
    have hrest := hbroken.resolve_left (by simp)
    exact (ih (by simp) hos (.inr (mt isChain_tree_cons.2 hrest))).mono (sublist_cons_self _ _)
  | graph front _ ih =>
    obtain ⟨-, hos⟩ := forall_mem_cons.1 hnodes
    have hrest := hbroken.resolve_left (by simp)
    exact (ih (by simp) hos (.inr (mt (isChain_graph_cons front).2 hrest))).mono
      (sublist_cons_self _ _)
  | hold background _ ih =>
    obtain ⟨hg, hos⟩ := forall_mem_cons.1 hnodes
    exact ih (by simpa using ⟨background, hg rfl⟩) hos (.inr (hbroken.resolve_left (by simp)))
  | @meet a t _ _ _ ih =>
    obtain ⟨-, hos⟩ := forall_mem_cons.1 hnodes
    exact ih (by simpa using hheld a rfl) hos (.inl ⟨_, rfl, by simp⟩)
  | @unite a g u os _ united background _ ih =>
    obtain ⟨-, hos⟩ := forall_mem_cons.1 hnodes
    have hkeys := keys_ne_nil_of_backgroundUnion (hheld a rfl).2 united
    refine ih (by simpa using ⟨background, hkeys⟩) hos
      ((broken_of_graph hbroken).imp (fun h => ⟨_, rfl, h⟩) ?_)
    exact mt (isChain_graph_congr (Graph.background_backgroundUnion united)).2
  | @complete a g u os cs united front _ ih =>
    obtain ⟨-, hos⟩ := forall_mem_cons.1 hnodes
    have hkeys := keys_ne_nil_of_backgroundUnion (hheld a rfl).2 united
    rcases broken_of_graph hbroken with hlisted | hrest
    · exact (listsTwice_complete (a := { a with graph := u }) hkeys hlisted).mono
        (sublist_append_left _ _)
    · rw [isChain_graph_cons (Graph.background_backgroundUnion united ▸ front)] at hrest
      exact (ih (by simp) hos (.inr hrest)).mono (sublist_append_right _ _)

/-- **Outcomes are listed once if and only if those in the background are followed by graphs.** -/
theorem listsOnce_iff (hnodup : (os.flatMap numbers).Nodup) (hnodes : ∀ o ∈ os, o.HasNodes)
    (h : Lists none os cs) : ListsOnce os cs ↔ os.IsChain Followed := by
  constructor
  · intro honce
    by_contra hbroken
    have htwice := listsTwice_of_not_isChain (by simp) hnodes h (.inr hbroken)
    exact htwice.not_nodup (honce.numbers_eq hnodup ▸ hnodup)
  · intro hchain
    exact listsOnce_of_isChain .nothing h hchain

/-- **Every tree of a region is listed once and in order if and only if graphs in the background are
followed by graphs.** -/
theorem compileAll_listsOnce_iff {trees : List Tree} {s s' : ChannelSource} {t t' : Supply}
    {cs : List Compiled} (h : Yields (compileAll none trees s) t (cs, s') t') :
    ∃ os, Yields (compileTrees trees s) t (os, s') t' ∧
    (ListsOnce os cs ↔ os.IsChain Followed) := by
  obtain ⟨os, hos, hlists⟩ := exists_outcomes_of_compileAll h
  obtain ⟨hfresh, hnodes⟩ := numbered_outcomes hos
  exact ⟨os, hos, listsOnce_iff hfresh.nodup hnodes hlists⟩

/-- `sort < names &` -/
def sortingBehind : Tree :=
  .scope .background 1 (.command 1 [] [Word.ofString "sort"] [.inputFrom (Word.ofString "names")])
    []

/-- `who` -/
def listing : Tree := .command 1 [] [Word.ofString "who"] []

theorem compileAll_listsOnce_sortingBehind : ∃ cs s' t' os,
    Yields (compileAll none [sortingBehind, sortingBehind, listing, listing] ⟨1, ""⟩) {}
    (cs, s') t' ∧
      Yields (compileTrees [sortingBehind, sortingBehind, listing, listing] ⟨1, ""⟩) {}
      (os, s') t' ∧ cs.length = 2 ∧ ListsOnce os cs := by
  obtain ⟨⟨cs, s'⟩, t', hy, hlength⟩ := @exists_yields_of_any _
    (compileAll none [sortingBehind, sortingBehind, listing, listing] ⟨1, ""⟩) {}
      (fun r => r.1.length == 2)
    (by decide +kernel)
  obtain ⟨os, hos, honce⟩ := compileAll_listsOnce_iff hy
  obtain ⟨r, t'', hr, hchain⟩ := @exists_yields_of_any _
    (compileTrees [sortingBehind, sortingBehind, listing, listing] ⟨1, ""⟩) {}
      (fun r => decide (r.1.IsChain Followed))
    (by decide +kernel)
  obtain ⟨rfl, -⟩ := hr.unique hos
  exact ⟨cs, s', t', os, hy, hos, by simpa using hlength, honce.2 (of_decide_eq_true hchain)⟩

/-- A graph in the background and a tree behind it make three listings of two outcomes. -/
theorem compileAll_not_listsOnce : ∃ cs s' t' os,
    Yields (compileAll none [sortingBehind, .join .semi listing listing] ⟨1, ""⟩) {} (cs, s') t' ∧
      Yields (compileTrees [sortingBehind, .join .semi listing listing] ⟨1, ""⟩) {} (os, s') t' ∧
      os.map numbers = [[0], []] ∧ cs.map numbers = [[0], [], [0]] ∧ ¬ ListsOnce os cs := by
  obtain ⟨⟨cs, s'⟩, t', hy, hcs⟩ := @exists_yields_of_any _
    (compileAll none [sortingBehind, .join .semi listing listing] ⟨1, ""⟩) {}
    (fun r => r.1.map numbers == [[0], [], [0]]) (by decide +kernel)
  obtain ⟨os, hos, -⟩ := exists_outcomes_of_compileAll hy
  obtain ⟨r, t'', hr, htest⟩ := @exists_yields_of_any _
    (compileTrees [sortingBehind, .join .semi listing listing] ⟨1, ""⟩) {}
    (fun r => r.1.map numbers == [[0], []]) (by decide +kernel)
  obtain ⟨rfl, -⟩ := hr.unique hos
  replace hcs : cs.map numbers = [[0], [], [0]] := by simpa using hcs
  have hnumbers : os.map numbers = [[0], []] := by simpa using htest
  refine ⟨cs, s', t', os, hy, hos, hnumbers, hcs, fun honce => ?_⟩
  have hnodes := honce.numbers_eq (numbered_outcomes hos).1.nodup
  rw [List.flatMap_def, List.flatMap_def, hcs, hnumbers] at hnodes
  cases hnodes

end ShellFlow
