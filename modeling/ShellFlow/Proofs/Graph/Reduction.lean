import ShellFlow.Graph.Reduce
import ShellFlow.Proofs.Graph.Streams

/-!
# What a reduction tree computes

The calls of a reduction tree take open edges from left to right and put fresh ones behind them.  So
every edge is read once, and the order of the groups is kept from level to level: with an
associative command the last group holds the fold of all groups from the left.
-/

namespace ShellFlow

open List
open ShellFlow.Graph (freshIds freshIds_append freshPipes_spec length_freshIds mem_freshIds)

variable {A : Type} {op : A → A → A} {value : List Int → A} {calls : List (List Int × List Int)}
  {next next' : Int}
  {w : Nat} {groups groups' front back shape : List (List Int)} {a b root : List Int}
    {s : ChannelSource}

/-- Calls that combine neighbouring groups of one width, one after the other: from the first free
number and the groups in front of the calls to those behind. -/
inductive Chain (w : Nat) : Int → List (List Int) → List (List Int × List Int) → Int →
    List (List Int) → Prop
  | nil {next : Int} {groups : List (List Int)} : Chain w next groups [] next groups
  | cons {next next' : Int} {front back groups' : List (List Int)} {a b : List Int}
      {calls : List (List Int × List Int)} (ha : a.length = w) (hb : b.length = w)
      (rest : Chain w (next + w) (front ++ freshIds next w :: back) calls next' groups') :
      Chain w next (front ++ a :: b :: back) ((a ++ b, freshIds next w) :: calls) next' groups'

/-- Calls compute an operation on the values of groups of one width. -/
def Computes (op : A → A → A) (value : List Int → A) (w : Nat)
    (calls : List (List Int × List Int)) : Prop :=
  ∀ a b outs, (a ++ b, outs) ∈ calls → a.length = w → b.length = w →
    value outs = op (value a) (value b)

def foldFirst (op : A → A → A) (default : A) : List A → A
  | [] => default
  | a :: as => as.foldl op a

namespace Chain

theorem trans {next'' : Int} {groups'' : List (List Int)} {calls' : List (List Int × List Int)}
    (h : Chain w next groups calls next' groups')
    (h' : Chain w next' groups' calls' next'' groups'') :
    Chain w next groups (calls ++ calls') next'' groups'' := by
  induction h with
  | nil => exact h'
  | cons ha hb _ ih => exact .cons ha hb (ih h')

section

variable (h : Chain w next groups calls next' groups')
include h

theorem width (hgroups : ∀ g ∈ groups, g.length = w) :
    ∀ g ∈ groups', g.length = w := by
  induction h with
  | nil => exact hgroups
  | cons _ _ _ ih =>
    refine ih fun g hg => ?_
    simp only [mem_append, mem_cons] at hg hgroups
    rcases hg with hg | rfl | hg
    · exact hgroups g (.inl hg)
    · exact length_freshIds _ _
    · exact hgroups g (.inr (.inr (.inr hg)))

/-- A call reads two groups and writes one. -/
theorem calls_width : ∀ c ∈ calls, c.1.length = w + w ∧ c.2.length = w := by
  induction h with
  | nil => simp
  | cons ha hb _ ih =>
    exact forall_mem_cons.2 ⟨⟨by rw [length_append, ha, hb], length_freshIds _ _⟩, ih⟩

/-- Every call leaves one group less. -/
theorem length_eq : calls.length + groups'.length = groups.length := by
  induction h with
  | nil => simp
  | cons _ _ _ ih =>
    simp only [length_append, length_cons] at ih ⊢
    omega

end

/-- The only group that is left is what the last call writes, if there is one. -/
theorem last (h : Chain w next groups calls next' [root]) :
    calls = [] ∧ groups = [root] ∨ (calls.map (·.2)).getLast? = some root := by
  generalize hroot : [root] = groups' at h
  induction h with
  | nil => exact .inl ⟨rfl, rfl⟩
  | cons _ _ _ ih =>
    refine .inr ?_
    rcases ih hroot with ⟨rfl, hlast⟩ | hlast
    · rw [← hroot, append_eq_singleton_iff] at hlast
      simp only [cons_ne_nil, and_false, or_false, cons.injEq] at hlast
      simp [hlast.2.1]
    · rw [map_cons, getLast?_cons, hlast]
      rfl

/-- What is read and what is left open, is what was open and what is written. -/
theorem perm (h : Chain w next groups calls next' groups') :
    (reads calls ++ groups'.flatten).Perm (groups.flatten ++ writes calls) := by
  induction h with
  | nil => simp
  | cons _ _ _ ih =>
    rw [perm_iff_count] at ih ⊢
    intro i
    have hi := ih i
    simp only [reads_cons, writes_cons, flatten_append, flatten_cons, count_append] at hi ⊢
    omega

theorem writes_eq (h : Chain w next groups calls next' groups') :
    ∃ k : Nat, writes calls = freshIds next k ∧ next' = next + k := by
  induction h with
  | nil => exact ⟨0, rfl, by simp⟩
  | cons _ _ _ ih =>
    obtain ⟨j, hwrites, rfl⟩ := ih
    refine ⟨w + j, ?_, by omega⟩
    rw [writes_cons, hwrites, freshIds_append]

/-- Open edges have smaller numbers than those that are still to come, behind a call too. -/
theorem lt_step (hlt : ∀ i ∈ (front ++ a :: b :: back).flatten, i < next) :
    ∀ i ∈ (front ++ freshIds next w :: back).flatten, i < next + w := by
  intro i hi
  simp only [flatten_append, flatten_cons, mem_append] at hi hlt
  rcases hi with hi | hi | hi
  · have := hlt i (.inl hi)
    omega
  · exact (mem_freshIds.1 hi).2
  · have := hlt i (.inr (.inr (.inr hi)))
    omega

/-- A call writes greater numbers than it reads, and so do all later calls. -/
theorem causal (h : Chain w next groups calls next' groups')
    (hlt : ∀ i ∈ groups.flatten, i < next) : Causal calls := by
  induction h with
  | nil => exact ⟨by simp, .nil⟩
  | @cons next _ front back _ a b calls _ _ hchain ih =>
    have hrest := ih (lt_step hlt)
    obtain ⟨all, hwrites, -⟩ := hchain.writes_eq
    have hfirst : ∀ i ∈ a ++ b, i < next := by
      intro i hi
      rcases mem_append.1 hi with hi | hi
      · exact hlt i (mem_flatten.2 ⟨a, by simp, hi⟩)
      · exact hlt i (mem_flatten.2 ⟨b, by simp, hi⟩)
    refine ⟨forall_mem_cons.2 ⟨fun i hi j hj => ?_, hrest.own⟩,
      pairwise_cons.2 ⟨fun c hc i hi j hj => ?_, hrest.later⟩⟩
    · exact Int.lt_of_lt_of_le (hfirst i hi) (mem_freshIds.1 hj).1
    · have hmem : j ∈ writes calls := mem_flatMap.2 ⟨c, hc, hj⟩
      rw [hwrites] at hmem
      have := hfirst i hi
      have := (mem_freshIds.1 hmem).1
      omega

/-- **With an associative operation the fold of the groups stays the same.** -/
theorem value_eq (h : Chain w next groups calls next' groups')
    (hassoc : ∀ a b c, op (op a b) c = op a (op b c)) (hcalls : Computes op value w calls) (d : A) :
    foldFirst op d (groups'.map value) = foldFirst op d (groups.map value) := by
  induction h with
  | nil => rfl
  | @cons _ _ front _ _ a b _ ha hb _ ih =>
    have hvalue := hcalls a b _ mem_cons_self ha hb
    rw [ih fun c d outs hmem => hcalls c d outs (mem_cons_of_mem _ hmem)]
    cases front with
    | nil => simp [foldFirst, hvalue]
    | cons => simp [foldFirst, hvalue, hassoc]

end Chain

/-! ### Plans -/

/-- Pairs are taken from the front of the groups, behind groups that pass by or were made before. -/
theorem pairUp_chain (hshape : ∀ g ∈ shape, g.length = w) (hgroups : ∀ g ∈ groups, g.length = w)
    (hlen : groups.length ≤ shape.length) (heven : groups.length % 2 = 0)
    (front : List (List Int)) :
      Chain w s.next (front ++ groups) (pairUp s shape groups).calls
      (pairUp s shape groups).source.next (front ++ (pairUp s shape groups).groups) := by
  fun_induction pairUp s shape groups generalizing front with
  | case1 s shape a b rest made ids plan ih =>
    obtain _ | ⟨first, shape⟩ := shape
    · simp at hlen
    simp only [length_cons] at hlen heven
    obtain ⟨hids, hnext⟩ := freshPipes_spec s first.length
    have hids : ids = freshIds s.next first.length := hids
    have hmade : made.2.next = s.next + first.length := hnext
    rw [hshape first mem_cons_self] at hids hmade
    have hrest := ih (fun g hg => hshape g (mem_of_mem_drop hg))
      (fun g hg => hgroups g (by simp [hg]))
      (by rw [length_drop, length_cons]; omega) (by omega) (front ++ [ids])
    rw [hmade, List.append_assoc, List.append_assoc, hids] at hrest
    have hcons := Chain.cons (hgroups a (by simp)) (hgroups b (by simp)) hrest
    rwa [← hids] at hcons
  | case2 groups s _ hnone =>
    obtain _ | ⟨a, _ | ⟨b, rest⟩⟩ := groups
    · exact .nil
    · simp at heven
    · exact absurd rfl (hnone a b rest)

theorem reduceLevel_chain (hgroups : ∀ g ∈ groups, g.length = w) :
    Chain w s.next groups (reduceLevel s groups).calls (reduceLevel s groups).source.next
      (reduceLevel s groups).groups := by
  unfold reduceLevel
  split
  · next heven => exact pairUp_chain hgroups hgroups (Nat.le_refl _) heven []
  · next hodd =>
    obtain _ | ⟨first, rest⟩ := groups
    · simp at hodd
    · have heven : rest.length % 2 = 0 := by simp only [length_cons] at hodd; omega
      exact pairUp_chain hgroups (fun g hg => hgroups g (mem_cons_of_mem _ hg))
        (by simp) heven [first]

/-- **A plan combines all groups into one.** -/
theorem reducePlan_chain (hne : groups ≠ []) (hgroups : ∀ g ∈ groups, g.length = w) :
    ∃ root, (reducePlan s groups).groups = [root] ∧ root.length = w ∧
      Chain w s.next groups (reducePlan s groups).calls (reducePlan s groups).source.next
      [root] := by
  fun_induction reducePlan s groups with
  | case1 s groups hone =>
    obtain _ | ⟨root, _ | ⟨_, _⟩⟩ := groups
    · exact absurd rfl hne
    · exact ⟨root, rfl, hgroups root mem_cons_self, .nil⟩
    · simp at hone
  | case2 s groups hmany level _ rest ih =>
    have hlevel : Chain w s.next groups level.calls level.source.next level.groups :=
      reduceLevel_chain hgroups
    have hlen : level.groups.length = (groups.length + 1) / 2 := length_reduceLevel s groups
    obtain ⟨root, hroot, hwidth, hrest⟩ :=
      ih (ne_nil_of_length_pos (by omega)) (hlevel.width hgroups)
    exact ⟨root, hroot, hwidth, hlevel.trans hrest⟩

theorem drains_spec (s : ChannelSource) (k : Nat) :
    (drains s k).1.map (·.ident) = freshIds s.next k ∧ (drains s k).2.next = s.next + k := by
  induction k generalizing s with
  | zero => simp [drains, freshIds]
  | succ k ih =>
    obtain ⟨hids, hnext⟩ := ih (s.freshFor (.file (Word.ofString "/dev/null"))).2
    have hfirst : (s.freshFor (.file (Word.ofString "/dev/null"))).2.next = s.next + 1 := rfl
    rw [hfirst] at hids hnext
    constructor
    · rw [freshIds, ← hids]
      rfl
    · show (drains (s.freshFor (.file (Word.ofString "/dev/null"))).2 k).2.next = _
      omega

end ShellFlow
