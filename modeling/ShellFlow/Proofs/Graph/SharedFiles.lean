import ShellFlow.Proofs.Graph.Replacing
import ShellFlow.Proofs.Shell.Sameness

/-!
# Files that are written and read

The edges that stand for files are taken up node by node, and every other place at which the file of
such an edge is written gets this edge.  A later edge with the same file gets the place in turn, so
behind all joins a file is written on the last of its edges that was taken up.
-/

namespace ShellFlow.Graph

open List
open Relation (TransGen)

variable {g g' c c' : Graph} {i j k n o x : Int} {taken : List Int}

/-- A graph whose files can be joined: no number is used twice, edges and nodes agree, and the
comparison of files is symmetric and transitive. -/
structure Joinable (g : Graph) : Prop where
  tidy : g.Tidy
  consistent : g.consistent? = .ok true
  symm {i j : Int} : g.sameFile i j → g.sameFile j i
  trans {i j k : Int} : g.sameFile i j → g.sameFile j k → g.sameFile i k

theorem sameFile_iff : g.sameFile i j ↔
    ∃ v w, g.resource? i = some (.file v) ∧ g.resource? j = some (.file w) ∧ Word.same v w := by
  simp only [sameFile, Option.any_eq_true]
  constructor
  · rintro ⟨r, hr, r', hr', hsame⟩
    cases r with
    | file v =>
      cases r' with
      | file w => exact ⟨v, w, hr, hr', hsame⟩
      | _ => cases hsame
    | _ => cases hsame
  · rintro ⟨v, w, hv, hw, hsame⟩
    exact ⟨_, hv, _, hw, hsame⟩

/-- The files of a graph can be joined if their names are well-formed. -/
theorem joinable_of_wellFormed (htidy : g.Tidy) (hcons : g.consistent? = .ok true)
    (hwords : ∀ p ∈ g.edges.entries, ∀ w, p.2.channel.resource = some (.file w) →
      Word.WellFormed w) : g.Joinable := by
  have hclass : ∀ i v, g.resource? i = some (.file v) → Word.WellFormed v := by
    intro i v hv
    obtain ⟨e, he, hresource⟩ := Option.bind_eq_some_iff.1 hv
    exact hwords _ (Table.mem_entries_of_get? he) v hresource
  refine ⟨htidy, hcons, fun h => ?_, fun h h' => ?_⟩
  · obtain ⟨v, w, hv, hw, hsame⟩ := sameFile_iff.1 h
    exact sameFile_iff.2 ⟨w, v, hw, hv, (Word.isClass v (hclass _ v hv) w hsame).1⟩
  · obtain ⟨u, v, hu, hv, hsame⟩ := sameFile_iff.1 h
    obtain ⟨v', w, hv', hw, hsame'⟩ := sameFile_iff.1 h'
    cases Option.some.inj (hv.symm.trans hv')
    exact sameFile_iff.2 ⟨u, w, hu, hw, (Word.isClass u (hclass _ u hu) v hsame).2 w hsame'⟩

/-! ### All joins -/

/-- The node that writes the file of an edge on another edge, or else the one that writes this edge.
-/
def writer (g : Graph) (i : Int) : Option Int := g.writerAfter (g.rivals i) i

/-- A node writes the file of an edge. -/
def writesFile (g : Graph) (k i : Int) : Bool := (g.outputsAt k).any (g.sameFile i)

/-- The edge that stands for the file of an edge when some edges have been taken up: the last of
them with this file. -/
def joint (g : Graph) (taken : List Int) (i : Int) : Int :=
    (taken.filter (g.sameFile i)).getLast?.getD i

/-- What becomes of an input of a node.  If the node writes the file itself, the input goes on to be
its output as soon as it is. -/
def turned (g : Graph) (taken : List Int) (k i : Int) : Int :=
  if g.writesFile k i ∧ (i ∈ g.outputsAt k ∨ i ∈ taken) then g.joint taken i else i

/-- The node that writes an edge when some edges have been taken up. -/
def sourceAfter (g : Graph) (taken : List Int) (i : Int) : Option Int :=
  if g.joint taken i = i then if i ∈ taken then g.writer i else g.view.source i else none

/-- What has become of a graph when the writers of files have been joined to the edges `taken`, one
by one. -/
structure Joining (g : Graph) (taken : List Int) (c : Graph) : Prop extends Kept g c where
  inputs k : c.inputsAt k = (g.inputsAt k).map (g.turned taken k)
  outputs k : c.outputsAt k = (g.outputsAt k).map (g.joint taken)
  source i : c.view.source i = g.sourceAfter taken i
  listed k i : i ∈ c.inputsAt k ∨ i ∈ c.outputsAt k → i ∈ g.edges.keys
  few : ∀ x ∈ taken, (g.rivals x).length ≤ 1

namespace Joinable

theorem source (hg : g.Joinable) : g.view.source i = some k ↔ i ∈ g.outputsAt k :=
  ((listed_of_consistent hg.consistent).1 i k).trans mem_outputsAt.symm

theorem target (hg : g.Joinable) : g.view.target i = some k ↔ i ∈ g.inputsAt k :=
  ((listed_of_consistent hg.consistent).2 i k).trans mem_inputsAt.symm

theorem comm (hg : g.Joinable) (i j : Int) : g.sameFile i j = g.sameFile j i :=
    Bool.eq_iff_iff.2 ⟨hg.symm, hg.symm⟩

theorem self (hg : g.Joinable) (h : g.sameFile i j) : g.sameFile i i := hg.trans h (hg.symm h)

theorem congr (hg : g.Joinable) (h : g.sameFile i j) : g.sameFile i = g.sameFile j := by
  funext k
  exact Bool.eq_iff_iff.2 ⟨hg.trans (hg.symm h), hg.trans h⟩

end Joinable

theorem writesFile_iff : g.writesFile k i ↔ ∃ o ∈ g.outputsAt k, g.sameFile i o := any_eq_true

theorem joint_concat (g : Graph) (taken : List Int) (x i : Int) :
    g.joint (taken ++ [x]) i = if g.sameFile i x then x else g.joint taken i := by
  cases h : g.sameFile i x <;> simp [joint, filter_append, h]

theorem joint_cases (g : Graph) (taken : List Int) (i : Int) :
    (g.joint taken i = i ∧ ∀ x ∈ taken, g.sameFile i x = false) ∨
      (g.joint taken i ∈ taken ∧ g.sameFile i (g.joint taken i)) := by
  unfold joint
  cases h : (taken.filter (g.sameFile i)).getLast? with
  | none => exact .inl ⟨rfl, by simpa using h⟩
  | some => exact .inr (mem_filter.1 (mem_of_getLast? h))

theorem sameFile_joint (hg : g.Joinable) (k i : Int) :
    g.sameFile k (g.joint taken i) = g.sameFile k i := by
  rcases g.joint_cases taken i with ⟨h, -⟩ | ⟨-, h⟩
  · rw [h]
  · rw [hg.comm k, hg.comm k, hg.congr h]

/-- Edges that stand for one file are joined to one edge. -/
theorem joint_congr (hg : g.Joinable) (h : g.sameFile i j) (hx : x ∈ taken) (hi : g.sameFile i x) :
    g.joint taken i = g.joint taken j := by
  unfold joint
  rw [← hg.congr h]
  cases hlast : (taken.filter (g.sameFile i)).getLast? with
  | none =>
    have hnone : ∀ y ∈ taken, g.sameFile i y = false := by simpa using hlast
    rw [hnone x hx] at hi
    cases hi
  | some => rfl

theorem writer_of_few (hg : g.Joinable) (hi : g.sameFile i i) (hfew : (g.writings i).length ≤ 1) :
    g.writer i = (g.writings i).getLast?.map (·.1) := by
  have hown : ∀ k, g.view.source i = some k ↔ (k, i) ∈ g.writings i := by
    intro k
    rw [hg.source, writings, mem_places, and_iff_left hi]
  rw [writer, writerAfter, rivals_eq_filter]
  rcases hplaces : g.writings i with _ | ⟨⟨n, o⟩, _ | ⟨q, rest⟩⟩
  · exact Option.eq_none_iff_forall_ne_some.2 fun k hk => by simpa [hplaces] using (hown k).1 hk
  · by_cases ho : i = o
    · have hsource := (hown n).2 (by rw [hplaces, ho]; exact mem_cons_self)
      simp [← ho, hsource]
    · simp [ho]
  · simp [hplaces] at hfew

namespace Joining

section

variable (h : g.Joining taken c)
include h

theorem writings (hg : g.Joinable) (x : Int) :
    c.writings x = (g.writings x).map fun p => (p.1, g.joint taken p.2) := by
  unfold Graph.writings places
  rw [h.nodes, map_flatMap]
  refine flatMap_congr fun k _ => ?_
  have hsame : c.sameFile x ∘ g.joint taken = g.sameFile x := by
    funext i
    rw [Function.comp_apply, h.sameFile, sameFile_joint hg]
  rw [placesAt, placesAt, h.outputs, filter_map, hsame, map_map, map_map]
  rfl

/-- The places that are left to join to an edge: those at first, none, or all that write the file.
-/
theorem rivals_cases (hg : g.Joinable) (x : Int) :
    (g.joint taken x = x ∧ c.rivals x = g.rivals x) ∨
    (g.joint taken x = x ∧ x ∈ taken ∧ c.rivals x = []) ∨
      (g.joint taken x ≠ x ∧ g.sameFile x x ∧
        c.rivals x = (g.writings x).map fun p => (p.1, g.joint taken x)) := by
  have hmem : ∀ p ∈ g.writings x, g.sameFile x p.2 = true := fun p hp => (mem_places.1 hp).2
  rw [rivals_eq_filter c, h.writings hg]
  rcases g.joint_cases taken x with ⟨hx, hnone⟩ | ⟨hx, hsame⟩
  · refine .inl ⟨hx, ?_⟩
    rw [rivals_eq_filter, (map_congr_left fun p hp => ?_).trans (map_id (g.writings x))]
    rcases g.joint_cases taken p.2 with ⟨hp', -⟩ | ⟨hp', hsame⟩
    · rw [hp']
      rfl
    · rw [← hg.congr (hmem p hp), hnone _ hp'] at hsame
      cases hsame
  · rw [map_congr_left fun p hp => by rw [← joint_congr hg (hmem p hp) hx hsame], filter_map]
    by_cases heq : g.joint taken x = x
    · exact .inr (.inl ⟨heq, heq ▸ hx, by simp [heq, Function.comp_def]⟩)
    · exact .inr (.inr ⟨heq, hg.self hsame, by simp [Ne.symm heq, Function.comp_def]⟩)

/-- If one writer can be joined to an edge, so it can at first. -/
theorem few_of_few (hg : g.Joinable) (hfew : (c.rivals x).length ≤ 1) :
    (g.rivals x).length ≤ 1 := by
  rcases h.rivals_cases hg x with ⟨-, hr⟩ | ⟨-, hx, -⟩ | ⟨-, -, hr⟩
  · rwa [hr] at hfew
  · exact h.few x hx
  · rw [hr, length_map] at hfew
    rw [rivals_eq_filter]
    exact (length_filter_le _ _).trans hfew

/-- The writer that an edge gets does not depend on what was taken up before. -/
theorem writer (hg : g.Joinable) (hfew : (c.rivals x).length ≤ 1) : c.writer x = g.writer x := by
  rw [Graph.writer, writerAfter, h.source, sourceAfter]
  rcases h.rivals_cases hg x with ⟨heq, hr⟩ | ⟨heq, hx, hr⟩ | ⟨hne, hself, hr⟩
  · rw [hr, if_pos heq]
    split
    · rw [Graph.writer, writerAfter]
      cases (g.rivals x).getLast? <;> rfl
    · rfl
  · rw [hr, if_pos heq, if_pos hx]
    rfl
  · rw [hr, length_map] at hfew
    rw [hr, if_neg hne, writer_of_few hg hself hfew]
    cases hlast : (g.writings x).getLast? <;> simp [getLast?_map, hlast]

/-- Who writes an edge lists it. -/
theorem mem_outputsAt (hg : g.Joinable) (hk : c.view.source i = some k) : i ∈ c.outputsAt k := by
  rw [h.source, sourceAfter] at hk
  rw [h.outputs, mem_map]
  split at hk
  · next heq =>
    split at hk
    · next hi =>
      rcases Option.or_eq_some_iff.1 hk with hk | ⟨-, hk⟩
      · obtain ⟨⟨n, o⟩, ho, rfl⟩ := Option.map_eq_some_iff.1 hk
        obtain ⟨hmem, -, hsame⟩ := mem_rivals.1 (mem_of_getLast? ho)
        exact ⟨o, hmem, (joint_congr hg hsame hi (hg.self hsame)).symm.trans heq⟩
      · exact ⟨i, hg.source.1 hk, heq⟩
    · exact ⟨i, hg.source.1 hk, heq⟩
  · cases hk

theorem moved (hi : i ∈ c.outputsAt k) :
    (if (k, i) ∈ c.rivals x then x else i) = if g.sameFile x i then x else i := by
  rcases eq_or_ne x i with rfl | hne <;> simp [mem_rivals, h.sameFile, *]

/-- What becomes of an input. -/
theorem turned_concat (hg : g.Joinable) (x k i : Int) :
    (if (k, g.turned taken k i) ∈ c.rivals x then x else g.turned taken k i) = g.turned
    (taken ++ [x]) k i := by
  by_cases hturned : g.writesFile k i ∧ (i ∈ g.outputsAt k ∨ i ∈ taken)
  · -- the input is the output of the node
    have hmem : g.joint taken i ∈ c.outputsAt k := by
      rw [h.outputs]
      obtain ⟨hwrites, hi | hi⟩ := hturned
      · exact mem_map_of_mem hi
      · obtain ⟨o, ho, hsame⟩ := writesFile_iff.1 hwrites
        rw [joint_congr hg hsame hi (hg.self hsame)]
        exact mem_map_of_mem ho
    have hafter : g.writesFile k i ∧ (i ∈ g.outputsAt k ∨ i ∈ taken ++ [x]) :=
      ⟨hturned.1, hturned.2.imp_right (mem_append_left _)⟩
    rw [turned, if_pos hturned, h.moved hmem, sameFile_joint hg, turned, if_pos hafter,
      joint_concat, hg.comm]
  · have hnot : (k, i) ∉ c.rivals x := by
      rw [mem_rivals, h.sameFile, h.outputs, mem_map]
      rintro ⟨⟨o, ho, rfl⟩, -, hsame⟩
      have hself := hg.self (hg.symm hsame)
      refine hturned ⟨writesFile_iff.2 ⟨o, ho, sameFile_joint hg _ o ▸ hself⟩, ?_⟩
      rcases g.joint_cases taken o with ⟨heq, -⟩ | ⟨hmem, -⟩
      · exact .inl (heq.symm ▸ ho)
      · exact .inr hmem
    rw [turned, if_neg hturned, if_neg hnot, turned]
    split
    · next hafter =>
      obtain rfl : i = x := by
        have hlast := hafter.2
        simp only [mem_append, mem_singleton] at hlast
        tauto
      obtain ⟨o, -, hsame⟩ := writesFile_iff.1 hafter.1
      rw [joint_concat, if_pos (hg.self hsame)]
    · rfl

/-- Who writes an edge. -/
theorem source_concat (hg : g.Joinable) (hfew : (c.rivals x).length ≤ 1)
    (hjoin : c.Joins x (c.rivals x) c') (i : Int) :
    c'.view.source i = g.sourceAfter (taken ++ [x]) i := by
  rw [hjoin.source, sourceAfter, joint_concat]
  rcases eq_or_ne i x with rfl | hne
  · have hjoint : (if g.sameFile i i then i else g.joint taken i) = i := by
      split
      · rfl
      · next hself =>
        rcases g.joint_cases taken i with ⟨heq, -⟩ | ⟨-, hsame⟩
        · exact heq
        · exact absurd (hg.self hsame) hself
    rw [hjoint, if_pos rfl, if_pos rfl, if_pos (by simp)]
    exact h.writer hg hfew
  · rw [if_neg hne]
    by_cases hsame : g.sameFile x i = true
    · rw [hg.comm i, if_pos hsame, if_neg hne.symm]
      split
      · rfl
      · next hnone =>
        refine Option.eq_none_iff_forall_ne_some.2 fun k hk => hnone (mem_map.2 ⟨(k, i), ?_, rfl⟩)
        exact mem_rivals.2 ⟨h.mem_outputsAt hg hk, hne.symm, h.sameFile ▸ hsame⟩
    · have hnot : i ∉ (c.rivals x).map (·.2) := by
        rw [mem_map]
        rintro ⟨p, hp, rfl⟩
        exact hsame (h.sameFile ▸ (mem_rivals.1 hp).2.2)
      rw [if_neg hnot, hg.comm i, if_neg hsame, h.source, sourceAfter]
      simp [hne]

/-- **One more edge is taken up.** -/
theorem step (hg : g.Joinable) (hx : x ∈ g.edges.keys) (hfew : (c.rivals x).length ≤ 1)
    (hjoin : c.Joins x (c.rivals x) c') : g.Joining (taken ++ [x]) c' where
  toKept := h.toKept.trans hjoin.toKept
  inputs k := by
    rw [hjoin.inputs, h.inputs, map_map]
    exact map_congr_left fun i _ => h.turned_concat hg x k i
  outputs k := by
    rw [hjoin.outputs, h.outputs, map_map]
    refine map_congr_left fun o ho => ?_
    have hmem : g.joint taken o ∈ c.outputsAt k := h.outputs k ▸ mem_map_of_mem ho
    rw [Function.comp_apply, h.moved hmem, sameFile_joint hg, joint_concat, hg.comm]
  source := h.source_concat hg hfew hjoin
  listed k i hi := by
    rw [hjoin.inputs, hjoin.outputs, mem_map, mem_map] at hi
    have hlisted := h.listed k
    grind
  few y hy := by
    rcases mem_append.1 hy with hy | hy
    · exact h.few y hy
    · obtain rfl := mem_singleton.1 hy
      exact h.few_of_few hg hfew

end

end Joining

/-- The edges on which files are read. -/
def readings (g : Graph) : List Int := g.nodes.keys.flatMap fun k => (g.inputsAt k).filter g.isFile

/-- The edges that are taken up behind others when it is the turn of a node. -/
def turn (g : Graph) (taken : List Int) (k : Int) : List Int :=
  taken ++ ((g.inputsAt k).map (g.turned taken k)).filter g.isFile

/-- The edges in the order in which they are taken up. -/
def order (g : Graph) : List Int := g.nodes.keys.foldl g.turn []

theorem joining_start (hg : g.Joinable) : g.Joining [] g where
  nodes := rfl
  edges := rfl
  edge _ := rfl
  inputs k := ((map_congr_left fun i _ => by simp [turned, joint]).trans (map_id _)).symm
  outputs k := ((map_congr_left fun i _ => rfl).trans (map_id _)).symm
  source i := by simp [sourceAfter, joint]
  listed k i hi := by
    obtain hk | hk := hi.imp hg.target.2 hg.source.2 <;> obtain ⟨e, he, -⟩ :=
      Option.bind_eq_some_iff.1 hk <;>
      exact Table.mem_keys_of_get? he
  few := by simp

/-- An input stands for the file that it stood for. -/
theorem writings_turned (hg : g.Joinable) (taken : List Int) (k i : Int) :
    g.writings (g.turned taken k i) = g.writings i := by
  unfold turned
  split
  · rcases g.joint_cases taken i with ⟨heq, -⟩ | ⟨-, hsame⟩
    · rw [heq]
    · rw [writings, ← hg.congr hsame]
      rfl
  · rfl

/-- **It is the turn of a node.** -/
theorem Joining.turn (h : g.Joining taken c) (hg : g.Joinable) (hk : k ∈ g.nodes.keys) :
    (∃ e, joinInputs c k = .error e ∧ e = .broken ∧ ∃ i ∈ g.readings, 2 ≤ (g.writings i).length) ∨
      ∃ c', joinInputs c k = .ok c' ∧ g.Joining (g.turn taken k) c' := by
  obtain ⟨m, hm⟩ := h.exists_node hk
  have hinputs : m.inputs = c.inputsAt k := by simp [inputsAt, hm]
  obtain ⟨ins, hins⟩ :=
    exists_edgesOf fun i hi => h.exists_edge (h.listed k i (.inl (hinputs ▸ hi)))
  have hids : (fileEdges ins).map (·.1) =
      ((g.inputsAt k).map (g.turned taken k)).filter g.isFile := by
    have hfilter := fileEdges_filter hins fun _ => true
    rw [filter_true] at hfilter
    rw [hfilter, hinputs, ← h.inputs, ← h.isFile]
    exact filter_congr fun i _ => by simp [isFile]
  rw [joinInputs_eq hm hins, Graph.turn, ← hids]
  refine Except.foldlM_cases
    (P := fun (fs : List (Int × Resource)) c => g.Joining (taken ++ fs.map (·.1)) c)
    (by simpa using h) fun fs f rest d hsplit hd => ?_
  have hf : f ∈ fileEdges ins := by simp [hsplit]
  have hr : d.resource? f.1 = some f.2 := by
    rw [hd.resource?, ← h.resource?]
    exact (mem_fileEdges hins hf).2.1
  rcases joinWriters_spec (hd.nodes ▸ hg.tidy.nodes)
    (fun k o ho => hd.edges ▸ hd.listed k o (.inr ho)) hr with
    ⟨herror, hmany⟩ | ⟨d', hok, hfew, hjoins⟩
  · obtain ⟨hmem, -⟩ := mem_filter.1 (hids ▸ mem_map_of_mem hf)
    obtain ⟨i, hi, hturned⟩ := mem_map.1 hmem
    have hmany : 2 ≤ (g.writings i).length := by
      rw [rivals_eq_filter] at hmany
      rw [← writings_turned hg taken k i, hturned, ← length_map, ← hd.writings hg]
      exact hmany.trans (length_filter_le _ _)
    obtain ⟨p, hp⟩ := exists_mem_of_length_pos (Nat.lt_of_lt_of_le Nat.zero_lt_two hmany)
    have hfile := isFile_of_sameFile (hg.symm (mem_places.1 hp).2)
    exact .inl ⟨_, herror, rfl, i, mem_flatMap.2 ⟨k, hk, mem_filter.2 ⟨hi, hfile⟩⟩, hmany⟩
  · refine .inr ⟨d', hok, ?_⟩
    rw [map_append, ← List.append_assoc]
    obtain ⟨e, he, -⟩ := Option.bind_eq_some_iff.1 hr
    exact hd.step hg (hd.edges ▸ Table.mem_keys_of_get? he) hfew hjoins

/-- **Joining writers and readers of the same files is broken off, or takes up the edges in their
order.** -/
theorem combineCommonFiles_run (hg : g.Joinable) :
    (∃ e, g.combineCommonFiles = .error e ∧ e = .broken ∧
      ∃ i ∈ g.readings, 2 ≤ (g.writings i).length) ∨
      ∃ g', g.combineCommonFiles = .ok g' ∧ g.Joining g.order g' := by
  refine Except.foldlM_cases (P := fun ks c => g.Joining (ks.foldl g.turn []) c) (joining_start hg)
    fun ks k rest c hsplit hc => ?_
  rw [foldl_append]
  exact hc.turn hg (by simp [hsplit])

/-! ### The order of the edges -/

theorem subset_foldl_turn (g : Graph) (ks taken : List Int) : taken ⊆ ks.foldl g.turn taken := by
  induction ks generalizing taken with
  | nil => exact List.Subset.refl _
  | cons _ _ ih => exact List.Subset.trans (subset_append_left _ _) (ih _)

/-- An input whose file the node writes itself is its output, or is taken up. -/
theorem mem_order_of_writesFile (hg : g.Joinable) (hi : i ∈ g.inputsAt k) (hw : g.writesFile k i) :
    i ∈ g.outputsAt k ∨ i ∈ g.order := by
  obtain ⟨o, -, hsame⟩ := writesFile_iff.1 hw
  obtain ⟨m, hm, -⟩ := mem_inputsAt.1 hi
  obtain ⟨before, after, hkeys⟩ := append_of_mem (Table.mem_keys_of_get? hm)
  have horder : g.order = after.foldl g.turn (g.turn (before.foldl g.turn []) k) := by
    rw [order, hkeys, foldl_append, foldl_cons]
  rw [horder]
  by_cases hturned : i ∈ g.outputsAt k ∨ i ∈ before.foldl g.turn []
  · refine hturned.imp_right fun hi => ?_
    exact subset_foldl_turn g after _ (mem_append_left _ hi)
  · have hsame : g.turned (before.foldl g.turn []) k i = i := if_neg fun h => hturned h.2
    refine .inr (subset_foldl_turn g after _ (mem_append_right _ (mem_filter.2 ⟨?_, ?_⟩)))
    · exact mem_map.2 ⟨i, hi, hsame⟩
    · exact isFile_of_sameFile (hg.self ‹_›)

/-- If nobody reads a file on the edge on which it is written, the inputs are taken up as they are.
-/
theorem order_eq_readings (hg : g.Joinable)
    (hfree : ∀ k, ∀ i ∈ g.inputsAt k, g.isFile i → i ∉ g.outputsAt k) : g.order = g.readings := by
  have hprefix : ∀ ks rest, ks ++ rest = g.nodes.keys →
      ks.foldl g.turn [] = ks.flatMap fun k => (g.inputsAt k).filter g.isFile := by
    intro ks
    induction ks using List.reverseRecOn with
    | nil => exact fun _ _ => rfl
    | append_singleton _ k ih =>
      intro rest hkeys
      rw [List.append_assoc] at hkeys
      rw [foldl_append, ih _ hkeys, flatMap_append, flatMap_singleton]
      refine congrArg (fun is => _ ++ is.filter g.isFile)
        ((map_congr_left fun i hi => if_neg ?_).trans
        (map_id _))
      rintro ⟨hw, hout | htaken⟩
      · obtain ⟨o, -, hsame⟩ := writesFile_iff.1 hw
        exact hfree k i hi (isFile_of_sameFile (hg.self hsame)) hout
      · -- another node would have to read the edge
        obtain ⟨l, hl, hmem⟩ := mem_flatMap.1 htaken
        have htarget := hg.target.2 (mem_filter.1 hmem).1
        rw [hg.target.2 hi, Option.some_inj] at htarget
        have hnodup := hkeys ▸ hg.tidy.nodes
        exact (nodup_append.1 hnodup).2.2 l hl k mem_cons_self htarget.symm
  exact hprefix g.nodes.keys [] (append_nil _)

/-! ### Graphs with one file -/

def shared (i : Int) (source target : Option Int) : Int × Edge :=
  (i, ⟨{ ident := i, resource := some (.file (Word.ofString "f")) }, source, target⟩)

/-- One node writes a file, and another reads it. -/
def handover : Graph where
  nodes := ⟨[(0, tool 0 [] [0]), (1, tool 1 [1] [])]⟩
  edges := ⟨[shared 0 (some 0) none, shared 1 none (some 1)]⟩

theorem joinable_handover : handover.Joinable :=
  joinable_of_wellFormed ⟨by decide, by decide⟩ (by decide)
    (by simp [handover, shared, Word.wellFormed_ofString])

theorem combineCommonFiles_handover : handover.combineCommonFiles ≠ .error .broken := by
  have hok : handover.combineCommonFiles.isOk := by decide +kernel
  intro h
  rw [h] at hok
  cases hok

/-! ### Agreement of edges and nodes -/

/-- Every file that is read has one writer at most. -/
def OneWriter (g : Graph) : Prop :=
  ∀ i ∈ g.order, ∀ k k', g.writesFile k i → g.writesFile k' i → k = k'

/-- A node that reads a file and writes it, reads it on the edge that is taken up last. -/
def OwnLast (g : Graph) : Prop := ∀ k, ∀ i ∈ g.inputsAt k, g.writesFile k i → g.joint g.order i = i

theorem joint_joint (hg : g.Joinable) (i : Int) :
    g.joint taken (g.joint taken i) = g.joint taken i := by
  rcases g.joint_cases taken i with ⟨h, -⟩ | ⟨hmem, hsame⟩
  · rw [h, h]
  · exact (joint_congr hg hsame hmem hsame).symm

theorem exists_writer (hg : g.Joinable) (ho : o ∈ g.outputsAt k) (hsame : g.sameFile i o) :
    ∃ n, g.writer i = some n ∧ g.writesFile n i := by
  unfold writer writerAfter
  cases hlast : (g.rivals i).getLast? with
  | some p =>
    obtain ⟨hmem, -, hp⟩ := mem_rivals.1 (mem_of_getLast? hlast)
    exact ⟨p.1, rfl, writesFile_iff.2 ⟨p.2, hmem, hp⟩⟩
  | none =>
    obtain rfl : i = o := by
      by_contra hne
      have hmem : (k, o) ∈ g.rivals i := mem_rivals.2 ⟨ho, hne, hsame⟩
      rw [getLast?_eq_none_iff.1 hlast] at hmem
      cases hmem
    exact ⟨k, hg.source.2 ho, writesFile_iff.2 ⟨i, ho, hsame⟩⟩

namespace Joining

theorem source_iff (h : g.Joining g.order g') (hg : g.Joinable) :
    (∀ i k, g'.view.source i = some k ↔ i ∈ g'.outputsAt k) ↔ g.OneWriter := by
  constructor
  · intro hsource i hi k k' hk hk'
    have hlisted : ∀ {k}, g.writesFile k i = true →
        g'.view.source (g.joint g.order i) = some k := by
      intro k hk
      obtain ⟨o, ho, hsame⟩ := writesFile_iff.1 hk
      rw [hsource, h.outputs, joint_congr hg hsame hi (hg.self hsame)]
      exact mem_map_of_mem ho
    exact Option.some_inj.1 ((hlisted hk).symm.trans (hlisted hk'))
  · refine fun hone i k => ⟨h.mem_outputsAt hg, fun hi => ?_⟩
    rw [h.outputs] at hi
    obtain ⟨o, ho, rfl⟩ := mem_map.1 hi
    rw [h.source, sourceAfter, if_pos (joint_joint hg o)]
    rcases g.joint_cases g.order o with ⟨heq, hnone⟩ | ⟨hmem, hsame⟩
    · have hrivals : o ∈ g.order → g.rivals o = [] := by
        refine fun hmem => eq_nil_iff_forall_not_mem.2 fun p hp => ?_
        have hself := hg.self (mem_rivals.1 hp).2.2
        rw [hnone o hmem] at hself
        cases hself
      rw [heq, hg.source.2 ho]
      split
      · next hmem =>
        rw [Graph.writer, writerAfter, hrivals hmem]
        exact hg.source.2 ho
      · rfl
    · obtain ⟨n, hn, hw⟩ := exists_writer hg ho (hg.symm hsame)
      rw [if_pos hmem, hn, hone _ hmem n k hw (writesFile_iff.2 ⟨o, ho, hg.symm hsame⟩)]

theorem target_iff (h : g.Joining g.order g') (hg : g.Joinable) :
    (∀ i k, g'.view.target i = some k ↔ i ∈ g'.inputsAt k) ↔ g.OwnLast := by
  have hturned : ∀ {k i}, i ∈ g.inputsAt k → g.writesFile k i = true →
    g.turned g.order k i = g.joint g.order i :=
    fun hi hw => if_pos ⟨hw, mem_order_of_writesFile hg hi hw⟩
  have htarget : ∀ i k, g'.view.target i = some k ↔ i ∈ g.inputsAt k := by
    intro i k
    rw [← hg.target, h.target]
  simp only [htarget, h.inputs, mem_map]
  constructor
  · intro hkept k i hi hw
    obtain ⟨j, hj, hji⟩ := (hkept i k).1 hi
    by_cases hwj : g.writesFile k j = true
    · rw [← hji, hturned hj hwj, joint_joint hg]
    · obtain rfl : j = i := (if_neg fun h => hwj h.1).symm.trans hji
      exact absurd hw hwj
  · intro hown i k
    have hkeep : ∀ i ∈ g.inputsAt k, g.turned g.order k i = i := by
      intro i hi
      by_cases hw : g.writesFile k i = true
      · rw [hturned hi hw, hown k i hi hw]
      · exact if_neg fun h => hw h.1
    constructor
    · exact fun hi => ⟨i, hi, hkeep i hi⟩
    · rintro ⟨j, hj, rfl⟩
      exact (hkeep j hj).symm ▸ hj

end Joining

/-- The ways in which the files of a graph come to be joined. -/
inductive FileJoin (g : Graph) : Except Fault Graph → Prop
  | combine : FileJoin g g.combineCommonFiles
  /-- The graph has the nodes and edges of two graphs that are united. -/
  | union (a b : Graph)
      (h : g = { a with nodes := a.nodes.merge b.nodes, edges := a.edges.merge b.edges }) :
    FileJoin g (a.union b)
  /-- The graph is made, and its redirections have been applied. -/
  | make (nodes : Table Int Node) (edges : Table Int Edge) (background : Bool)
    (h : nodes.values.foldlM redirectNode { nodes, edges, background } = .ok g) :
    FileJoin g (make nodes edges background)

theorem FileJoin.eq {result : Except Fault Graph} (h : FileJoin g result) :
    result = g.combineCommonFiles := by
  cases h with
  | combine => rfl
  | union a b h => rw [h, Graph.union]
  | make _ _ _ h =>
    rw [Graph.make, applyRedirections, h]
    rfl

/-- **Joined files leave edges and nodes in agreement if and only if every file that is read has one
writer at most, and no node that reads and writes a file reads it on an edge with others behind
it.** -/
theorem fileJoin_consistent_iff {result : Except Fault Graph} (hg : g.Joinable)
    (hjoin : g.FileJoin result) :
      (result = .error .broken ∧ ∃ i ∈ g.readings, 2 ≤ (g.writings i).length) ∨
      ∃ g', result = .ok g' ∧ (g'.consistent? = .ok true ↔ g.OneWriter ∧ g.OwnLast) := by
  rw [hjoin.eq]
  rcases combineCommonFiles_run hg with ⟨e, herror, rfl, hmany⟩ | ⟨g', hok, h⟩
  · exact Or.inl ⟨herror, hmany⟩
  · have htidy : g'.Tidy := ⟨h.nodes ▸ hg.tidy.nodes, h.edges ▸ hg.tidy.edges⟩
    exact Or.inr ⟨g', hok, by rw [consistent_iff htidy, h.source_iff hg, h.target_iff hg]⟩

theorem fileJoin_consistent_handover :
    handover.Joinable ∧ ∃ g', handover.combineCommonFiles = .ok g' ∧
    (g'.consistent? = .ok true ↔ handover.OneWriter ∧ handover.OwnLast) :=
  ⟨joinable_handover,
    (fileJoin_consistent_iff joinable_handover .combine).resolve_left fun h =>
      combineCommonFiles_handover h.1⟩

/-- One node writes a file on the edge on which another reads it. -/
def served : Graph where
  nodes := ⟨[(0, tool 0 [] [0]), (1, tool 1 [0] [])]⟩
  edges := ⟨[shared 0 (some 0) (some 1)]⟩

/-- A node writes the same file. -/
def late : Graph where
  nodes := ⟨[(2, tool 2 [] [1])]⟩
  edges := ⟨[shared 1 (some 2) none]⟩

/-- Behind the union both writers list the edge. -/
theorem union_served_inconsistent :
    served.consistent? = .ok true ∧ served.combineCommonFiles = .ok served ∧
    late.consistent? = .ok true ∧ late.combineCommonFiles = .ok late ∧
      (served.union late >>= consistent?) = .ok false :=
  ⟨by decide, rfl, by decide, rfl, by decide +kernel⟩

/-! ### Writers and readers -/

theorem mem_readings (hg : g.Joinable) : i ∈ g.readings ↔
    g.isFile i ∧ ∃ k, g.view.target i = some k := by
  simp only [readings, mem_flatMap, mem_filter, hg.target]
  constructor
  · rintro ⟨k, -, hi, hfile⟩
    exact ⟨hfile, k, hi⟩
  · rintro ⟨hfile, k, hi⟩
    obtain ⟨m, hm, -⟩ := mem_inputsAt.1 hi
    exact ⟨k, Table.mem_keys_of_get? hm, hi, hfile⟩

theorem joint_eq_self_iff (hmem : i ∈ taken) (hself : g.sameFile i i) :
    g.joint taken i = i ↔ (taken.filter (g.sameFile i)).getLast? = some i := by
  unfold joint
  cases hlast : (taken.filter (g.sameFile i)).getLast? with
  | none =>
    have hi := mem_filter.2 ⟨hmem, hself⟩
    rw [getLast?_eq_none_iff.1 hlast] at hi
    cases hi
  | some => simp

/-- No edge that stands for a file is both written and read. -/
def OneEnded (g : Graph) : Prop := ∀ i, g.isFile i → g.view.source i = none ∨ g.view.target i = none

theorem OneEnded.source_eq_none {m : Int} (hends : g.OneEnded) (hfile : g.isFile i)
    (htarget : g.view.target i = some m) : g.view.source i = none :=
  (hends i hfile).resolve_right (by simp [htarget])

section OneEnded

variable {p m : Int} (hg : g.Joinable) (hends : g.OneEnded) (hfile : g.isFile i)
  (htarget : g.view.target i = some m)

include hg hends hfile htarget

theorem OneEnded.notMem_outputsAt : i ∉ g.outputsAt k := by
  rw [← hg.source, hends.source_eq_none hfile htarget]
  simp

/-- What is written on another edge is all that is written. -/
theorem OneEnded.rivals_eq : g.rivals i = g.writings i := by
  rw [rivals_eq_filter]
  refine filter_eq_self.2 fun q hq => decide_eq_true ?_
  rintro rfl
  exact hends.notMem_outputsAt hg hfile htarget (mem_places.1 hq).1

/-- Who writes an edge that was read behind the joins. -/
theorem OneEnded.sourceAfter_iff (hfew : (g.writings i).length ≤ 1) :
    g.sourceAfter g.readings i = some p ↔ (g.readings.filter (g.sameFile i)).getLast? = some i ∧
    ∃ o, g.writings i = [(p, o)] := by
  have hmem : i ∈ g.readings := (mem_readings hg).2 ⟨hfile, m, htarget⟩
  rw [sourceAfter, if_pos hmem]
  by_cases hself : g.sameFile i i = true
  · rw [← joint_eq_self_iff hmem hself, writer_of_few hg hself hfew]
    rcases hw : g.writings i with _ | ⟨⟨n, o⟩, _ | ⟨q, rest⟩⟩
    · simp
    · simp [ite_eq_iff]
    · simp [hw] at hfew
  · have hnone : ∀ j, g.sameFile i j = false :=
      fun j => Bool.eq_false_iff.2 fun hj => hself (hg.self hj)
    have hwritings : g.writings i = [] := eq_nil_iff_forall_not_mem.2 fun q hq => by
      simpa [hnone] using (mem_places.1 hq).2
    simp [writer, writerAfter, hends.rivals_eq hg hfile htarget, hwritings,
      hends.source_eq_none hfile htarget]

end OneEnded

/-- **A file is joined on the last edge on which it is read, if it is written once.** -/
theorem combineCommonFiles_joined_iff (hg : g.Joinable) (hends : g.OneEnded) :
    (g.combineCommonFiles = .error .broken ∧ ∃ i ∈ g.readings, 2 ≤ (g.writings i).length) ∨
      ∃ g', g.combineCommonFiles = .ok g' ∧ (∀ i ∈ g.readings, (g.writings i).length ≤ 1) ∧
        ∀ i p m, g.isFile i = true → (g'.view.source i = some p ∧ g'.view.target i = some m ↔
          g.view.target i = some m ∧ (g.readings.filter (g.sameFile i)).getLast? = some i ∧
            ∃ o, g.writings i = [(p, o)]) := by
  have horder : g.order = g.readings :=
    order_eq_readings hg fun k i hi hfile => hends.notMem_outputsAt hg hfile (hg.target.2 hi)
  rcases combineCommonFiles_run hg with ⟨e, herror, rfl, hmany⟩ | ⟨g', hok, h⟩
  · exact Or.inl ⟨herror, hmany⟩
  · rw [horder] at h
    have hfew : ∀ i ∈ g.readings, (g.writings i).length ≤ 1 := by
      intro i hi
      obtain ⟨hfile, m, htarget⟩ := (mem_readings hg).1 hi
      exact hends.rivals_eq hg hfile htarget ▸ h.few i hi
    refine Or.inr ⟨g', hok, hfew, fun i p m hfile => ?_⟩
    rw [h.target, h.source, and_comm]
    refine and_congr_right fun htarget => ?_
    exact hends.sourceAfter_iff hg hfile htarget (hfew i ((mem_readings hg).2 ⟨hfile, m, htarget⟩))

theorem combineCommonFiles_joined_handover :
    handover.Joinable ∧ ∃ g', handover.combineCommonFiles = .ok g' ∧
    g'.view.source 1 = some 0 ∧ g'.view.target 1 = some 1 := by
  have hends : handover.OneEnded := by
    intro i _
    simp only [view, edge?, handover, shared, Table.get?, Table.lookup]
    grind
  refine ⟨joinable_handover, ?_⟩
  rcases combineCommonFiles_joined_iff joinable_handover hends with ⟨herror, -⟩ | ⟨g', hok,
    -, hjoined⟩
  · exact absurd herror combineCommonFiles_handover
  · exact ⟨g', hok, (hjoined 1 0 1 (by decide +kernel)).2
      ⟨by decide +kernel, by decide +kernel, 0, by decide +kernel⟩⟩

/-- One node writes a file, and two read it. -/
def readTwice : Graph where
  nodes := ⟨[(0, tool 0 [] [0]), (1, tool 1 [1] []), (2, tool 2 [2] [])]⟩
  edges := ⟨[shared 0 (some 0) none, shared 1 none (some 1), shared 2 none (some 2)]⟩

/-- The writer is joined to the last reader. -/
theorem combineCommonFiles_joins_readTwice :
    readTwice.consistent? = .ok true ∧ readTwice.readings = [1, 2] ∧
    ∃ g', readTwice.combineCommonFiles = .ok g' ∧ g'.view.source 2 = some 0 ∧
    g'.view.target 2 = some 2 :=
  ⟨by decide, by decide, _, rfl, by decide +kernel, by decide +kernel⟩

/-! ### Cycles -/

/-- One node writes an edge that the other reads, when every file is written on the last edge on
which it is read. -/
def Supplies (g : Graph) (k k' : Int) : Prop :=
  ∃ i, g.sourceAfter g.readings i = some k ∧ g.view.target i = some k'

/-- **Joined files leave a graph without cycles if and only if no node supplies itself.** -/
theorem fileJoin_acyclic_iff {result : Except Fault Graph} (hg : g.Joinable) (hacyclic : g.Acyclic)
    (hjoin : g.FileJoin result) :
      (result = .error .broken ∧ ∃ i ∈ g.readings, 2 ≤ (g.writings i).length) ∨
      ∃ g', result = .ok g' ∧ (g'.Acyclic ↔ ∀ k, ¬ TransGen g.Supplies k k) := by
  rw [hjoin.eq]
  have horder : g.order = g.readings := order_eq_readings hg fun k i hi _ ho =>
    hacyclic k (.single ⟨i, hg.source.2 ho, hg.target.2 hi⟩)
  rcases combineCommonFiles_run hg with ⟨e, herror, rfl, hmany⟩ | ⟨g', hok, h⟩
  · exact Or.inl ⟨herror, hmany⟩
  · have hfeeds : g'.Feeds = g.Supplies := by
      funext k k'
      simp only [Feeds, Supplies, h.source, h.target, horder]
    exact Or.inr ⟨g', hok, by rw [Acyclic, hfeeds]⟩

theorem fileJoin_acyclic_handover : handover.Joinable ∧ handover.Acyclic ∧
    ∃ g', handover.combineCommonFiles = .ok g' ∧
    (g'.Acyclic ↔ ∀ k, ¬ TransGen handover.Supplies k k) := by
  have hacyclic : handover.Acyclic := by
    refine acyclic_of_lt ?_
    rintro k k' ⟨i, hsource, htarget⟩
    simp only [view, edge?, handover, shared, Table.get?, Table.lookup] at hsource htarget
    grind
  exact ⟨joinable_handover, hacyclic,
    (fileJoin_acyclic_iff joinable_handover hacyclic .combine).resolve_left fun h =>
      combineCommonFiles_handover h.1⟩

/-- One node reads a file and writes it. -/
def rewriting : Graph where
  nodes := ⟨[(0, tool 0 [0] [1])]⟩
  edges := ⟨[shared 0 none (some 0), shared 1 (some 0) none]⟩

/-- It reads what it writes. -/
theorem combineCommonFiles_cyclic_rewriting : rewriting.consistent? = .ok true ∧ rewriting.Acyclic ∧
    ∃ g', rewriting.combineCommonFiles = .ok g' ∧ ¬ g'.Acyclic := by
  refine ⟨by decide, acyclic_of_lt ?_, _, rfl,
    fun h => h 0 (.single ⟨0, by decide +kernel, by decide +kernel⟩)⟩
  rintro k k' ⟨i, hsource, htarget⟩
  simp only [view, edge?, rewriting, shared, Table.get?, Table.lookup] at hsource htarget
  grind

end ShellFlow.Graph
