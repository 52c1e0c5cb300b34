import ShellFlow.Proofs.Preprocess.Descent
import ShellFlow.Proofs.Table
import ShellFlow.Proofs.Text

/-!
# Numbering regions that are run ahead of time

A region that is run ahead of time gets the next number, and a file with its script; the loops
around it are recorded, and that it comes after the region before it.
-/

namespace ShellFlow

open List

namespace Traversal

/-- Creates a region with the loops around it and its script. -/
def create (t : Traversal) (region : List Int × String) : Traversal :=
  { t with
    regions := t.regions + 1
    contexts := t.contexts.insert t.regions region.1
    files := t.files.insert (Speculation.regionFile t.regions) (.text region.2)
    edges := t.edges ++ if t.regions = 0 then [] else [(t.regions - 1, t.regions)] }

/-- Regions are created in turn. -/
def createAll (t : Traversal) (made : List (List Int × String)) : Traversal := made.foldl create t

/-- So many more loops are numbered. -/
def numbered (t : Traversal) (count : Nat) : Traversal := { t with loops := t.loops + count }

/-- Some loops are around the current place. -/
def within (t : Traversal) (enclosing : List Int) : Traversal := { t with enclosing }

variable {t : Traversal}

theorem numbered_zero (t : Traversal) : t.numbered 0 = t := by simp [numbered]

theorem numbered_numbered (t : Traversal) (m n : Nat) :
    (t.numbered m).numbered n = t.numbered (m + n) := by
  simp [numbered, Int.add_assoc]

@[simp] theorem createAll_nil : t.createAll [] = t := rfl

theorem createAll_append (t : Traversal) (made more : List (List Int × String)) :
    t.createAll (made ++ more) = (t.createAll made).createAll more :=
  foldl_append

section

variable (t) (made : List (List Int × String))

theorem createAll_concat (region : List Int × String) :
    t.createAll (made ++ [region]) = (t.createAll made).create region :=
  createAll_append ..

@[simp] theorem loops_createAll : (t.createAll made).loops = t.loops := by
  induction made generalizing t with
  | nil => rfl
  | cons _ _ ih => exact ih _

@[simp] theorem enclosing_createAll : (t.createAll made).enclosing = t.enclosing := by
  induction made generalizing t with
  | nil => rfl
  | cons _ _ ih => exact ih _

theorem regions_createAll : (t.createAll made).regions = t.regions + made.length := by
  induction made generalizing t with
  | nil => simp
  | cons region made ih =>
    rw [createAll, foldl_cons, ← createAll, ih, create, length_cons]
    push_cast
    omega

/-- How many loops have been numbered makes no difference for the regions. -/
theorem createAll_numbered (count : Nat) :
    (t.numbered count).createAll made = (t.createAll made).numbered count := by
  induction made generalizing t with
  | nil => rfl
  | cons region _ ih => exact ih (t.create region)

/-- Nor does it make a difference which loops have been entered. -/
theorem createAll_within (enclosing : List Int) :
    (t.within enclosing).createAll made = (t.createAll made).within enclosing := by
  induction made generalizing t with
  | nil => rfl
  | cons region _ ih => exact ih (t.create region)

end

end Traversal

/-! ### Regions from the start -/

namespace Traversal

variable (loops : Int) (made : List (List Int × String))

theorem regions_createAll_start : (createAll { loops } made).regions = made.length := by
  rw [regions_createAll]
  exact Int.zero_add _

/-- **The recorded order is a chain.** -/
theorem edges_createAll :
    (createAll { loops } made).edges = (List.range (made.length - 1)).map fun i : Nat =>
      ((i : Int), (i + 1 : Int)) := by
  induction made using List.reverseRecOn with
  | nil => rfl
  | append_singleton made region ih =>
    rw [createAll_concat, create, ih, regions_createAll_start, length_append]
    cases made with
    | nil => rfl
    | cons first made =>
      rw [if_neg (by simp only [length_cons]; omega), length_singleton, Nat.add_sub_cancel]
      simp only [length_cons, Nat.add_sub_cancel, range_succ, map_append, map_singleton]
      push_cast
      rw [Int.add_sub_cancel]

/-- **The loops around each region are recorded** in the order of the regions. -/
theorem entries_contexts_createAll :
    (createAll { loops } made).contexts.entries = made.mapIdx fun i region =>
    ((i : Int), region.1) := by
  induction made using List.reverseRecOn with
  | nil => rfl
  | append_singleton made region ih =>
    have hkeys : (made.length : Int) ∉ (createAll { loops } made).contexts.keys := by
      intro hmem
      obtain ⟨context, hcontext⟩ := Table.mem_keys_iff.1 hmem
      rw [ih, mem_mapIdx] at hcontext
      obtain ⟨i, hi, heq⟩ := hcontext
      have : i = made.length := Int.ofNat_inj.1 (Prod.mk.inj heq).1
      omega
    rw [createAll_concat, create, regions_createAll_start, Table.entries_insert_of_notMem hkeys, ih,
      mapIdx_concat]

/-- **Each region has a file** with its script. -/
theorem get?_files_createAll (i : Nat) :
    (createAll { loops } made).files.get? (Speculation.regionFile i) = made[i]?.map fun region =>
      .text region.2 := by
  induction made using List.reverseRecOn with
  | nil => rfl
  | append_singleton made region ih =>
    rw [createAll_concat, create, regions_createAll_start, Table.get?_insert]
    by_cases hi : i = made.length
    · simp [hi]
    · have hne : Speculation.regionFile i ≠ Speculation.regionFile made.length :=
        fun h => hi (Int.ofNat_inj.1 (Int.repr_injective ((String.append_right_inj _).1 h)))
      rw [if_neg hne, ih]
      rcases Nat.lt_or_gt_of_ne hi with hlt | hgt
      · rw [getElem?_append_left hlt]
      · rw [getElem?_eq_none (by omega), getElem?_eq_none (by simp; omega)]

end Traversal

/-! ### Storing a region -/

variable {t t' u : Traversal} {s s' : Supply}

/-- **Storing a region that is run ahead of time** creates it in the loops that have been entered.
-/
theorem reaches_storeRegion_speculative {trees : List Tree} {text : Option String}
    {inSequence : Bool} {call : Tree}
    (h : Reaches (storeRegion .speculative trees text inSequence) t s call t' s') :
    ∃ script, regionText trees text = .ok script ∧
      call = speculativeCall (toString t.regions) (t.currentLoop.map toString) ∧
      t' = t.create (t.enclosing, script) ∧ s = s' := by
  obtain ⟨script, _, _, htext, h⟩ := h.bind
  obtain ⟨hscript, rfl⟩ := reaches_lift.1 htext
  obtain ⟨hok, rfl⟩ := yields_lift.1 hscript
  obtain ⟨_, _, _, hget, h⟩ := h.bind
  obtain ⟨rfl, rfl, rfl⟩ := reaches_get.1 hget
  obtain ⟨_, _, _, hset, h⟩ := h.bind
  obtain ⟨rfl, rfl⟩ := reaches_set.1 hset
  obtain ⟨rfl, rfl, rfl⟩ := h.pure
  refine ⟨script, hok, rfl, ?_, rfl⟩
  by_cases hzero : t.regions = 0
  · simp [Traversal.record, Traversal.create, hzero]
  · simp [Traversal.record, Traversal.create, Traversal.addEdge, hzero]

/-! ### Sites -/

variable {α β : Type}

/-- On the way some loops are numbered, and a region is created at each of some sites, with the
loops around the site and a script that it can hold. -/
def Gathers (t t' : Traversal) (loops : Nat) (sites : List α) (context : α → List Int)
    (Holds : α → String → Prop) :
    Prop :=
  ∃ created : List (α × String), created.map (·.1) = sites ∧ (∀ c ∈ created, Holds c.1 c.2) ∧
    t' = (t.numbered loops).createAll (created.map fun c => (context c.1, c.2))

namespace Gathers

variable {m n : Nat} {sites more : List α} {context : α → List Int} {Holds : α → String → Prop}

theorem none : Gathers t t 0 ([] : List α) context Holds :=
  ⟨[], rfl, by simp, (Traversal.numbered_zero t).symm⟩

theorem one {site : α} {script : String} (h : Holds site script)
    (ht : t' = t.create (context site, script)) : Gathers t t' 0 [site] context Holds :=
  ⟨[(site, script)], rfl, by simpa using h, by rw [Traversal.numbered_zero]; exact ht⟩

theorem trans (h : Gathers t u m sites context Holds) (h' : Gathers u t' n more context Holds) :
    Gathers t t' (m + n) (sites ++ more) context Holds := by
  obtain ⟨created, rfl, hholds, rfl⟩ := h
  obtain ⟨createdMore, rfl, hmore, rfl⟩ := h'
  refine ⟨created ++ createdMore, map_append, ?_, ?_⟩
  · intro c hc
    rcases mem_append.1 hc with hc | hc
    · exact hholds c hc
    · exact hmore c hc
  · rw [map_append, Traversal.createAll_append]
    rw [← Traversal.createAll_numbered, Traversal.numbered_numbered]

/-- Sites have other names elsewhere. -/
theorem map {context' : β → List Int} {Holds' : β → String → Prop} (f : α → β)
    (h : Gathers t t' n sites context Holds) (hcontext : ∀ a ∈ sites, context' (f a) = context a)
    (hholds : ∀ a x, Holds a x → Holds' (f a) x) :
    Gathers t t' n (sites.map f) context' Holds' := by
  obtain ⟨created, rfl, hheld, rfl⟩ := h
  refine ⟨created.map fun c => (f c.1, c.2), by simp, ?_, ?_⟩
  · intro c hc
    obtain ⟨d, hd, rfl⟩ := mem_map.1 hc
    exact hholds _ _ (hheld d hd)
  · rw [map_map]
    congr 1
    refine map_congr_left fun c hc => ?_
    rw [Function.comp_apply, hcontext c.1 (mem_map_of_mem hc)]

theorem congr {context' : α → List Int} {Holds' : α → String → Prop}
    (h : Gathers t t' n sites context Holds) (hcontext : ∀ a ∈ sites, context' a = context a)
    (hholds : ∀ a x, Holds a x → Holds' a x) : Gathers t t' n sites context' Holds' := by
  simpa using h.map id hcontext hholds

section

variable (h : Gathers t t' n sites context Holds)
include h

theorem enclosing_eq : t'.enclosing = t.enclosing := by
  obtain ⟨created, -, -, rfl⟩ := h
  exact Traversal.enclosing_createAll ..

theorem loops_eq : t'.loops = t.loops + n := by
  obtain ⟨created, -, -, rfl⟩ := h
  exact Traversal.loops_createAll ..

theorem regions_eq : t'.regions = t.regions + sites.length := by
  obtain ⟨created, rfl, -, rfl⟩ := h
  rw [Traversal.regions_createAll, length_map, length_map]
  rfl

end

end Gathers

/-!
### Numbers of regions and loops in a tree

Loops are numbered in the order of their positions, and regions in the order of the positions of
what can become one, each with the numbers of the loops around it.
-/

variable {last : Bool} {made : List (Tree × Bool)} {p : Preprocessed} {parts : List (Bool × Tree)}
  {r : Tree × Bool} {tree : Tree}

def HoldsAt (forest : List Tree) (p : Position) (script : String) : Prop :=
  ∃ node, treeAt? forest p = some node ∧ regionText [node] none = .ok script

namespace Tree

def HoldsAt (tree : Tree) (p : Position) (script : String) : Prop :=
  ∃ node, tree.at? p = some node ∧ regionText [node] none = .ok script

/-- The regions that are created in a tree when it is preprocessed, and the loops numbered there. -/
def Gathered (tree : Tree) (t t' : Traversal) (sites : List Position) : Prop :=
  Gathers t t' (tree.positions isLoop).length sites (fun p => tree.context t.loops p ++ t.enclosing)
    tree.HoldsAt

def asLoop (tree : Tree) : Nat := if tree.isLoop then 1 else 0

theorem length_positions_isLoop (tree : Tree) :
    (tree.positions isLoop).length =
      tree.asLoop + (positionsFrom isLoop 0 tree.children).length := by
  rw [positions_eq, length_append, asLoop]
  cases tree.isLoop <;> rfl

theorem loops_enter (tree : Tree) (t : Traversal) :
    (tree.enter t).loops = t.loops + tree.asLoop := by
  rw [enter, asLoop]
  cases tree.isLoop with
  | false => exact (Int.add_zero _).symm
  | true => rfl

/-- The loops around a position in a construct that has been entered. -/
theorem context_enter (tree : Tree) (t : Traversal) (i : Nat) (p : Position) :
    tree.context t.loops (i :: p) ++ t.enclosing =
      loopContext tree.children (tree.enter t).loops (i :: p) ++ (tree.enter t).enclosing := by
  rw [context_cons, List.append_assoc, enter]
  cases tree.isLoop with
  | false => simp
  | true => simp [Traversal.enterLoop]

end Tree

/-- A construct is left as it was entered. -/
theorem Gathers.exit {n : Nat} {sites : List α} {context : α → List Int}
    {Holds : α → String → Prop} (h : Gathers (tree.enter t) u n sites context Holds)
    (hexit : tree.exit u = .ok t') : Gathers t t' (tree.asLoop + n) sites context Holds := by
  obtain ⟨created, rfl, hholds, rfl⟩ := h
  refine ⟨created, rfl, hholds, ?_⟩
  unfold Tree.enter Tree.exit at hexit
  unfold Tree.asLoop
  cases hloop : tree.isLoop with
  | false =>
    simp only [hloop, Bool.false_eq_true, if_false, Except.ok.injEq] at hexit
    simp [← hexit]
  | true =>
    simp only [hloop, if_true, Traversal.exitLoop, Traversal.enclosing_createAll] at hexit
    have hleft : ((t.enterLoop.2.numbered n).createAll
        (created.map fun c => (context c.1, c.2))).within t.enclosing =
        t' := Except.ok.inj hexit
    have hnumbered : (t.enterLoop.2.numbered n).within t.enclosing = t.numbered (1 + n) := by
      simp [Traversal.enterLoop, Traversal.numbered, Traversal.within, Int.add_assoc]
    rw [← hleft, ← Traversal.createAll_within, hnumbered]
    rfl

/-- **The regions created in a tree**, before it may become a region itself and behind that, and in
some of the parts of a construct, of which others come before. -/
theorem gathers_preprocess : Throughout .speculative
    (fun tree t _ _ t' _ => tree.Gathered t t' (positionsFrom Tree.isCandidate 0 tree.children))
    (fun tree t _ _ t' _ => tree.Gathered t t' (tree.positions Tree.isCandidate))
    fun parts t _ _ t' _ => ∀ (front : List Tree) (base : Int),
      t.loops = base + (positionsFrom Tree.isLoop 0 front).length →
      Gathers t t' (positionsFrom Tree.isLoop front.length (parts.map (·.2))).length
        (positionsFrom Tree.isCandidate front.length (parts.map (·.2)))
        (fun p => loopContext (front ++ parts.map (·.2)) base p ++ t.enclosing)
        (HoldsAt (front ++ parts.map (·.2))) := by
  apply preprocess_induction
  case leaf =>
    intro tree t s hchildren _
    rw [Tree.Gathered, Tree.positions_isLoop_of_children hchildren, hchildren]
    exact .none
  case construct =>
    intro last tree t s made u t' s' _ _ hmade hexit
    have hgathers := (hmade [] _ (Int.add_zero _).symm).exit hexit
    rw [tree.map_parts] at hgathers
    rw [Tree.Gathered, Tree.length_positions_isLoop]
    refine hgathers.congr ?_ ?_
    · intro q hq
      obtain ⟨j, part, r, -, -, rfl⟩ := mem_positionsFrom.1 hq
      exact tree.context_enter t _ r
    · rintro q script ⟨node, hnode, hscript⟩
      cases q with
      | nil => cases hnode
      | cons => exact ⟨node, by rw [Tree.at?_cons]; exact hnode, hscript⟩
  case store =>
    intro last tree t s call t' s' hcandidate hchildren hstore
    obtain ⟨script, hscript, -, rfl, rfl⟩ := reaches_storeRegion_speculative hstore
    rw [Tree.positions_eq, if_pos hcandidate, hchildren, Tree.Gathered,
      Tree.positions_isLoop_of_children hchildren]
    exact .one ⟨tree, rfl, hscript⟩ rfl
  case keep =>
    intro tree t s p t' s' hcandidate hp
    rwa [Tree.positions_eq, hcandidate, if_neg Bool.false_ne_true]
  case nil => exact fun _ _ _ _ _ => .none
  case cons =>
    intro last tree rest r rs t u t' s v s' _ hgathered ih front base hbase
    have hbefore : u.loops = base + (positionsFrom Tree.isLoop 0 (front ++ [tree])).length := by
      rw [hgathered.loops_eq, hbase, length_positionsFrom_concat, Int.natCast_add, Int.add_assoc]
    have hothers := ih (front ++ [tree]) base hbefore
    rw [hgathered.enclosing_eq] at hothers
    simp only [length_append, length_singleton, List.append_assoc, singleton_append] at hothers
    simp only [map_cons, positionsFrom, length_append, length_inPart]
    refine Gathers.trans (hgathered.map (front.length :: ·) ?_ ?_) hothers
    · intro p _
      rw [loopContext_append_cons, hbase]
    · rintro p script ⟨node, hnode, hscript⟩
      exact ⟨node, by simpa [treeAt?] using hnode, hscript⟩

/-! ### Loops -/

variable {mode : Mode}

/-- Some loops are numbered on the way, and all that are entered are left. -/
def Traversal.Passes (t t' : Traversal) (loops : Nat) : Prop :=
    t'.enclosing = t.enclosing ∧ t'.loops = t.loops + loops

/-- **Preprocessing trees numbers their loops** and leaves those that it enters. -/
theorem passes_preprocess : Throughout mode
    (fun tree t _ _ t' _ => t.Passes t' (tree.positions Tree.isLoop).length)
    (fun tree t _ _ t' _ => t.Passes t' (tree.positions Tree.isLoop).length)
    fun parts t _ _ t' _ =>
      ∀ i, t.Passes t' (positionsFrom Tree.isLoop i (parts.map (·.2))).length := by
  apply preprocess_induction
  case leaf =>
    intro tree t s hchildren _
    rw [Tree.positions_isLoop_of_children hchildren]
    exact ⟨rfl, (Int.add_zero _).symm⟩
  case construct =>
    intro last tree t s made u t' s' _ _ hmade hexit
    obtain ⟨henclosing, hloops⟩ := hmade 0
    rw [tree.map_parts, Tree.loops_enter, Int.add_assoc, ← Int.natCast_add,
      ← Tree.length_positions_isLoop] at hloops
    unfold Tree.enter at henclosing
    unfold Tree.exit at hexit
    cases hloop : tree.isLoop with
    | false =>
      simp only [hloop, Bool.false_eq_true, if_false, Except.ok.injEq] at hexit henclosing
      exact hexit ▸ ⟨henclosing, hloops⟩
    | true =>
      simp only [hloop, if_true, Traversal.enterLoop] at henclosing
      simp only [hloop, if_true, Traversal.exitLoop, henclosing, Except.ok.injEq] at hexit
      exact hexit ▸ ⟨rfl, hloops⟩
  case store =>
    intro last tree t s call t' s' _ hchildren hstore
    rw [Tree.positions_isLoop_of_children hchildren]
    cases mode with
    | direct =>
      obtain ⟨script, -, -, rfl, -⟩ := reaches_storeRegion hstore
      exact ⟨rfl, (Int.add_zero _).symm⟩
    | speculative =>
      obtain ⟨script, -, -, rfl, -⟩ := reaches_storeRegion_speculative hstore
      exact ⟨rfl, (Int.add_zero _).symm⟩
  case keep => exact fun _ _ _ _ _ _ _ hp => hp
  case nil => exact fun _ _ _ => ⟨rfl, (Int.add_zero _).symm⟩
  case cons =>
    rintro last tree rest r rs t u t' s v s' - ⟨henclosing, hloops⟩ ih i
    obtain ⟨henclosing', hloops'⟩ := ih (i + 1)
    rw [map_cons, positionsFrom, length_append, length_inPart]
    exact ⟨henclosing'.trans henclosing, by rw [hloops', hloops, Int.natCast_add, Int.add_assoc]⟩

/-- **What preprocessing finds at a position**: the loops around the position have been entered, and
if there is a loop, its number is the next one. -/
theorem Comes.context {node : Tree} {p : Position} (h : Comes mode last tree t s p node u) :
    tree.at? p = some node ∧ u.enclosing = tree.context t.loops p ++ t.enclosing ∧
      (node.isLoop → u.loops = t.loops + (tree.positions Tree.isLoop).idxOf p) := by
  induction h with
  | @here last tree t s =>
    refine ⟨rfl, rfl, fun hloop => ?_⟩
    rw [Tree.positions_eq, if_pos hloop]
    simp
  | @inPart last last' tree part node front back made t u w s v p split before further ih =>
    have hchildren : tree.children = front.map (·.2) ++ part :: back.map (·.2) := by
      rw [← tree.map_parts last, split, map_append, map_cons]
    obtain ⟨hentered, hpassed⟩ := passes_preprocess.parts before 0
    obtain ⟨hat, henclosing, hnumber⟩ := ih
    rw [hentered, hpassed] at henclosing
    have hlength : front.length = (front.map (·.2)).length := by rw [length_map]
    refine ⟨?_, ?_, fun hloop => ?_⟩
    · rw [Tree.at?_cons, hchildren, treeAt?]
      simpa using hat
    · rw [henclosing, Tree.context_enter, hchildren, hlength, loopContext_append_cons]
    · have hmem : p ∈ part.positions Tree.isLoop :=
        Tree.mem_positions.2 (by simpa [hat] using hloop)
      have hroot : front.length :: p ∉ if tree.isLoop then [([] : Position)] else [] := by
        split <;> simp
      rw [hnumber hloop, hpassed, Tree.loops_enter, Tree.positions_eq _ tree,
        idxOf_append_of_notMem hroot, hchildren, hlength, idxOf_positionsFrom hmem, Tree.asLoop]
      cases tree.isLoop <;> simp <;> omega

end ShellFlow
