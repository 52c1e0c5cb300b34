import Mathlib.Data.List.Basic
import ShellFlow.Preprocess.Script

/-!
# Positions in scripts

Preprocessing a tree goes into the parts of constructs, and leaves alone what is inside of commands,
pipelines, trees in the background and definitions.  A position says which part to go to, again and
again, and so names a tree in a list of trees, be it the parts of a construct or the trees of a
script.
-/

namespace ShellFlow

open List

variable {forest : List Tree} {i : Nat} {kind : Tree → Bool} {p q : Position}

def Arm.body : Arm → Tree
  | .mk _ body => body

/-- A position in a list of trees, or in the parts of a tree: which of them, which of its parts, and
so on. -/
abbrev Position := List Nat

def inPart (i : Nat) (ps : List Position) : List Position := ps.map (i :: ·)

@[simp] theorem length_inPart (i : Nat) (ps : List Position) : (inPart i ps).length = ps.length :=
  length_map ..

theorem mem_inPart {ps : List Position} : p ∈ inPart i ps ↔ ∃ q ∈ ps, p = i :: q := by
  simp [inPart, eq_comm]

namespace Tree

variable {last : Bool} {tree : Tree}

/-- Whether a tree can become a region as a whole: a command with words, a pipeline, or a tree in
the background. -/
def isCandidate : Tree → Bool
  | .command _ _ words _ => !words.isEmpty
  | .pipe _ _ => true
  | .scope .background _ _ _ => true
  | _ => false

/-- Whether the region that a tree becomes goes on with the next tree. -/
def isBackground : Tree → Bool
  | .pipe background _ => background.truthy
  | .scope .background _ _ _ => true
  | _ => false

/-- The tree is a loop. -/
def isLoop : Tree → Bool
  | .forEach _ _ _ _ => true
  | .whileDo _ _ => true
  | _ => false

/-- The parts of a construct that are preprocessed by themselves, in turn, and whether the exit
status of each is that of the script if that of the construct is. -/
def parts (last : Bool) : Tree → List (Bool × Tree)
  | .scope .background _ _ _ => []
  | .scope _ _ body _ => [(last, body)]
  | .forEach _ _ body _ => [(last, body)]
  | .whileDo test body => [(last, test), (last, body)]
  | .join op left right => [(last && op != .semi, left), (last, right)]
  | .negate body => [(last, body)]
  | .branch test yes no => [(last, test), (last, yes), (last, no)]
  | .select arms => arms.map fun arm => (last, arm.body)
  | _ => []

/-- The parts of a construct that are preprocessed by themselves. -/
def children (tree : Tree) : List Tree := (tree.parts true).map (·.2)

theorem map_parts (tree : Tree) (last : Bool) : (tree.parts last).map (·.2) = tree.children := by
  cases tree with
  | scope kind => cases kind <;> rfl
  | select => simp [children, parts, Function.comp_def]
  | _ => rfl

theorem children_of_isCandidate (h : tree.isCandidate) : tree.children = [] := by
  cases tree with
  | command => rfl
  | pipe => rfl
  | scope kind =>
    cases kind with
    | background => rfl
    | _ => cases h
  | _ => cases h

theorem isCandidate_of_isBackground (h : tree.isBackground) : tree.isCandidate := by
  cases tree with
  | pipe => rfl
  | scope kind =>
    cases kind with
    | background => rfl
    | _ => cases h
  | _ => cases h

theorem isCandidate_of_parts (h : tree.parts last ≠ []) : tree.isCandidate = false := by
  rw [← Bool.not_eq_true]
  intro hcandidate
  exact h (map_eq_nil_iff.1 ((tree.map_parts last).trans (children_of_isCandidate hcandidate)))

theorem isBackground_of_parts (h : tree.parts last ≠ []) : tree.isBackground = false := by
  rw [← Bool.not_eq_true]
  intro hbackground
  have hcandidate := isCandidate_of_parts h
  rw [isCandidate_of_isBackground hbackground] at hcandidate
  cases hcandidate

theorem isLoop_eq_false_of_parts (h : tree.parts last = []) : tree.isLoop = false := by
  cases tree with
  | forEach => cases h
  | whileDo => cases h
  | _ => rfl

theorem sizeOf_lt_of_mem_children {part : Tree} (h : part ∈ tree.children) :
    sizeOf part < sizeOf tree := by
  cases tree with
  | scope kind line body redirections =>
    obtain rfl : part = body := by
      cases kind with
      | background => cases h
      | _ => exact mem_singleton.1 h
    rw [scope.sizeOf_spec]
    omega
  | forEach line range body name =>
    obtain rfl : part = body := mem_singleton.1 h
    rw [forEach.sizeOf_spec]
    omega
  | whileDo test body =>
    have hpart : part = test ∨ part = body := by simpa [children, parts] using h
    rw [whileDo.sizeOf_spec]
    rcases hpart with rfl | rfl <;> omega
  | join op left right =>
    have hpart : part = left ∨ part = right := by simpa [children, parts] using h
    rw [join.sizeOf_spec]
    rcases hpart with rfl | rfl <;> omega
  | negate body =>
    obtain rfl : part = body := mem_singleton.1 h
    rw [negate.sizeOf_spec]
    omega
  | branch test yes no =>
    have hpart : part = test ∨ part = yes ∨ part = no := by simpa [children, parts] using h
    rw [branch.sizeOf_spec]
    rcases hpart with rfl | rfl | rfl <;> omega
  | select arms =>
    obtain ⟨arm, harm, rfl⟩ : ∃ arm ∈ arms, arm.body = part := by
      simpa [children, parts, Function.comp_def] using h
    have hlt := sizeOf_lt_of_mem harm
    obtain ⟨fields, body⟩ := arm
    rw [Arm.mk.sizeOf_spec] at hlt
    rw [select.sizeOf_spec, Arm.body]
    omega
  | _ => cases h

/-- A property that passes from the parts of a construct to the construct holds of all trees. -/
theorem children_induction {P : Tree → Prop} (h : ∀ tree, (∀ part ∈ tree.children, P part) → P tree)
    (tree : Tree) : P tree :=
  h tree fun part hpart =>
    have := sizeOf_lt_of_mem_children hpart
    children_induction h part
termination_by sizeOf tree

def at? : Tree → Position → Option Tree
  | tree, [] => some tree
  | tree, i :: p =>
    match tree.children[i]? with
    | some part => at? part p
    | none => none

mutual

/-- The positions in a tree at which there is a tree of some kind, in the order of preprocessing. -/
def positions (kind : Tree → Bool) (tree : Tree) : List Position :=
  (if kind tree then [[]] else []) ++
    match tree with
    | .scope .background _ _ _ => []
    | .scope _ _ body _ => inPart 0 (positions kind body)
    | .forEach _ _ body _ => inPart 0 (positions kind body)
    | .whileDo test body => inPart 0 (positions kind test) ++ inPart 1 (positions kind body)
    | .join _ left right => inPart 0 (positions kind left) ++ inPart 1 (positions kind right)
    | .negate body => inPart 0 (positions kind body)
    | .branch test yes no =>
      inPart 0 (positions kind test) ++ inPart 1 (positions kind yes) ++
        inPart 2 (positions kind no)
    | .select arms => positionsArms kind 0 arms
    | _ => []

/-- The positions in the bodies of some arms, of which the first is the part with a number. -/
def positionsArms (kind : Tree → Bool) (i : Nat) : List Arm → List Position
  | [] => []
  | .mk _ body :: arms => inPart i (positions kind body) ++ positionsArms kind (i + 1) arms

end

end Tree

/-- What is at a position. -/
def treeAt? (forest : List Tree) : Position → Option Tree
  | [] => none
  | i :: p => forest[i]?.bind (·.at? p)

/-- The positions in some trees at which there is a tree of some kind, where the first tree has a
number. -/
def positionsFrom (kind : Tree → Bool) (i : Nat) : List Tree → List Position
  | [] => []
  | tree :: forest => inPart i (tree.positions kind) ++ positionsFrom kind (i + 1) forest

/-- The positions above a position, the nearest first. -/
def above (p : Position) : List Position := ((List.range p.length).map p.take).reverse

/-- The positions of the loops around a position in a tree, the innermost first. -/
def Tree.around (tree : Tree) (p : Position) : List Position :=
    (above p).filter fun q => (tree.at? q).any isLoop

/-- The positions of the loops around a position in a list of trees, the innermost first. -/
def loopsAround (forest : List Tree) (p : Position) : List Position :=
  (above p).filter fun q => (treeAt? forest q).any Tree.isLoop

/-- The numbers of the loops around a position in a tree, where loops are numbered from some number
on as they are met. -/
def Tree.context (tree : Tree) (base : Int) (p : Position) : List Int :=
  (tree.around p).map fun q => base + (tree.positions isLoop).idxOf q

/-- The number of the loop at a position in a list of trees, where loops are numbered from some
number on as they are met. -/
def loopNumber (forest : List Tree) (base : Int) (p : Position) : Int :=
  base + (positionsFrom Tree.isLoop 0 forest).idxOf p

/-- The numbers of the loops around a position. -/
def loopContext (forest : List Tree) (base : Int) (p : Position) : List Int :=
  (loopsAround forest p).map (loopNumber forest base)

/-! ### All positions -/

theorem positionsFrom_append (kind : Tree → Bool) (i : Nat) (forest more : List Tree) :
    positionsFrom kind i (forest ++ more) =
      positionsFrom kind i forest ++ positionsFrom kind (i + forest.length) more := by
  induction forest generalizing i with
  | nil => rfl
  | cons _ _ ih =>
    rw [cons_append, positionsFrom, ih, positionsFrom, List.append_assoc, length_cons,
      Nat.add_assoc, Nat.add_comm 1]

theorem length_positionsFrom_concat (kind : Tree → Bool) (i : Nat) (forest : List Tree)
    (tree : Tree) : (positionsFrom kind i (forest ++ [tree])).length =
      (positionsFrom kind i forest).length + (tree.positions kind).length := by
  rw [positionsFrom_append, length_append, positionsFrom, positionsFrom, append_nil, length_inPart]

theorem mem_positionsFrom : p ∈ positionsFrom kind i forest ↔
      ∃ j tree q, forest[j]? = some tree ∧ q ∈ tree.positions kind ∧ p = (i + j) :: q := by
  induction forest generalizing i with
  | nil => simp [positionsFrom]
  | cons tree _ ih =>
    rw [positionsFrom, mem_append, mem_inPart, ih]
    constructor
    · rintro (⟨q, hq, rfl⟩ | ⟨j, other, q, hother, hq, rfl⟩)
      · exact ⟨0, tree, q, rfl, hq, rfl⟩
      · exact ⟨j + 1, other, q, hother, hq, by rw [Nat.add_right_comm, Nat.add_assoc]⟩
    · rintro ⟨j, other, q, hother, hq, rfl⟩
      cases j with
      | zero =>
        obtain rfl : tree = other := by simpa using hother
        exact .inl ⟨q, hq, rfl⟩
      | succ j => exact .inr ⟨j, other, q, hother, hq, by rw [Nat.add_right_comm, Nat.add_assoc]⟩

theorem nil_notMem_positionsFrom (kind : Tree → Bool) (i : Nat) (forest : List Tree) :
    [] ∉ positionsFrom kind i forest := by
  rw [mem_positionsFrom]
  rintro ⟨j, tree, q, -, -, h⟩
  cases h

namespace Tree

variable {tree : Tree}

theorem positionsArms_eq (kind : Tree → Bool) (i : Nat) (arms : List Arm) :
    positionsArms kind i arms = positionsFrom kind i (arms.map Arm.body) := by
  induction arms generalizing i with
  | nil => simp [positionsArms, positionsFrom]
  | cons arm _ ih =>
    obtain ⟨fields, body⟩ := arm
    rw [positionsArms, map_cons, positionsFrom, ih]
    rfl

/-- **The positions in a tree** are its own, if it is of the kind, and those in its parts. -/
theorem positions_eq (kind : Tree → Bool) (tree : Tree) :
    tree.positions kind = (if kind tree then [[]] else []) ++
      positionsFrom kind 0 tree.children := by
  cases tree with
  | scope scopeKind =>
    cases scopeKind <;> simp [positions, children, parts, positionsFrom]
  | select =>
    rw [positions, positionsArms_eq]
    simp [children, parts, Function.comp_def]
  | _ => simp [positions, children, parts, positionsFrom]

theorem positions_isLoop_of_children (h : tree.children = []) : tree.positions isLoop = [] := by
  rw [positions_eq, h, isLoop_eq_false_of_parts (map_eq_nil_iff.1 h)]
  rfl

theorem at?_cons (tree : Tree) (i : Nat) (p : Position) :
    tree.at? (i :: p) = treeAt? tree.children (i :: p) := by
  rw [at?, treeAt?]
  cases tree.children[i]? <;> rfl

theorem mem_positions : p ∈ tree.positions kind ↔ (tree.at? p).any kind := by
  induction p generalizing tree with
  | nil =>
    rw [positions_eq, mem_append]
    simp [nil_notMem_positionsFrom, at?]
  | cons i p ih =>
    rw [positions_eq, mem_append, mem_positionsFrom, at?_cons, treeAt?]
    constructor
    · rintro (h | ⟨j, part, q, hpart, hq, heq⟩)
      · split at h <;> simp at h
      · rw [Nat.zero_add] at heq
        cases heq
        simpa [hpart] using ih.1 hq
    · intro h
      cases hpart : tree.children[i]? with
      | none => simp [hpart] at h
      | some part => exact .inr ⟨i, part, p, hpart, ih.2 (by simpa [hpart] using h), by simp⟩

end Tree

theorem mem_positionsFrom_of_treeAt? {node : Tree} (hat : treeAt? forest p = some node)
    (hkind : kind node) : p ∈ positionsFrom kind 0 forest := by
  cases p with
  | nil => cases hat
  | cons i p =>
    obtain ⟨tree, htree, hnode⟩ := Option.bind_eq_some_iff.1 hat
    have hmem : p ∈ tree.positions kind := Tree.mem_positions.2 (by simpa [hnode] using hkind)
    exact mem_positionsFrom.2 ⟨i, tree, p, htree, hmem, by rw [Nat.zero_add]⟩

/-! ### Numbers -/

theorem idxOf_inPart (i : Nat) (p : Position) (ps : List Position) :
    (inPart i ps).idxOf (i :: p) = ps.idxOf p := by
  induction ps with
  | nil => rfl
  | cons q ps ih =>
    show (((i :: q) :: inPart i ps).idxOf (i :: p)) = _
    rw [idxOf_cons, idxOf_cons, ih]
    simp

/-- The number of a position in a list of trees, by its number in its tree. -/
theorem idxOf_positionsFrom {front back : List Tree} {tree : Tree} (h : p ∈ tree.positions kind) :
    (positionsFrom kind 0 (front ++ tree :: back)).idxOf (front.length :: p) =
      (positionsFrom kind 0 front).length + (tree.positions kind).idxOf p := by
  have hfront : front.length :: p ∉ positionsFrom kind 0 front := by
    rw [mem_positionsFrom]
    rintro ⟨j, other, q, hother, -, heq⟩
    obtain ⟨hlt, -⟩ := List.getElem?_eq_some_iff.1 hother
    rw [List.cons.injEq] at heq
    omega
  have hpart : front.length :: p ∈ inPart front.length (tree.positions kind) :=
    mem_inPart.2 ⟨p, h, rfl⟩
  rw [positionsFrom_append, idxOf_append_of_notMem hfront, Nat.zero_add, positionsFrom,
    idxOf_append_of_mem hpart, idxOf_inPart]

/-! ### Loops around a position -/

@[simp] theorem above_nil : above [] = [] := rfl

theorem above_cons (i : Nat) (p : Position) : above (i :: p) = inPart i (above p) ++ [[]] := by
  rw [above, length_cons, range_succ_eq_map, map_cons, reverse_cons, inPart, above, map_reverse,
    map_map, map_map]
  rfl

/-- The positions above a position are those that it goes on from. -/
theorem mem_above : q ∈ above p ↔ q <+: p ∧ q ≠ p := by
  induction p generalizing q with
  | nil => simp
  | cons i p ih =>
    rw [above_cons, mem_append, mem_inPart, mem_singleton]
    cases q with
    | nil => simp
    | cons j q =>
      simp only [List.cons.injEq, cons_prefix_cons, ne_eq, reduceCtorEq, or_false]
      constructor
      · rintro ⟨r, hr, rfl, rfl⟩
        obtain ⟨hlead, hne⟩ := ih.1 hr
        exact ⟨⟨rfl, hlead⟩, fun h => hne h.2⟩
      · rintro ⟨⟨rfl, hlead⟩, hne⟩
        exact ⟨q, ih.2 ⟨hlead, fun h => hne ⟨rfl, h⟩⟩, rfl, rfl⟩

theorem loopsAround_cons (forest : List Tree) (i : Nat) (p : Position) :
    loopsAround forest (i :: p) =
      inPart i ((above p).filter fun q => (treeAt? forest (i :: q)).any Tree.isLoop) := by
  rw [loopsAround, above_cons, filter_append, inPart, filter_map]
  simp [treeAt?, inPart, Function.comp_def]

namespace Tree

@[simp] theorem context_nil (tree : Tree) (base : Int) : tree.context base [] = [] := rfl

/-- The loops around a position in a construct: those in its part, and the construct itself if it is
a loop. -/
theorem context_cons (tree : Tree) (base : Int) (i : Nat) (p : Position) :
    tree.context base (i :: p) =
      loopContext tree.children (base + if tree.isLoop then 1 else 0) (i :: p) ++
        if tree.isLoop then [base] else [] := by
  have haround : tree.around (i :: p) =
      loopsAround tree.children (i :: p) ++ if tree.isLoop then [[]] else [] := by
    rw [loopsAround_cons, around, above_cons, filter_append, inPart, filter_map]
    simp only [Function.comp_def, at?_cons, inPart]
    cases h : tree.isLoop <;> simp [at?, h]
  rw [context, haround, map_append, loopContext]
  congr 1
  · refine map_congr_left fun q hq => ?_
    rw [loopsAround_cons, mem_inPart] at hq
    obtain ⟨r, -, rfl⟩ := hq
    rw [loopNumber, positions_eq]
    cases tree.isLoop with
    | false => simp
    | true =>
      rw [if_pos rfl, if_pos rfl, idxOf_append_of_notMem (by simp)]
      simp only [length_singleton]
      omega
  · cases h : tree.isLoop with
    | false => rfl
    | true => simp [positions_eq, h]

end Tree

/-- The loops around a position in a list of trees are those around it in its tree. -/
theorem loopContext_append_cons (front back : List Tree) (tree : Tree) (base : Int) (p : Position) :
    loopContext (front ++ tree :: back) base (front.length :: p) =
      tree.context (base + (positionsFrom Tree.isLoop 0 front).length) p := by
  have hat : ∀ q, treeAt? (front ++ tree :: back) (front.length :: q) = tree.at? q := by
    intro q
    simp [treeAt?]
  rw [loopContext, loopsAround_cons, inPart, map_map, Tree.context]
  simp only [hat]
  refine map_congr_left fun q hq => ?_
  have hloop : q ∈ tree.positions Tree.isLoop := Tree.mem_positions.2 (mem_filter.1 hq).2
  rw [Function.comp_apply, loopNumber, idxOf_positionsFrom hloop]
  omega

theorem loopNumber_inj {base : Int} (hp : p ∈ positionsFrom Tree.isLoop 0 forest)
    (h : loopNumber forest base p = loopNumber forest base q) : p = q := by
  rw [loopNumber, loopNumber] at h
  exact (idxOf_inj hp).1 (by omega)

end ShellFlow
