import ShellFlow.Proofs.Preprocess.Positions
import ShellFlow.Proofs.Preprocess.Reaching

/-!
# Going through trees

What preprocessing does with a tree, said once for all constructs: what has no parts stays as it is,
and a construct is put together again from its parts, which are preprocessed one after the other.
-/

namespace ShellFlow

open List

variable {mode : Mode} {t t' : Traversal} {s s' : Supply} {held : List ScriptItem} {i : Nat}
  {last : Bool}
  {made : List (Tree × Bool)} {node tree : Tree} {p : Position} {r : Preprocessed}

/-- Trees are preprocessed one after the other, and those that are to become regions become regions.
-/
inductive ClosesAll (mode : Mode) :
    List (Bool × Tree) → Traversal → Supply → List (Tree × Bool) → Traversal → Supply → Prop
  | nil {t : Traversal} {s : Supply} : ClosesAll mode [] t s [] t s
  | cons {last : Bool} {tree : Tree} {rest : List (Bool × Tree)} {r : Tree × Bool}
      {rs : List (Tree × Bool)} {t u t' : Traversal} {s v s' : Supply}
      (first : Reaches (closing mode last (preprocessTree mode last tree)) t s r u v)
      (others : ClosesAll mode rest u v rs t' s') :
      ClosesAll mode ((last, tree) :: rest) t s (r :: rs) t' s'

theorem ClosesAll.length_eq {parts : List (Bool × Tree)} (h : ClosesAll mode parts t s made t' s') :
    made.length = parts.length := by
  induction h with
  | nil => rfl
  | cons _ _ ih => rw [length_cons, ih, length_cons]

/-- The first trees are preprocessed before the others. -/
theorem ClosesAll.split {front back : List (Bool × Tree)}
    (h : ClosesAll mode (front ++ back) t s made t' s') :
    ∃ madeFront madeBack u v, made = madeFront ++ madeBack ∧
      ClosesAll mode front t s madeFront u v ∧ ClosesAll mode back u v madeBack t' s' := by
  induction front generalizing made t s with
  | nil => exact ⟨[], made, t, s, rfl, .nil, h⟩
  | cons _ _ ih =>
    cases h with
    | cons first others =>
      obtain ⟨madeFront, madeBack, u, v, rfl, hfront, hback⟩ := ih others
      exact ⟨_ :: madeFront, madeBack, u, v, rfl, .cons first hfront, hback⟩

def Arm.withBody : Arm → Tree → Arm
  | .mk fields _, body => .mk fields body

namespace Tree

variable {inside outside : List Int} {loop : Int} {made : List Tree}

def enter (tree : Tree) (t : Traversal) : Traversal := if tree.isLoop then t.enterLoop.2 else t

/-- The traversal behind a construct: a loop is left. -/
def exit (tree : Tree) (t : Traversal) : Except Fault Traversal :=
    if tree.isLoop then t.exitLoop else .ok t

/-- A construct with other parts.  A loop over words counts its rounds; it has a number, and there
are loops inside and outside of it. -/
def withParts (tree : Tree) (loop : Int) (inside outside : List Int) (made : List Tree) : Tree :=
  match tree, made with
  | .scope kind line _ redirections, [body] => .scope kind line body redirections
  | .forEach line range _ name, [body] => countedLoop loop inside outside line range body name
  | .whileDo _ _, [test, body] => .whileDo test body
  | .join op _ _, [left, right] => .join op left right
  | .negate _, [body] => .negate body
  | .branch _ _ _, [test, yes, no] => .branch test yes no
  | .select arms, bodies => .select (arms.zipWith Arm.withBody bodies)
  | tree, _ => tree

/-- Whether a tree is a loop over words. -/
def isForEach : Tree → Bool
  | .forEach _ _ _ _ => true
  | _ => false

/-- Where the part with a number is in a construct that has been put together again: behind the
commands that count the rounds, if it is that of a loop over words. -/
def partPlace (tree : Tree) (i : Nat) : Position := if tree.isForEach then [1, 0, 0, 1, 1] else [i]

/-- Where the tree at a position is when the tree around it has been preprocessed. -/
def moved : Tree → Position → Position
  | _, [] => []
  | tree, i :: p =>
    tree.partPlace i ++
      match tree.children[i]? with
      | some part => moved part p
      | none => []

/-- Whether the part with a number is the first one of a sequence. -/
def leads : Tree → Nat → Bool
  | .join .semi _ _, 0 => true
  | _, _ => false

/-- Whether a position is in a part of some kind, which is told by a construct and the number of its
part. -/
def goesThrough (kind : Tree → Nat → Bool) : Tree → Position → Bool
  | _, [] => false
  | tree, i :: p =>
    kind tree i ||
      match tree.children[i]? with
      | some part => goesThrough kind part p
      | none => false

/-- Whether a position is in the first part of a sequence. -/
def followed : Tree → Position → Bool := goesThrough leads

theorem at?_append (tree : Tree) (p q : Position) :
    tree.at? (p ++ q) = (tree.at? p).bind (·.at? q) := by
  induction p generalizing tree with
  | nil => rfl
  | cons i p ih =>
    rw [cons_append, at?, at?]
    cases tree.children[i]? with
    | none => rfl
    | some part => exact ih part

/-- The exit status of a part is that of the script if that of the construct is, unless it leads a
sequence. -/
theorem last_of_parts {part : Tree} {last' : Bool}
    (h : (tree.parts last)[i]? = some (last', part)) : last' = (last && !tree.leads i) := by
  cases tree with
  | scope kind line body redirections => cases kind <;> cases i <;> simp_all [parts, leads]
  | join op left right =>
    rcases i with _ | _ | i
    · obtain ⟨rfl, -⟩ : (last && op != .semi) = last' ∧ left = part := by simpa [parts] using h
      cases op <;> rfl
    · simp_all [parts, leads]
    · simp [parts] at h
  | select =>
    rw [parts, getElem?_map, Option.map_eq_some_iff] at h
    obtain ⟨arm, -, heq⟩ := h
    simp [leads, ← (Prod.mk.inj heq).1]
  | whileDo test body => rcases i with _ | _ | i <;> simp_all [parts, leads]
  | branch test yes no => rcases i with _ | _ | _ | i <;> simp_all [parts, leads]
  | _ => cases i <;> simp_all [parts, leads]

/-- A construct that is put together again has its new parts, unless it counts its rounds. -/
theorem children_withParts (hlength : made.length = tree.children.length)
    (hfor : tree.isForEach = false) :
    (tree.withParts loop inside outside made).children = made := by
  cases tree with
  | scope kind =>
    cases kind with
    | background =>
      obtain rfl := length_eq_zero_iff.1 hlength
      rfl
    | _ =>
      obtain ⟨new, rfl⟩ := length_eq_one_iff.1 hlength
      rfl
  | forEach => cases hfor
  | whileDo =>
    obtain ⟨newTest, newBody, rfl⟩ := length_eq_two.1 hlength
    rfl
  | join =>
    obtain ⟨newLeft, newRight, rfl⟩ := length_eq_two.1 hlength
    rfl
  | negate =>
    obtain ⟨new, rfl⟩ := length_eq_one_iff.1 hlength
    rfl
  | branch =>
    obtain ⟨newTest, newYes, newNo, rfl⟩ := length_eq_three.1 hlength
    rfl
  | select arms =>
    have harms : made.length = arms.length := by simpa [children, parts] using hlength
    refine ext_getElem (by simp [withParts, children, parts, harms]) fun i hi hi' => ?_
    simp only [withParts, children, parts, getElem_map, getElem_zipWith]
    cases arms[i] with
    | mk => rfl
  | _ =>
    obtain rfl := length_eq_zero_iff.1 hlength
    rfl

theorem children_withParts_ne_nil {tree : Tree} {loop : Int} {inside outside : List Int}
    {made : List Tree} (hlength : made.length = tree.children.length) (h : tree.children ≠ []) :
    (tree.withParts loop inside outside made).children ≠ [] := by
  cases hfor : tree.isForEach with
  | false =>
    rw [children_withParts hlength hfor]
    rintro rfl
    exact h (length_eq_zero_iff.1 hlength.symm)
  | true =>
    cases tree with
    | forEach =>
      obtain ⟨new, rfl⟩ := length_eq_one_iff.1 hlength
      exact cons_ne_nil _ _
    | _ => cases hfor

theorem at?_withParts {new : Tree} (hlength : made.length = tree.children.length)
    (hnew : made[i]? = some new) :
    (tree.withParts loop inside outside made).at? (tree.partPlace i) = some new := by
  cases hfor : tree.isForEach with
  | false =>
    rw [partPlace, hfor, if_neg Bool.false_ne_true, at?_cons, treeAt?,
      children_withParts hlength hfor, hnew]
    rfl
  | true =>
    cases tree with
    | forEach =>
      obtain ⟨only, rfl⟩ := length_eq_one_iff.1 hlength
      cases i with
      | zero => exact hnew
      | succ => cases hnew
    | _ => cases hfor

end Tree

theorem reaches_leaveLoop_exit {u : Unit} (h : Reaches leaveLoop t s u t' s') :
    t.exitLoop = .ok t' ∧ s = s' := by
  obtain ⟨a, v, r, hget, h⟩ := h.bind
  obtain ⟨rfl, rfl, rfl⟩ := reaches_get.1 hget
  split at h
  · next later hexit =>
    obtain ⟨rfl, rfl⟩ := reaches_set.1 h
    exact ⟨hexit, rfl⟩
  · exact absurd h (by simp [reaches_throw])

theorem preprocessArms_cases {arms : List Arm} {r : List Arm × Bool}
    (h : Reaches (preprocessArms mode last arms) t s r t' s') :
    ∃ made, ClosesAll mode (arms.map fun arm => (last, arm.body)) t s made t' s' ∧
      r = (arms.zipWith Arm.withBody (made.map (·.1)), made.any (·.2)) := by
  induction arms generalizing r t s with
  | nil =>
    obtain ⟨rfl, rfl, rfl⟩ := h.pure
    exact ⟨[], .nil, rfl⟩
  | cons arm _ ih =>
    obtain ⟨fields, body⟩ := arm
    obtain ⟨closed, u, v, hbody, h⟩ := h.bind
    obtain ⟨others, u', v', harms, h⟩ := h.bind
    obtain ⟨rfl, rfl, rfl⟩ := h.pure
    obtain ⟨made, hmade, rfl⟩ := ih harms
    exact ⟨closed :: made, .cons hbody hmade, rfl⟩

/-- **What preprocessing does with a tree.**  A tree without parts stays as it is.  The parts of a
construct are preprocessed in their order, and the construct is put together from what they have
become. -/
theorem preprocessTree_cases {p : Preprocessed}
    (h : Reaches (preprocessTree mode last tree) t s p t' s') :
    (tree.parts last = [] ∧ t = t' ∧ s = s' ∧
      p =
        { tree, whole := tree.isCandidate, extends? := tree.isBackground
          replaced := tree.isCandidate }) ∨
    (tree.parts last ≠ [] ∧
      ∃ made u, ClosesAll mode (tree.parts last) (tree.enter t) s made u s' ∧ tree.exit u = .ok t' ∧
        p = { tree := tree.withParts t.loops u.enclosing t'.enclosing (made.map (·.1)),
              replaced := made.any (·.2) }) := by
  cases tree with
  | command | pipe | define =>
    obtain ⟨rfl, rfl, rfl⟩ := h.pure
    exact .inl ⟨rfl, rfl, rfl, rfl⟩
  | scope kind _ body =>
    by_cases hkind : kind = .background
    · subst hkind
      obtain ⟨rfl, rfl, rfl⟩ := h.pure
      exact .inl ⟨rfl, rfl, rfl, rfl⟩
    · rw [preprocessTree] at h
      · obtain ⟨made, u, v, hbody, h⟩ := h.bind
        obtain ⟨rfl, rfl, rfl⟩ := h.pure
        have hmade : ClosesAll mode [(last, body)] t s [made] u v := .cons hbody .nil
        cases kind with
        | background => exact absurd rfl hkind
        | redirected | subshell =>
          exact .inr ⟨cons_ne_nil _ _, [made], u, hmade, rfl, by simp [Tree.withParts]⟩
      · exact hkind
  | negate =>
    obtain ⟨made, u, v, hbody, h⟩ := h.bind
    obtain ⟨rfl, rfl, rfl⟩ := h.pure
    exact .inr ⟨cons_ne_nil _ _, [made], u, .cons hbody .nil, rfl, by simp [Tree.withParts]⟩
  | join =>
    obtain ⟨madeLeft, u, v, hleft, h⟩ := h.bind
    obtain ⟨madeRight, u', v', hright, h⟩ := h.bind
    obtain ⟨rfl, rfl, rfl⟩ := h.pure
    exact .inr ⟨cons_ne_nil _ _, [madeLeft, madeRight], u', .cons hleft (.cons hright .nil), rfl,
      by simp [Tree.withParts]⟩
  | branch =>
    obtain ⟨madeTest, u₁, v₁, htest, h⟩ := h.bind
    obtain ⟨madeYes, u₂, v₂, hyes, h⟩ := h.bind
    obtain ⟨madeNo, u₃, v₃, hno, h⟩ := h.bind
    obtain ⟨rfl, rfl, rfl⟩ := h.pure
    exact .inr ⟨cons_ne_nil _ _, [madeTest, madeYes, madeNo], u₃,
      .cons htest (.cons hyes (.cons hno .nil)), rfl,
      by simp [Tree.withParts, Bool.or_assoc]⟩
  | forEach =>
    obtain ⟨_, _, _, hget, hset⟩ := h.bind
    obtain ⟨rfl, rfl, rfl⟩ := reaches_get.1 hget
    obtain ⟨_, _, _, henter, hrest⟩ := hset.bind
    obtain ⟨rfl, rfl⟩ := reaches_set.1 henter
    obtain ⟨made, u, v, hbody, hinside⟩ := hrest.bind
    obtain ⟨_, _, _, hget', hleave⟩ := hinside.bind
    obtain ⟨rfl, rfl, rfl⟩ := reaches_get.1 hget'
    obtain ⟨_, _, _, hexit, houtside⟩ := hleave.bind
    obtain ⟨hleft, rfl⟩ := reaches_leaveLoop_exit hexit
    obtain ⟨_, _, _, hget'', hpure⟩ := houtside.bind
    obtain ⟨rfl, rfl, rfl⟩ := reaches_get.1 hget''
    obtain ⟨rfl, rfl, rfl⟩ := hpure.pure
    exact .inr ⟨cons_ne_nil _ _, [made], u, .cons hbody .nil, hleft, by simp [Tree.withParts]⟩
  | whileDo =>
    obtain ⟨_, _, _, henter, hrest⟩ := h.bind
    obtain ⟨rfl, rfl⟩ := reaches_modify.1 henter
    obtain ⟨madeTest, u, v, htest, hthen⟩ := hrest.bind
    obtain ⟨madeBody, u', v', hbody, hleave⟩ := hthen.bind
    obtain ⟨_, _, _, hexit, hpure⟩ := hleave.bind
    obtain ⟨hleft, rfl⟩ := reaches_leaveLoop_exit hexit
    obtain ⟨rfl, rfl, rfl⟩ := hpure.pure
    exact .inr ⟨cons_ne_nil _ _, [madeTest, madeBody], u', .cons htest (.cons hbody .nil), hleft,
      by simp [Tree.withParts]⟩
  | select =>
    obtain ⟨r, u, v, harms, h⟩ := h.bind
    obtain ⟨made, hmade, rfl⟩ := preprocessArms_cases harms
    dsimp only at h
    split at h
    · obtain ⟨_, u, v, hthrow, h⟩ := h.bind
      exact (reaches_throw.1 hthrow).elim
    · next harms =>
      obtain ⟨rfl, rfl, rfl⟩ := h.pure
      refine .inr ⟨fun hnone => harms ?_, made, u, hmade, rfl, rfl⟩
      rw [map_eq_nil_iff.1 hnone]
      rfl
  | generic | verbatim | graph =>
    exact (reaches_throw.1 h).elim

/-- What a preprocessed tree says about itself. -/
theorem preprocessTree_flags {p : Preprocessed}
    (h : Reaches (preprocessTree mode last tree) t s p t' s') :
    p.whole = tree.isCandidate ∧ p.extends? = tree.isBackground ∧ (p.whole → p.replaced) := by
  rcases preprocessTree_cases h with ⟨-, -, -, rfl⟩ | ⟨hparts, -, -, -, -, rfl⟩
  · exact ⟨rfl, rfl, id⟩
  · rw [Tree.isCandidate_of_parts hparts, Tree.isBackground_of_parts hparts]
    exact ⟨rfl, rfl, nofun⟩

/-- **What closing does with a tree.**  What can become a region as a whole becomes one; it has no
parts.  Anything else stays as it is preprocessed. -/
theorem closing_cases {r : Tree × Bool}
    (h : Reaches (closing mode last (preprocessTree mode last tree)) t s r t' s') :
    (tree.isCandidate ∧ r.2 ∧ Reaches (storeRegion mode [tree] none last) t s r.1 t' s') ∨
    (tree.isCandidate = false ∧
      ∃ p, Reaches (preprocessTree mode last tree) t s p t' s' ∧ r = (p.tree, p.replaced)) := by
  obtain ⟨p, u, v, hp, h⟩ := h.bind
  unfold Preprocessed.close at h
  rcases preprocessTree_cases hp with ⟨-, rfl, rfl, rfl⟩ | ⟨hparts, made, w, -, -, rfl⟩
  · cases hcandidate : tree.isCandidate with
    | true =>
      rw [hcandidate, if_pos rfl] at h
      obtain ⟨call, u, v, hstore, h⟩ := h.bind
      obtain ⟨rfl, rfl, rfl⟩ := h.pure
      exact .inl ⟨rfl, rfl, hstore⟩
    | false =>
      rw [hcandidate, if_neg Bool.false_ne_true] at h
      obtain ⟨rfl, rfl, rfl⟩ := h.pure
      exact .inr ⟨rfl, _, hp, by rw [hcandidate]⟩
  · rw [if_neg Bool.false_ne_true] at h
    obtain ⟨rfl, rfl, rfl⟩ := h.pure
    exact .inr ⟨Tree.isCandidate_of_parts hparts, _, hp, rfl⟩

section Throughout

variable (mode) (P : Tree → Traversal → Supply → Preprocessed → Traversal → Supply → Prop)
  (C : Tree → Traversal → Supply → Tree × Bool → Traversal → Supply → Prop)
  (Q : List (Bool × Tree) → Traversal → Supply → List (Tree × Bool) → Traversal → Supply → Prop)

/-- What is true of all trees that are preprocessed, closed or closed one after the other. -/
structure Throughout : Prop where
  tree : ∀ {last tree t s p t' s'}, Reaches (preprocessTree mode last tree) t s p t' s' →
    P tree t s p t' s'
  closed : ∀ {last tree t s r t' s'}, Reaches (closing mode last (preprocessTree mode last tree)) t
    s r t' s' →
    C tree t s r t' s'
  parts : ∀ {parts t s made t' s'}, ClosesAll mode parts t s made t' s' → Q parts t s made t' s'

variable {mode P C Q}

/-- **Going through trees.**  What is true of a tree without parts, of a region, and of a construct
if it is true of its parts one after the other, is true of all trees. -/
theorem preprocess_induction
    (leaf : ∀ tree t s, tree.children = [] → (∀ text, tree ≠ .verbatim text) →
      P tree t s
        { tree, whole := tree.isCandidate, extends? := tree.isBackground
          replaced := tree.isCandidate } t s)
    (construct : ∀ last tree t s made u t' s', tree.children ≠ [] →
      (made.map (·.1)).length = tree.children.length →
      Q (tree.parts last) (tree.enter t) s made u s' → tree.exit u = .ok t' →
      P tree t s
        { tree := tree.withParts t.loops u.enclosing t'.enclosing (made.map (·.1)),
          replaced := made.any (·.2) } t' s')
    (store : ∀ last tree t s call t' s', tree.isCandidate → tree.children = [] →
      Reaches (storeRegion mode [tree] none last) t s call t' s' → C tree t s (call, true) t' s')
    (keep : ∀ tree t s p t' s', tree.isCandidate = false → P tree t s p t' s' →
      C tree t s (p.tree, p.replaced) t' s')
    (nil : ∀ t s, Q [] t s [] t s)
    (cons : ∀ last tree rest r rs t u t' s v s',
      Reaches (closing mode last (preprocessTree mode last tree)) t s r u v →
      C tree t s r u v → Q rest u v rs t' s' → Q ((last, tree) :: rest) t s (r :: rs) t' s') :
    Throughout mode P C Q := by
  have hclosing :
      ∀ {last tree t s r t' s'}, (∀ {p}, Reaches (preprocessTree mode last tree) t s p t' s' →
      P tree t s p t' s') →
        Reaches (closing mode last (preprocessTree mode last tree)) t s r t' s' →
      C tree t s r t' s' := by
    rintro last tree t s ⟨call, replaced⟩ t' s' htree h
    rcases closing_cases h with ⟨hcandidate, rfl, hstore⟩ | ⟨hcandidate, p, hp, heq⟩
    · exact store _ _ _ _ _ _ _ hcandidate (Tree.children_of_isCandidate hcandidate) hstore
    · exact heq ▸ keep _ _ _ _ _ _ hcandidate (htree hp)
  have hparts : ∀ {parts t s made t' s'}, ClosesAll mode parts t s made t' s' →
      (∀ part ∈ parts, ∀ {last t s p t' s'},
      Reaches (preprocessTree mode last part.2) t s p t' s' → P part.2 t s p t' s') →
        Q parts t s made t' s' := by
    intro parts t s made t' s' h htree
    induction h with
    | nil => exact nil _ _
    | cons first _ ih =>
      obtain ⟨hfirst, hrest⟩ := forall_mem_cons.1 htree
      exact cons _ _ _ _ _ _ _ _ _ _ _ first (hclosing (fun hp => hfirst hp) first) (ih hrest)
  have htree : ∀ tree {last t s p t' s'}, Reaches (preprocessTree mode last tree) t s p t' s' →
      P tree t s p t' s' := by
    intro tree
    induction tree using Tree.children_induction with
    | _ tree ih =>
      intro last t s p t' s' h
      rcases preprocessTree_cases h with ⟨hnone, rfl, rfl, rfl⟩ | ⟨hsome, made, u, hmade,
        hexit, rfl⟩
      · refine leaf tree t s (by rw [← tree.map_parts last, hnone, map_nil]) ?_
        rintro text rfl
        rw [preprocessTree] at h
        exact (reaches_throw.1 h).elim
      · refine construct last tree t s made u t' s' ?_ ?_ (hparts hmade fun part hpart => ?_) hexit
        · simpa [← tree.map_parts last] using hsome
        · rw [← tree.map_parts last, length_map, length_map, hmade.length_eq]
        · exact ih part.2 (tree.map_parts last ▸ mem_map_of_mem hpart)
  exact ⟨htree _, hclosing (htree _), fun h => hparts h fun part _ => htree part.2⟩

end Throughout

/-- Preprocessing comes to a node. -/
inductive Comes (mode : Mode) : Bool → Tree → Traversal → Supply → Position → Tree →
    Traversal → Prop
  | here {last : Bool} {tree : Tree} {t : Traversal} {s : Supply} :
      Comes mode last tree t s [] tree t
  | inPart {last last' : Bool} {tree part node : Tree} {front back : List (Bool × Tree)}
      {made : List (Tree × Bool)} {t u w : Traversal} {s v : Supply} {p : Position}
      (split : tree.parts last = front ++ (last', part) :: back)
      (before : ClosesAll mode front (tree.enter t) s made u v)
      (further : Comes mode last' part u v p node w) :
      Comes mode last tree t s (front.length :: p) node w

/-- A part of a construct is closed behind the parts in front of it, and the result is in its place.
-/
theorem exists_closing_part {part : Tree} (h : Reaches (preprocessTree mode last tree) t s r t' s')
    (hpart : tree.children[i]? = some part) :
    ∃ front back made u v c u' v', tree.parts last =
      front ++ (last && !tree.leads i, part) :: back ∧
      front.length = i ∧ ClosesAll mode front (tree.enter t) s made u v ∧
      Reaches (closing mode (last && !tree.leads i)
        (preprocessTree mode (last && !tree.leads i) part)) u v c u' v' ∧
      r.tree.at? (tree.partPlace i) = some c.1 := by
  rw [← tree.map_parts last, getElem?_map, Option.map_eq_some_iff] at hpart
  obtain ⟨⟨last', found⟩, hget, rfl : found = part⟩ := hpart
  obtain rfl := Tree.last_of_parts hget
  obtain ⟨hlt, hat⟩ := List.getElem?_eq_some_iff.1 hget
  have hsplit : tree.parts last =
      (tree.parts last).take i ++ (last && !tree.leads i, found) :: (tree.parts last).drop
        (i + 1) := by
    rw [← hat, getElem_cons_drop, take_append_drop]
  have hfront : ((tree.parts last).take i).length = i := length_take_of_le (by omega)
  rcases preprocessTree_cases h with ⟨hnone, -⟩ | ⟨-, made, u, hmade, -, rfl⟩
  · simp [hnone] at hget
  have hlength : (made.map (·.1)).length = tree.children.length := by
    rw [← tree.map_parts last, length_map, length_map, hmade.length_eq]
  rw [hsplit] at hmade
  obtain ⟨madeFront, madeBack, w, x, rfl, hbefore, hbehind⟩ := hmade.split
  cases hbehind with
  | @cons _ _ _ c rest _ u' _ _ v' _ first others =>
    refine ⟨_, _, madeFront, w, x, c, u', v', hsplit, hfront, hbefore, first,
      Tree.at?_withParts hlength ?_⟩
    rw [getElem?_map, ← hfront, ← hbefore.length_eq]
    simp

/-- **Preprocessing comes to every position** inside of a tree and closes what is there; the result
is in the place to which the position is moved.  The induction is on the position. -/
theorem exists_closing (h : Reaches (preprocessTree mode last tree) t s r t' s')
    (hat : tree.at? (i :: p) = some node) :
        ∃ u v c u' v', Comes mode last tree t s (i :: p) node u ∧
        Reaches (closing mode (last && !tree.followed (i :: p))
        (preprocessTree mode (last && !tree.followed (i :: p)) node)) u v c u' v' ∧
      r.tree.at? (tree.moved (i :: p)) = some c.1 := by
  induction p generalizing last tree r i t t' s s' with
  | nil =>
    rw [Tree.at?_cons, treeAt?] at hat
    obtain ⟨part, hpart, hnode⟩ := Option.bind_eq_some_iff.1 hat
    obtain rfl : part = node := by simpa [Tree.at?] using hnode
    obtain ⟨front, back, made, u, v, c, u', v', hsplit, rfl, hbefore, hclose, hplace⟩ :=
      exists_closing_part h hpart
    refine ⟨u, v, c, u', v', .inPart hsplit hbefore .here, ?_, ?_⟩
    · simpa [Tree.followed, Tree.goesThrough, hpart] using hclose
    · simpa [Tree.moved, hpart] using hplace
  | cons j p ih =>
    rw [Tree.at?_cons, treeAt?] at hat
    obtain ⟨part, hpart, hnode⟩ := Option.bind_eq_some_iff.1 hat
    obtain ⟨front, back, made, u, v, c, u', v', hsplit, rfl, hbefore, hclose, hplace⟩ :=
      exists_closing_part h hpart
    rcases closing_cases hclose with ⟨hcandidate, -⟩ | ⟨-, q, hq, rfl⟩
    · rw [Tree.at?_cons, Tree.children_of_isCandidate hcandidate] at hnode
      cases hnode
    · obtain ⟨w, x, d, w', x', hcomes, hclosed, hmoved⟩ := ih hq hnode
      refine ⟨w, x, d, w', x', .inPart hsplit hbefore hcomes, ?_, ?_⟩
      · rw [Tree.followed, Tree.goesThrough, hpart, Bool.not_or, ← Bool.and_assoc]
        exact hclosed
      · rw [Tree.moved, hpart, Tree.at?_append, hplace]
        exact hmoved

theorem exists_comes (h : Reaches (preprocessTree mode last tree) t s r t' s')
    (hat : tree.at? p = some node) : ∃ u, Comes mode last tree t s p node u := by
  cases p with
  | nil =>
    obtain rfl : tree = node := by simpa [Tree.at?] using hat
    exact ⟨t, .here⟩
  | cons =>
    obtain ⟨u, -, -, -, -, hcomes, -⟩ := exists_closing h hat
    exact ⟨u, hcomes⟩

/-! ### Scripts -/

/-- Known texts are joined by line ends. -/
theorem joinTexts_map_some (texts : List String) :
    joinTexts (texts.map some) = some ("\n".intercalate texts) := by
  have hknown : (texts.map some).mapM id = some texts := by
    induction texts with
    | nil => rfl
    | cons text texts ih =>
      rw [map_cons, mapM_cons, ih]
      rfl
  rw [joinTexts, hknown]
  rfl

theorem joinTexts_singleton (text : Option String) : joinTexts [text] = text := by
  cases text <;> rfl

/-- What is left of an item with a text, which may be known, if it becomes no region: its text, if
nothing in it was replaced. -/
def Preprocessed.keep (p : Preprocessed) (text : Option String) : Tree :=
  if p.replaced then p.tree else text.elim p.tree .verbatim

/-- **What preprocessing does with an item of a script.**  A tree in the background is held back.
Any other is preprocessed; it becomes a region with what was held back, or by itself if it can
become one, or else stays. -/
theorem preprocessItem_steps {item : ScriptItem} {r : Option Tree × List ScriptItem}
    (h : Reaches (preprocessItem mode last held item) t s r t' s') :
    (item.tree.isBackground ∧ r = (none, held ++ [item]) ∧ t = t' ∧ s = s') ∨
    (item.tree.isBackground = false ∧
      ∃ p u v tree, Reaches (preprocessTree mode last item.tree) t s p u v ∧ r = (some tree, []) ∧
        (((held ≠ [] ∨ item.tree.isCandidate) ∧
          Reaches (storeRegion mode (held.map (·.tree) ++ [p.tree])
            (joinTexts ((held ++ [item]).map (·.text))) last) u v tree t' s') ∨
        (held = [] ∧ item.tree.isCandidate = false ∧ u = t' ∧ v = s' ∧
          tree = p.keep item.text))) := by
  obtain ⟨p, u, v, hp, hrest⟩ := h.bind
  obtain ⟨hcandidate, hbackground, -⟩ := preprocessTree_flags hp
  dsimp only at hrest
  split at hrest
  · obtain ⟨_, _, _, hthrow, -⟩ := hrest.bind
    exact (reaches_throw.1 hthrow).elim
  split at hrest
  · next hextends =>
    rw [hbackground] at hextends
    obtain ⟨rfl, rfl, rfl⟩ := hrest.pure
    rcases preprocessTree_cases hp with ⟨-, rfl, rfl, rfl⟩ | ⟨hparts, -⟩
    · exact .inl ⟨hextends, rfl, rfl, rfl⟩
    · exact absurd hextends (by rw [Tree.isBackground_of_parts hparts]; exact Bool.false_ne_true)
  · next hextends =>
    rw [hbackground, Bool.not_eq_true] at hextends
    refine .inr ⟨hextends, p, u, v, ?_⟩
    split at hrest
    · next hheld =>
      obtain ⟨call, _, _, hstore, hpure⟩ := hrest.bind
      obtain ⟨rfl, rfl, rfl⟩ := hpure.pure
      rw [storeItems, map_append] at hstore
      exact ⟨call, hp, rfl, .inl ⟨.inl (by simpa using hheld), by simpa using hstore⟩⟩
    · next hheld =>
      obtain rfl : held = [] := by simpa using hheld
      split at hrest
      · next hwhole =>
        obtain ⟨call, _, _, hstore, hpure⟩ := hrest.bind
        obtain ⟨rfl, rfl, rfl⟩ := hpure.pure
        refine ⟨call, hp, rfl, .inl ⟨.inr (hcandidate ▸ hwhole), ?_⟩⟩
        rw [nil_append, map_singleton, joinTexts_singleton]
        exact hstore
      · next hwhole =>
        rw [hcandidate, Bool.not_eq_true] at hwhole
        refine ⟨p.keep item.text, hp, ?_⟩
        split at hrest
        · next text htext =>
          obtain ⟨rfl, rfl, rfl⟩ := hrest.pure
          rw [Preprocessed.keep, htext]
          exact ⟨rfl, .inr ⟨rfl, hwhole, rfl, rfl, rfl⟩⟩
        · next htext =>
          obtain ⟨rfl, rfl, rfl⟩ := hrest.pure
          rw [Preprocessed.keep, htext, Option.elim_none, ite_self]
          exact ⟨rfl, .inr ⟨rfl, hwhole, rfl, rfl, rfl⟩⟩

/-- A run through the items of a script, after those that are held back.  An item in the background
is held back and changes nothing, and any other makes a tree.  What is held back at the end makes a
tree too. -/
inductive RunsThrough (mode : Mode) :
    List ScriptItem → List ScriptItem → Traversal → Supply → List Tree → Traversal → Supply → Prop
  | done (t : Traversal) (s : Supply) : RunsThrough mode [] [] t s [] t s
  | store {held : List ScriptItem} {tree : Tree} {t t' : Traversal} {s s' : Supply}
      (some : held ≠ []) (stored : Reaches (storeItems mode held true) t s tree t' s') :
      RunsThrough mode held [] t s [tree] t' s'
  | hold {held rest : List ScriptItem} {item : ScriptItem} {trees : List Tree} {t t' : Traversal}
      {s s' : Supply} (background : item.tree.isBackground)
      (step : Reaches (preprocessItem mode rest.isEmpty held item) t s (none, held ++ [item]) t s)
      (further : RunsThrough mode (held ++ [item]) rest t s trees t' s') :
      RunsThrough mode held (item :: rest) t s trees t' s'
  | make {held rest : List ScriptItem} {item : ScriptItem} {tree : Tree} {trees : List Tree}
      {t u t' : Traversal} {s v s' : Supply} (background : item.tree.isBackground = false)
      (step : Reaches (preprocessItem mode rest.isEmpty held item) t s (.some tree, []) u v)
      (further : RunsThrough mode [] rest u v trees t' s') :
      RunsThrough mode held (item :: rest) t s (tree :: trees) t' s'

theorem runsThrough_of_reaches {items : List ScriptItem} {trees : List Tree}
    (h : Reaches (preprocessItems mode held items) t s trees t' s') :
    RunsThrough mode held items t s trees t' s' := by
  induction items generalizing held t s trees with
  | nil =>
    rw [preprocessItems] at h
    split at h
    · next hheld =>
      obtain ⟨rfl, rfl, rfl⟩ := h.pure
      obtain rfl := isEmpty_iff.1 hheld
      exact .done t s
    · next hheld =>
      obtain ⟨tree, _, _, hstore, hpure⟩ := h.bind
      obtain ⟨rfl, rfl, rfl⟩ := hpure.pure
      exact .store (by simpa using hheld) hstore
  | cons _ _ ih =>
    obtain ⟨⟨made, after⟩, u, v, hstep, hlater⟩ := h.bind
    obtain ⟨others, _, _, hrest, hpure⟩ := hlater.bind
    obtain ⟨rfl, rfl, rfl⟩ := hpure.pure
    rcases preprocessItem_steps hstep with ⟨hbackground, heq, rfl, rfl⟩ | ⟨hbackground, _, _, _,
      tree, -, heq, -⟩
    · cases heq
      exact .hold hbackground hstep (ih hrest)
    · cases heq
      exact .make hbackground hstep (ih hrest)

/-- Preprocessing a script, after the items that are held back, comes to the tree at a position in
it, with some traversal. -/
inductive ComesTo (mode : Mode) :
    List ScriptItem → List ScriptItem → Traversal → Supply → Position → Tree → Traversal → Prop
  | first {held rest : List ScriptItem} {item : ScriptItem} {t u : Traversal} {s : Supply}
      {p : Position} {node : Tree} (further : Comes mode rest.isEmpty item.tree t s p node u) :
      ComesTo mode held (item :: rest) t s (0 :: p) node u
  | later {held held' rest : List ScriptItem} {item : ScriptItem} {tree : Option Tree}
      {t u w : Traversal} {s v : Supply} {i : Nat} {p : Position} {node : Tree}
      (step : Reaches (preprocessItem mode rest.isEmpty held item) t s (tree, held') u v)
      (further : ComesTo mode held' rest u v (i :: p) node w) :
      ComesTo mode held (item :: rest) t s ((i + 1) :: p) node w

/-- Preprocessing a script comes to every position in it. -/
theorem exists_comesTo {items : List ScriptItem} {trees : List Tree}
    (h : Reaches (preprocessItems mode held items) t s trees t' s')
    (hat : treeAt? (items.map (·.tree)) p = some node) :
    ∃ u, ComesTo mode held items t s p node u := by
  induction items generalizing held trees p t s t' s' with
  | nil => cases p <;> cases hat
  | cons _ rest ih =>
    obtain ⟨⟨tree, held'⟩, u, v, hstep, hlater⟩ := h.bind
    obtain ⟨others, w, x, hrest, -⟩ := hlater.bind
    cases p with
    | nil => cases hat
    | cons i p =>
      cases i with
      | zero =>
        obtain ⟨q, y, z, hq, -⟩ := hstep.bind
        obtain ⟨found, hfound⟩ := exists_comes hq hat
        exact ⟨found, .first hfound⟩
      | succ i =>
        have hbehind : treeAt? (rest.map (·.tree)) (i :: p) = some node := hat
        obtain ⟨found, hfound⟩ := ih hrest hbehind
        exact ⟨found, .later hstep hfound⟩

end ShellFlow
