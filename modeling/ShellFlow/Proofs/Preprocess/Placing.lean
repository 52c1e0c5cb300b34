import ShellFlow.Proofs.Preprocess.Numbering

/-!
# Where calls and counters are put

Whatever has no parts in a preprocessed tree is the call of a region in the place of what became
one, stands where it stood, or counts the rounds of a loop over words.  A region is run in sequence
if the exit status of the whole tree is that of the script, and the region is in no part that
something follows.
-/

namespace ShellFlow

open List

variable {mode : Mode} {last : Bool} {t t' : Traversal} {s s' : Supply} {tree node x : Tree}
  {r : Preprocessed}
  {p q : Position}

/-! ### Origins -/

namespace Tree

theorem nil_of_at? (hleaf : tree.children = []) (h : tree.at? p = some x) : p = [] ∧ x = tree := by
  cases p with
  | nil => exact ⟨rfl, (Option.some.inj h).symm⟩
  | cons =>
    rw [at?_cons, hleaf] at h
    cases h

theorem part_of_at? (h : tree.at? p = some x) (hx : x.children = []) (hparts : tree.children ≠ []) :
    ∃ i part rest, p = i :: rest ∧ tree.children[i]? = some part ∧ part.at? rest = some x := by
  cases p with
  | nil =>
    cases h
    exact absurd hx hparts
  | cons i p =>
    rw [at?_cons, treeAt?] at h
    obtain ⟨part, hpart, h⟩ := Option.bind_eq_some_iff.1 h
    exact ⟨i, part, p, rfl, hpart, h⟩

theorem join_at? {op : Connective} {left right : Tree}
    (h : (Tree.join op left right).at? p = some x) (hx : x.children = []) :
    (∃ rest, p = 0 :: rest ∧ left.at? rest = some x) ∨ ∃ rest, p = 1 :: rest ∧
    right.at? rest = some x := by
  obtain ⟨_ | _ | i, part, rest, rfl, hpart, h⟩ := part_of_at? h hx (cons_ne_nil _ _)
  · cases hpart
    exact .inl ⟨rest, rfl, h⟩
  · cases hpart
    exact .inr ⟨rest, rfl, h⟩
  · cases hpart

end Tree

/-- Where the commands are that a loop over words is given to count its rounds. -/
def counterPlaces : List Position := [[0], [1, 0, 0, 0], [1, 0, 0, 1, 0], [1, 1]]

theorem at?_countedLoop {loop : Int} {inside outside : List Int} {line name : Value} {range : Word}
    {body : Tree} (h : (countedLoop loop inside outside line range body name).at? p = some x)
    (hx : x.children = []) : p ∈ counterPlaces ∨ ∃ rest, p = [1, 0, 0, 1, 1] ++ rest := by
  rcases Tree.join_at? h hx with ⟨p, rfl, hstart⟩ | ⟨p, rfl, hloop⟩
  · obtain ⟨rfl, -⟩ := Tree.nil_of_at? rfl hstart
    exact .inl (by decide)
  rcases Tree.join_at? hloop hx with ⟨p, rfl, hround⟩ | ⟨p, rfl, hbehind⟩
  · obtain ⟨_ | i, part, p, rfl, hpart, hbody⟩ := Tree.part_of_at? hround hx (cons_ne_nil _ _)
    · cases hpart
      rcases Tree.join_at? hbody hx with ⟨p, rfl, hincrement⟩ | ⟨p, rfl, hrest⟩
      · obtain ⟨rfl, -⟩ := Tree.nil_of_at? rfl hincrement
        exact .inl (by decide)
      rcases Tree.join_at? hrest hx with ⟨p, rfl, hinside⟩ | ⟨p, rfl, -⟩
      · obtain ⟨rfl, -⟩ := Tree.nil_of_at? rfl hinside
        exact .inl (by decide)
      · exact .inr ⟨p, rfl⟩
    · cases hpart
  · obtain ⟨rfl, -⟩ := Tree.nil_of_at? rfl hbehind
    exact .inl (by decide)

/-- A region that has been stored is called with some variables. -/
theorem exists_runtimeCall {trees : List Tree} {text : Option String} {inSequence : Bool}
    {call : Tree} (h : Reaches (storeRegion mode trees text inSequence) t s call t' s') :
    ∃ assigned, call = runtimeCall assigned := by
  cases mode with
  | direct =>
    obtain ⟨-, -, rfl, -⟩ := reaches_storeRegion h
    exact ⟨_, rfl⟩
  | speculative =>
    obtain ⟨-, -, rfl, -⟩ := reaches_storeRegion_speculative h
    exact ⟨_, rfl⟩

section

variable (h : Reaches (preprocessTree mode last tree) t s r t' s')
include h

/-- What has no parts in a construct that has been preprocessed: a command that counts the rounds of
a loop, or inside of a part that has been closed. -/
theorem exists_part_origin (hparts : tree.children ≠ []) (hat : r.tree.at? p = some x)
    (hx : x.children = []) : (tree.isForEach ∧ p ∈ counterPlaces) ∨
    ∃ i part rest last' u v c u' v', tree.children[i]? = some part ∧ p = tree.partPlace i ++ rest ∧
      Reaches (closing mode last' (preprocessTree mode last' part)) u v c u' v' ∧
      c.1.at? rest = some x := by
  have hclosed : ∀ i part rest, tree.children[i]? = some part → p = tree.partPlace i ++ rest →
      ∃ i part rest last' u v c u' v', tree.children[i]? = some part ∧
        p = tree.partPlace i ++ rest ∧
        Reaches (closing mode last' (preprocessTree mode last' part)) u v c u' v' ∧
          c.1.at? rest = some x := by
    rintro i part rest hpart rfl
    obtain ⟨-, -, -, u, v, c, u', v', -, -, -, hclose, hplace⟩ := exists_closing_part h hpart
    rw [Tree.at?_append, hplace] at hat
    exact ⟨i, part, rest, _, u, v, c, u', v', hpart, rfl, hclose, hat⟩
  rcases preprocessTree_cases h with ⟨hnone, -⟩ | ⟨-, made, u, hmade, -, rfl⟩
  · exact absurd (by rw [← tree.map_parts last, hnone, map_nil]) hparts
  have hlength : (made.map (·.1)).length = tree.children.length := by
    rw [← tree.map_parts last, length_map, length_map, hmade.length_eq]
  cases hfor : tree.isForEach with
  | false =>
    obtain ⟨i, new, rest, rfl, hnew, -⟩ :=
      Tree.part_of_at? hat hx (Tree.children_withParts_ne_nil hlength hparts)
    rw [Tree.children_withParts hlength hfor] at hnew
    have hi := (List.getElem?_eq_some_iff.1 hnew).1
    exact .inr (hclosed i _ rest (getElem?_eq_getElem (hlength ▸ hi))
      (by rw [Tree.partPlace, hfor]; rfl))
  | true =>
    cases tree with
    | forEach _ _ body =>
      obtain ⟨new, hnew⟩ := length_eq_one_iff.1 hlength
      rw [hnew] at hat
      rcases at?_countedLoop hat hx with hplace | ⟨rest, hrest⟩
      · exact .inl ⟨rfl, hplace⟩
      · exact .inr (hclosed 0 body rest rfl hrest)
    | _ => cases hfor

/-- **Where anything without parts comes from** in a tree that has been preprocessed: it is in the
place of a tree without parts, or counts the rounds of a loop.  The induction is on the parts of
constructs. -/
theorem exists_origin (hat : r.tree.at? p = some x) (hx : x.children = []) :
    (∃ q node, tree.at? q = some node ∧ node.children = [] ∧ p = tree.moved q) ∨
    ∃ q node, tree.at? q = some node ∧ node.isForEach ∧
    ∃ place ∈ counterPlaces, p = tree.moved q ++ place := by
  induction tree using Tree.children_induction generalizing last t s r t' s' p with
  | _ tree ih =>
    by_cases hparts : tree.children = []
    · rcases preprocessTree_cases h with ⟨-, -, -, rfl⟩ | ⟨hsome, -⟩
      · obtain ⟨rfl, -⟩ := Tree.nil_of_at? hparts hat
        exact .inl ⟨[], tree, rfl, hparts, rfl⟩
      · exact absurd (map_eq_nil_iff.1 ((tree.map_parts last).trans hparts)) hsome
    rcases exists_part_origin h hparts hat hx with ⟨hfor, hplace⟩ | ⟨i, part, rest, last', u, v, c,
      u', v', hpart, rfl, hclose, hrest⟩
    · exact .inr ⟨[], tree, rfl, hfor, p, hplace, rfl⟩
    have hmoved : ∀ q, tree.moved (i :: q) = tree.partPlace i ++ part.moved q :=
      fun q => by rw [Tree.moved, hpart]
    have hin : ∀ q, tree.at? (i :: q) = part.at? q := fun q => by rw [Tree.at?, hpart]
    rcases closing_cases hclose with ⟨hcandidate, -, hstore⟩ | ⟨-, made, hmade, rfl⟩
    · obtain ⟨assigned, hcall⟩ := exists_runtimeCall hstore
      rw [hcall] at hrest
      obtain ⟨rfl, -⟩ := Tree.nil_of_at? rfl hrest
      exact .inl ⟨[i], part, hin [], Tree.children_of_isCandidate hcandidate, (hmoved []).symm⟩
    · rcases ih part (mem_of_getElem? hpart) hmade hrest with
        ⟨q, node, hnode, hleaf, rfl⟩ | ⟨q, node, hnode, hfor, place, hplace, rfl⟩
      · exact .inl ⟨i :: q, node, (hin q).trans hnode, hleaf, (hmoved q).symm⟩
      · exact .inr ⟨i :: q, node, (hin q).trans hnode, hfor, place,
          hplace, by rw [hmoved, List.append_assoc]⟩

/-- A tree that cannot become a region is preprocessed, and the result is in its place. -/
theorem exists_reached (hat : tree.at? q = some node) (hcandidate : node.isCandidate = false) :
    ∃ u v c u' v', Comes mode last tree t s q node u ∧
      Reaches (preprocessTree mode (last && !tree.followed q) node) u v c u' v' ∧
      r.tree.at? (tree.moved q) = some c.tree := by
  cases q with
  | nil =>
    cases hat
    exact ⟨t, s, r, t', s', .here, (Bool.and_true last).symm ▸ h, rfl⟩
  | cons =>
    obtain ⟨u, v, c, u', v', hcomes, hclose, hplace⟩ := exists_closing h hat
    rcases closing_cases hclose with ⟨hregion, -⟩ | ⟨-, made, hmade, rfl⟩
    · cases hregion.symm.trans hcandidate
    · exact ⟨u, v, made, u', v', hcomes, hmade, hplace⟩

/-- The number of the loop at a position, where loops are numbered from some number on as they are
met. -/
def Tree.loopAt (tree : Tree) (base : Int) (q : Position) : Int :=
    base + (tree.positions isLoop).idxOf q

/-- A loop over words counts its rounds in its place, with its number and those of the loops around
it. -/
theorem exists_countedLoop (hat : tree.at? q = some node) (hfor : node.isForEach) :
    ∃ line range body name, r.tree.at? (tree.moved q) =
      some (countedLoop (tree.loopAt t.loops q)
        (tree.loopAt t.loops q :: (tree.context t.loops q ++ t.enclosing))
        (tree.context t.loops q ++ t.enclosing) line range body name) := by
  cases node with
  | forEach line range _ name =>
    obtain ⟨u, v, c, u', v', hcomes, hreach, hplace⟩ := exists_reached h hat rfl
    obtain ⟨-, hcontext, hnumber⟩ := hcomes.context
    rcases preprocessTree_cases hreach with ⟨hnone, -⟩ | ⟨-, made, w, hmade, -, rfl⟩
    · cases hnone
    obtain ⟨new, rfl⟩ := length_eq_one_iff.1 hmade.length_eq
    have hinside := (passes_preprocess.parts hmade 0).1
    have houtside := (passes_preprocess.tree hreach).1
    refine ⟨line, range, new.1, name, ?_⟩
    rw [hplace, ← hcontext, Tree.loopAt, ← hnumber rfl, hinside, houtside]
    rfl
  | _ => cases hfor

/-- The commands that count the rounds of a loop, by their places. -/
def counters (loop : Int) (inside outside : List Int) : List (Position × Tree) :=
  [([0], .exportWord (Tree.loopVariable (toString loop)) (Word.ofString "0")),
    ([1, 0, 0, 0], .increment (Tree.loopVariable (toString loop))),
      ([1, 0, 0, 1, 0], .exportLoops inside),
    ([1, 1], .exportLoops outside)]

/-- **What has no parts in a tree that has been preprocessed**: the call of a region that was
created there, a tree that stayed as it was, or a command that counts the rounds of a loop. -/
theorem leaf_cases (hat : r.tree.at? p = some x) (hx : x.children = []) :
    (∃ q node u v u' v', q ≠ [] ∧ tree.at? q = some node ∧ node.isCandidate ∧ p = tree.moved q ∧
      Reaches (storeRegion mode [node] none (last && !tree.followed q)) u v x u' v') ∨
    (∃ q, tree.at? q = some x ∧ p = tree.moved q ∧ (q ≠ [] → x.isCandidate = false)) ∨
    ∃ q node place, tree.at? q = some node ∧ node.isForEach ∧ p = tree.moved q ++ place ∧
      (place, x) ∈ counters (tree.loopAt t.loops q)
      (tree.loopAt t.loops q :: (tree.context t.loops q ++ t.enclosing))
        (tree.context t.loops q ++ t.enclosing) := by
  rcases exists_origin h hat hx with ⟨q, node, hnode, hleaf, rfl⟩ | ⟨q, node, hnode, hfor, place,
    hplace, rfl⟩
  · have hstays : ∀ {last u v c u' v'}, Reaches (preprocessTree mode last node) u v c u' v' →
        c.tree = node := by
      intro last u v c u' v' hc
      rcases preprocessTree_cases hc with ⟨-, -, -, rfl⟩ | ⟨hparts, -⟩
      · rfl
      · exact absurd (map_eq_nil_iff.1 ((node.map_parts last).trans hleaf)) hparts
    cases q with
    | nil =>
      cases hnode
      cases hat
      exact .inr (.inl ⟨[], (hstays h).symm ▸ rfl, rfl, fun hnil => absurd rfl hnil⟩)
    | cons i q =>
      obtain ⟨u, v, c, u', v', -, hclose, hplace⟩ := exists_closing h hnode
      obtain rfl := Option.mem_unique hat hplace
      rcases closing_cases hclose with ⟨hcandidate, -, hstore⟩ | ⟨hcandidate, made, hmade, rfl⟩
      · exact .inl ⟨i :: q, node, u, v, u', v', cons_ne_nil _ _, hnode, hcandidate, rfl, hstore⟩
      · refine .inr (.inl ⟨i :: q, ?_, rfl, fun _ => ?_⟩)
        · rw [hnode, hstays hmade]
        · rw [hstays hmade, hcandidate]
  · obtain ⟨line, range, body, name, hloop⟩ := exists_countedLoop h hnode hfor
    rw [Tree.at?_append, hloop] at hat
    refine .inr (.inr ⟨q, node, place, hnode, hfor, rfl, ?_⟩)
    have hplaces : place = [0] ∨ place = [1, 0, 0, 0] ∨ place = [1, 0, 0, 1, 0] ∨
        place = [1, 1] := by
      simpa [counterPlaces] using hplace
    rcases hplaces with rfl | rfl | rfl | rfl <;> cases hat <;> simp [counters, Tree.sequence]

end

/-! ### Calls -/

/-- Whether the exit status of the part with a number decides what its construct does. -/
def Tree.tests : Tree → Nat → Bool
  | .join op _ _, 0 => op != .semi
  | .negate _, 0 | .branch _ _ _, 0 | .whileDo _ _, 0 => true
  | _, _ => false

/-- Whether a position is in a part whose exit status is tested. -/
def Tree.tested : Tree → Position → Bool := goesThrough tests

theorem directCall_inSequence {f g f' g' : String} {b b' : Bool}
    (h : directCall f g b = directCall f' g' b') : b = b' := by
  cases b <;> cases b' <;> simp_all [directCall, runtimeCall]
  · cases h.1
  · cases h.1

theorem exists_directCall (h : Reaches (preprocessTree .direct last tree) t s r t' s') (hq : q ≠ [])
    (hnode : tree.at? q = some node) (hcandidate : node.isCandidate) :
    ∃ f g, r.tree.at? (tree.moved q) = some (directCall f g (last && !tree.followed q)) := by
  obtain ⟨i, q, rfl⟩ := exists_cons_of_ne_nil hq
  obtain ⟨u, v, c, u', v', -, hclose, hplace⟩ := exists_closing h hnode
  rcases closing_cases hclose with ⟨-, -, hstore⟩ | ⟨hnone, -⟩
  · obtain ⟨-, -, hcall, -⟩ := reaches_storeRegion hstore
    exact ⟨_, _, hplace.trans (congrArg some hcall)⟩
  · cases hcandidate.symm.trans hnone

/-- **Which regions are run in sequence.**  What is called inside of a tree are the regions of what
can become one.  Those whose exit status is tested are run in sequence if and only if the exit
status of the tree is that of the script and none of them is in the first part of a sequence. -/
theorem preprocessTree_tested_inSequence_iff
    (h : Reaches (preprocessTree .direct last tree) t s r t' s') :
    (∀ p b, p ≠ [] → ((∃ f g, r.tree.at? p = some (directCall f g b)) ↔
      ∃ q node, q ≠ [] ∧ tree.at? q = some node ∧ node.isCandidate = true ∧ p = tree.moved q ∧
        b = (last && !tree.followed q))) ∧
    ((∀ q node, tree.at? q = some node → node.isCandidate = true → tree.tested q = true →
        ∃ f g, r.tree.at? (tree.moved q) = some (directCall f g true)) ↔
      ∀ q node, tree.at? q = some node → node.isCandidate = true → tree.tested q = true →
        last = true ∧ tree.followed q = false) := by
  have hinside : ∀ q, tree.tested q = true → q ≠ [] := by
    rintro q htested rfl
    cases htested
  constructor
  · intro p b hp
    constructor
    · rintro ⟨f, g, hat⟩
      rcases leaf_cases h hat rfl with ⟨q, node, u, v, u', v', hq, hnode, hcandidate, rfl, hstore⟩ |
        ⟨q, -, rfl, hnone⟩ | ⟨q, node, place, -, -, -, hplace⟩
      · obtain ⟨-, -, hcall, -⟩ := reaches_storeRegion hstore
        exact ⟨q, node, hq, hnode, hcandidate, rfl, directCall_inSequence hcall⟩
      · cases hnone fun hnil => hp (by rw [hnil, Tree.moved])
      · simp [counters, Tree.exportLoops, Tree.exportWord, Tree.increment, Tree.assign, Tree.simple,
          directCall, runtimeCall] at hplace
    · rintro ⟨q, node, hq, hnode, hcandidate, rfl, rfl⟩
      exact exists_directCall h hq hnode hcandidate
  · constructor
    · intro hall q node hnode hcandidate htested
      obtain ⟨f, g, hcall⟩ := hall q node hnode hcandidate htested
      obtain ⟨f', g', hcall'⟩ := exists_directCall h (hinside q htested) hnode hcandidate
      have hflag := directCall_inSequence (Option.some.inj (hcall'.symm.trans hcall))
      simpa using hflag
    · intro hall q node hnode hcandidate htested
      obtain ⟨hlast, hfollowed⟩ := hall q node hnode hcandidate htested
      obtain ⟨f, g, hcall⟩ := exists_directCall h (hinside q htested) hnode hcandidate
      rw [hlast, hfollowed] at hcall
      exact ⟨f, g, hcall⟩

/-- A command that is run if another one finds something. -/
def finding : Tree := .join .and (.texts ["grep", "x"]) (.texts ["ls"])

theorem preprocessTree_tested_finding :
    ∃ r t' s', Reaches (preprocessTree .direct true finding) {} {} r t' s' ∧
      finding.tested [0] = true ∧ ∃ f g, r.tree.at? [0] = some (directCall f g true) := by
  obtain ⟨r, t', s', h⟩ :=
    @exists_reaches_of_isOk _ {} {} (preprocessTree .direct true finding) (by decide +kernel)
  obtain ⟨f, g, hcall⟩ :=
    ((preprocessTree_tested_inSequence_iff h).1 [0] true (List.cons_ne_nil _ _)).2
    ⟨[0], .texts ["grep", "x"], List.cons_ne_nil _ _, rfl, rfl, rfl, rfl⟩
  exact ⟨r, t', s', h, rfl, f, g, hcall⟩

/-- The exit status of a command is tested that is not run in sequence. -/
theorem preprocessTree_tested_not_inSequence :
    ∃ r t' s', Reaches (preprocessTree .direct false finding) {} {} r t' s' ∧
      finding.tested [0] = true ∧ ∃ f g, r.tree.at? [0] = some (directCall f g false) := by
  obtain ⟨r, t', s', h⟩ :=
    @exists_reaches_of_isOk _ {} {} (preprocessTree .direct false finding) (by decide +kernel)
  exact ⟨r, t', s', h, rfl, exists_directCall h (List.cons_ne_nil 0 []) rfl rfl⟩

/-!
### Loops whose rounds are counted

A loop over words announces the rounds of the loops around it.  A loop with a test is numbered as
any loop is, but does not count its rounds, so what a loop over words inside of it announces is not
counted.
-/

variable {base k l loop : Int} {body test : Tree} {inside outside : List Int} {line name : Value}
  {range : Word}

namespace Tree

theorem loopVariable_inj (h : loopVariable (toString k) = loopVariable (toString l)) : k = l := by
  have htexts : toString k = toString l := by simpa [loopVariable] using h
  exact Int.repr_injective htexts

def referred? : Part → Option String
  | .reference content => some (referenceName content)
  | _ => none

theorem filterMap_loopReferences (ids : List Int) :
    (loopReferences ids).filterMap referred? = ids.map fun k => loopVariable (toString k) := by
  fun_induction loopReferences ids with
  | case1 => rfl
  | case2 => rfl
  | case3 _ _ _ ih =>
    simp only [filterMap_cons, map_cons, referred?, ih]
    rfl

/-- The loops that a command announces can be told from it. -/
theorem exportLoops_inj {ids ids' : List Int} (h : exportLoops ids = exportLoops ids') :
    ids = ids' := by
  have hrefs : loopReferences ids = loopReferences ids' := by
    simp only [exportLoops, exportWord, simple, Tree.command.injEq, List.cons.injEq,
      append_cancel_left_eq] at h
    cases ids <;> cases ids' <;> simp_all
  refine map_injective_iff.2 (fun k l => loopVariable_inj) (?_ : ids.map _ = ids'.map _)
  rw [← filterMap_loopReferences, hrefs, filterMap_loopReferences]

/-- Where something is that is inside of a tree at a position. -/
theorem moved_append (h : tree.at? q = some node) (p : Position) :
    tree.moved (q ++ p) = tree.moved q ++ node.moved p := by
  induction q generalizing tree with
  | nil =>
    cases h
    rfl
  | cons i q ih =>
    rw [at?_cons, treeAt?] at h
    obtain ⟨part, hpart, h⟩ := Option.bind_eq_some_iff.1 h
    rw [cons_append, moved, moved, hpart]
    dsimp only
    rw [ih h, List.append_assoc]

/-- The loops around a position are those at the positions that it goes on from. -/
theorem mem_context : k ∈ tree.context base p ↔
    ∃ q ∈ tree.positions isLoop, (q <+: p ∧ q ≠ p) ∧ tree.loopAt base q = k := by
  simp only [context, around, mem_map, mem_filter, mem_above, ← mem_positions, loopAt]
  simp only [and_assoc, and_left_comm]

theorem loopAt_inj (hq : q ∈ tree.positions isLoop) (h : tree.loopAt base q = tree.loopAt base p) :
    q = p := by
  rw [loopAt, loopAt] at h
  exact (idxOf_inj hq).1 (by omega)

theorem mem_positions_of_isForEach (h : tree.at? q = some node) (hfor : node.isForEach) :
    q ∈ tree.positions isLoop := by
  refine mem_positions.2 (h ▸ ?_)
  cases node with
  | forEach => rfl
  | _ => cases hfor

end Tree

/-- The loop with a number counts its rounds: its counter is set to zero in front of it, and nothing
that is put in adds to the counter but the command with which every round begins. -/
structure CountsRounds (tree new : Tree) (base k : Int) (q : Position) : Prop where
  loop : q ∈ tree.positions Tree.isLoop
  number : tree.loopAt base q = k
  counted : ∃ inside outside line range body name,
    new.at? (tree.moved q) = some (countedLoop k inside outside line range body name)
  once : ∀ p, new.at? p = some (.increment (Tree.loopVariable (toString k))) →
    p = tree.moved q ++ [1, 0, 0, 0] ∨
    ∃ q', tree.at? q' = some (.increment (Tree.loopVariable (toString k))) ∧ p = tree.moved q'

theorem exportLoops_ne_runtimeCall (ids : List Int) (assigned : List (String × String)) :
    Tree.exportLoops ids ≠ runtimeCall assigned := by
  intro h
  simp only [Tree.exportLoops, Tree.exportWord, Tree.simple, runtimeCall, Tree.command.injEq,
    List.cons.injEq] at h
  cases h.2.2.1.1

theorem exportWord_ne_exportLoops (name : String) (ids : List Int) :
    Tree.exportWord name (Word.ofString "0") ≠ Tree.exportLoops ids := by
  intro h
  simp only [Tree.exportLoops, Tree.exportWord, Tree.simple, Tree.command.injEq,
    List.cons.injEq] at h
  have hlast := congrArg List.getLast? h.2.2.1.2.1
  rw [show Word.ofString "0" = [.char 48] from rfl, getLast?_concat] at hlast
  cases ids with
  | nil => cases hlast
  | cons =>
    cases hlast

theorem increment_mem_counters
    (h : (p, .increment (Tree.loopVariable (toString k))) ∈ counters loop inside outside) :
    p = [1, 0, 0, 0] ∧ k = loop := by
  simp [counters, Tree.exportLoops, Tree.exportWord, Tree.increment, Tree.assign, Tree.simple] at h
  exact ⟨h.1, Tree.loopVariable_inj h.2.1⟩

theorem exportLoops_mem_counters {ids : List Int}
    (h : (p, .exportLoops ids) ∈ counters loop inside outside) :
    (p = [1, 0, 0, 1, 0] ∧ ids = inside) ∨ (p = [1, 1] ∧ ids = outside) := by
  simp only [counters, mem_cons, Prod.mk.injEq, not_mem_nil, or_false] at h
  rcases h with ⟨-, h⟩ | ⟨-, h⟩ | ⟨rfl, h⟩ | ⟨rfl, h⟩
  · exact absurd h.symm (exportWord_ne_exportLoops _ _)
  · simp [Tree.exportLoops, Tree.exportWord, Tree.simple, Tree.increment, Tree.assign] at h
  · exact .inl ⟨rfl, Tree.exportLoops_inj h⟩
  · exact .inr ⟨rfl, Tree.exportLoops_inj h⟩

/-- A loop over words counts its rounds. -/
theorem countsRounds_of_isForEach (h : Reaches (preprocessTree mode last tree) t s r t' s')
    (hat : tree.at? q = some node) (hfor : node.isForEach) :
    CountsRounds tree r.tree t.loops (tree.loopAt t.loops q) q := by
  have hloop := Tree.mem_positions_of_isForEach hat hfor
  refine ⟨hloop, rfl, ?_, fun p hp => ?_⟩
  · obtain ⟨line, range, body, name, hcounted⟩ := exists_countedLoop h hat hfor
    exact ⟨_, _, line, range, body, name, hcounted⟩
  rcases leaf_cases h hp rfl with ⟨q', node', u, v, u', v', -, -, -, -, hstore⟩ | ⟨q',
    hq', rfl, -⟩ |
    ⟨q', node', place, -, -, rfl, hplace⟩
  · obtain ⟨assigned, hcall⟩ := exists_runtimeCall hstore
    simp [Tree.increment, Tree.assign, runtimeCall] at hcall
  · exact .inr ⟨q', hq', rfl⟩
  · obtain ⟨rfl, hnumber⟩ := increment_mem_counters hplace
    exact .inl (by rw [Tree.loopAt_inj hloop hnumber])

/-- A loop with a test does not count its rounds. -/
theorem not_countsRounds_of_whileDo (h : Reaches (preprocessTree mode last tree) t s r t' s')
    (hat : tree.at? q = some (.whileDo test body)) :
    ¬ CountsRounds tree r.tree t.loops (tree.loopAt t.loops q) p := by
  rintro ⟨-, hnumber, ⟨inside, outside, line, range, new, name, hplace⟩, -⟩
  obtain rfl := Tree.loopAt_inj (Tree.mem_positions.2 (hat ▸ rfl)) hnumber.symm
  obtain ⟨u, v, c, u', v', -, hreach, hplace'⟩ := exists_reached h hat rfl
  rcases preprocessTree_cases hreach with ⟨hnone, -⟩ | ⟨-, made, w, hmade, -, rfl⟩
  · cases hnone
  · obtain ⟨newTest, newBody, rfl⟩ := length_eq_two.1 hmade.length_eq
    cases hplace.symm.trans hplace'

/-- A loop over words announces the loops with a test that are around it. -/
theorem exists_announced {inner : Tree} (h : Reaches (preprocessTree mode last tree) t s r t' s')
    (hwhile : tree.at? q = some (.whileDo test body))
    (hfor : tree.at? (q ++ p) = some (.forEach line range inner name)) :
    ∃ ids place, place ≠ [] ∧ r.tree.at? place = some (.exportLoops ids) ∧
    tree.loopAt t.loops q ∈ ids := by
  obtain ⟨line', range', body', name', hcounted⟩ := exists_countedLoop h hfor rfl
  have hne : q ≠ q ++ p := by
    intro heq
    rw [← heq, hwhile] at hfor
    cases hfor
  have hmem : tree.loopAt t.loops q ∈ tree.context t.loops (q ++ p) :=
    Tree.mem_context.2 ⟨q, Tree.mem_positions.2 (hwhile ▸ rfl), ⟨prefix_append q p, hne⟩, rfl⟩
  refine ⟨tree.context t.loops (q ++ p) ++ t.enclosing, tree.moved (q ++ p) ++ [1, 1], by simp, ?_,
    mem_append_left _ hmem⟩
  rw [Tree.at?_append, hcounted]
  rfl

/-- What is inside of a loop over words is behind the command with which its rounds begin. -/
theorem moved_inside (h : tree.at? q = some (.forEach line range body name)) (hlead : q <+: p)
    (hne : q ≠ p) (place : Position) : tree.moved q ++ [1, 0, 0] <+: tree.moved p ++ place := by
  obtain ⟨_ | ⟨i, rest⟩, rfl⟩ := hlead
  · exact absurd (append_nil q).symm hne
  · rw [Tree.moved_append h, List.append_assoc]
    refine (prefix_append_right_inj _).2 ?_
    rw [Tree.moved, Tree.partPlace, List.append_assoc]
    exact ⟨[1, 1] ++ _, rfl⟩

/-- **Which trees count the rounds of all loops that they announce**: those without a loop over
words inside of a loop with a test. -/
theorem preprocessTree_counted_iff (h : Reaches (preprocessTree mode last tree) t s r t' s')
    (ht : t.enclosing = []) :
    (∀ p ids k, p ≠ [] → r.tree.at? p = some (.exportLoops ids) → k ∈ ids →
      ∃ q, CountsRounds tree r.tree t.loops k q ∧ tree.moved q ++ [1, 0, 0] <+: p) ↔
    ∀ q p test body line range inner name, tree.at? q = some (.whileDo test body) →
      tree.at? (q ++ p) ≠ some (.forEach line range inner name) := by
  constructor
  · intro hall q p test body line range inner name hwhile hfor
    obtain ⟨ids, place, hplace, hexport, hmem⟩ := exists_announced h hwhile hfor
    obtain ⟨q', hcounts, -⟩ := hall place ids _ hplace hexport hmem
    exact not_countsRounds_of_whileDo h hwhile hcounts
  · intro hall p ids k hp hat hk
    rcases leaf_cases h hat rfl with ⟨q, node, u, v, u', v', -, -, -, -, hstore⟩ | ⟨q, -,
      rfl, hnone⟩ |
      ⟨q, node, place, hq, hfor, rfl, hplace⟩
    · obtain ⟨assigned, hcall⟩ := exists_runtimeCall hstore
      exact absurd hcall (exportLoops_ne_runtimeCall ids assigned)
    · cases hnone fun hnil => hp (by rw [hnil, Tree.moved])
    rw [ht, List.append_nil] at hplace
    have haround : k ∈ tree.context t.loops q →
        ∃ q', CountsRounds tree r.tree t.loops k q' ∧
          tree.moved q' ++ [1, 0, 0] <+: tree.moved q ++ place := by
      intro hmem
      obtain ⟨q', hloop, ⟨hlead, hne⟩, rfl⟩ := Tree.mem_context.1 hmem
      cases hq' : tree.at? q' with
      | none => simp [Tree.mem_positions, hq'] at hloop
      | some loop =>
        rw [Tree.mem_positions, hq'] at hloop
        cases loop with
        | forEach line range body name =>
          exact ⟨q', countsRounds_of_isForEach h hq' rfl, moved_inside hq' hlead hne place⟩
        | whileDo test body =>
          obtain ⟨rest, rfl⟩ := hlead
          cases node with
          | forEach line range inner name =>
            exact absurd hq (hall q' rest test body line range inner name hq')
          | _ => cases hfor
        | _ => cases hloop
    rcases exportLoops_mem_counters hplace with ⟨rfl, rfl⟩ | ⟨rfl, rfl⟩
    · rcases List.mem_cons.1 hk with rfl | hmem
      · exact ⟨q, countsRounds_of_isForEach h hq hfor,
          (List.prefix_append_right_inj _).2 ⟨[1, 0], rfl⟩⟩
      · exact haround hmem
    · exact haround hk

/-- Two loops over words, one in the other. -/
def nested : Tree :=
  .forEach 1 (Word.ofString "a") (.forEach 1 (Word.ofString "b") (.texts ["ls"]) (.text "j"))
    (.text "i")

theorem preprocessTree_counted_nested :
    ∃ r t' s', Reaches (preprocessTree .direct true nested) {} {} r t' s' ∧
      ∃ place, r.tree.at? place = some (.exportLoops [1, 0]) ∧
      ∀ k ∈ [1, 0], ∃ q, CountsRounds nested r.tree 0 k q := by
  obtain ⟨r, t', s', h⟩ :=
    @exists_reaches_of_isOk _ {} {} (preprocessTree .direct true nested) (by decide +kernel)
  have hannounced : r.tree.at? (nested.moved [0] ++ [1, 0, 0, 1, 0]) =
      some (.exportLoops [1, 0]) := by
    obtain ⟨line, range, body, name, hloop⟩ :=
      exists_countedLoop h (show nested.at? [0] = some _ from rfl) rfl
    rw [Tree.at?_append, hloop]
    rfl
  have hnone : nested.positions (fun x => x.isLoop && !x.isForEach) = [] := by decide +kernel
  have hcounted :=
    (preprocessTree_counted_iff h rfl).2 fun q p test body line range inner name hwhile _ =>
    List.not_mem_nil (hnone ▸ Tree.mem_positions.2 (hwhile ▸ rfl) : q ∈ [])
  refine ⟨r, t', s', h, _, hannounced, fun k hk => ?_⟩
  obtain ⟨q, hq, -⟩ := hcounted _ _ k (by simp) hannounced hk
  exact ⟨q, hq⟩

/-- A loop over words in a loop with a test. -/
def polling : Tree :=
    .whileDo (.texts ["true"]) (.forEach 2 (Word.ofString "a") (.texts ["ls"]) (.text "i"))

/-- The rounds of the loop with a test are announced, and not counted. -/
theorem preprocessTree_polling_not_counted :
    ∃ r t' s', Reaches (preprocessTree .direct true polling) {} {} r t' s' ∧
      ∃ ids place, r.tree.at? place = some (.exportLoops ids) ∧ 0 ∈ ids ∧
      ∀ q, ¬ CountsRounds polling r.tree 0 0 q := by
  obtain ⟨r, t', s', h⟩ :=
    @exists_reaches_of_isOk _ {} {} (preprocessTree .direct true polling) (by decide +kernel)
  have hwhile : polling.at? [] = some polling := rfl
  have hfor : polling.at? ([] ++ [1]) = some _ := rfl
  obtain ⟨ids, place, -, hexport, hmem⟩ := exists_announced h hwhile hfor
  exact ⟨r, t', s', h, ids, place, hexport, hmem, fun q => not_countsRounds_of_whileDo h hwhile⟩

end ShellFlow
