import ShellFlow.Proofs.Preprocess.Chain
import ShellFlow.Proofs.Text
import ShellFlow.Proofs.Words

/-!
# Calls of regions that are run ahead of time

A preprocessed script waits for the regions that its commands call.  A region inside of a construct
is called from the construct, unless the construct is directly behind a tree in the background: then
the two are put together in one region, which holds their texts as they were, and nothing calls the
regions inside.
-/

namespace ShellFlow

open List

variable {t t' u : Traversal} {s s' : Supply} {held : List ScriptItem} {last : Bool}

namespace Tree

variable {tree : Tree}

/-- The region that a command calls, by the text of its number. -/
def calledRegion? : Tree → Option String
  | .command _ assignments [first, second] _ =>
    if Word.same (Word.ofString "source") first &&
        Word.same (Word.ofString (Settings.standard.program Settings.standard.regionRuntime))
          second then
      assignments.findSome? fun
        | .mk name value =>
            if name = "pash_spec_command_id" then (Word.format value).toOption else none
    else none
  | _ => none

variable (calledIn : String → List String)

mutual

/-- The regions that the commands of a tree call, where it is known for a text which regions it
calls. -/
def calls : Tree → List String
  | .command line assignments words redirections =>
    (calledRegion? (.command line assignments words redirections)).toList
  | .pipe _ items => callsAll items
  | .join _ left right => calls left ++ calls right
  | .negate body => calls body
  | .scope _ _ body _ => calls body
  | .define _ _ body => calls body
  | .forEach _ _ body _ => calls body
  | .whileDo test body => calls test ++ calls body
  | .branch test yes no => calls test ++ (calls yes ++ calls no)
  | .select arms => callsArms arms
  | .verbatim text => calledIn text
  | .generic _ _ | .graph _ => []

def callsAll : List Tree → List String
  | [] => []
  | tree :: trees => calls tree ++ callsAll trees

/-- The regions that are called in the bodies of some arms. -/
def callsArms : List Arm → List String
  | [] => []
  | .mk _ body :: arms => calls body ++ callsArms arms

end

variable {calledIn}

theorem callsArms_eq (arms : List Arm) :
    callsArms calledIn arms = (arms.map Arm.body).flatMap (calls calledIn) := by
  induction arms with
  | nil => rw [callsArms, map_nil, flatMap_nil]
  | cons arm _ ih =>
    obtain ⟨fields, body⟩ := arm
    rw [callsArms, ih, map_cons, flatMap_cons]
    rfl

theorem calls_eq_children (h : tree.children ≠ []) :
    tree.calls calledIn = tree.children.flatMap (calls calledIn) := by
  cases tree with
  | scope kind =>
    cases kind with
    | background => exact absurd rfl h
    | _ => simp [calls, children, parts]
  | select =>
    rw [calls, callsArms_eq]
    simp [children, parts, Function.comp_def]
  | forEach | whileDo | join | negate | branch => simp [calls, children, parts]
  | _ => exact absurd rfl h

theorem calls_of_mem_children {part : Tree} (h : tree.calls calledIn = [])
    (hpart : part ∈ tree.children) : part.calls calledIn = [] := by
  rw [calls_eq_children (ne_nil_of_mem hpart)] at h
  exact flatMap_eq_nil_iff.1 h part hpart

/-! ### Commands -/

theorem calls_exportWord (name : String) (value : Word) :
    (exportWord name value).calls calledIn = [] := by
  have hexport : Word.same (Word.ofString "source") (Word.ofString "export") = false := by decide
  simp [exportWord, simple, calls, calledRegion?, hexport]

theorem calls_increment (name : String) : (increment name).calls calledIn = [] := by
  simp [increment, assign, calls, calledRegion?]

theorem calls_countedLoop (loop : Int) (inside outside : List Int) (line : Value) (range : Word)
    (body : Tree) (name : Value) :
    (countedLoop loop inside outside line range body name).calls calledIn =
      body.calls calledIn := by
  simp [countedLoop, sequence, calls, calls_exportWord, calls_increment, exportLoops]

theorem calls_speculativeCall (region : Int) (loop : Option String) :
    (speculativeCall (toString region) loop).calls calledIn = [toString region] := by
  rw [speculativeCall, runtimeCall, calls, calledRegion?, if_pos (Word.same_both _ _), map_cons,
    findSome?_cons]
  simp only [if_true, Word.format_ofString (Text.mark_notMem_toString region)]
  rfl

/-- A construct that is put together again calls what its new parts call. -/
theorem calls_withParts {loop : Int} {inside outside : List Int} {made : List Tree}
    (hlength : made.length = tree.children.length) (hcalls : tree.calls calledIn = []) :
    (tree.withParts loop inside outside made).calls calledIn = made.flatMap (calls calledIn) := by
  by_cases hmade : made = []
  · subst hmade
    cases tree with
    | select arms =>
      obtain rfl : arms = [] := length_eq_zero_iff.1 (by simpa [children, parts] using hlength.symm)
      exact hcalls
    | _ => exact hcalls
  cases hfor : tree.isForEach with
  | false =>
    have hchildren : (tree.withParts loop inside outside made).children = made :=
      children_withParts hlength hfor
    rw [calls_eq_children (by rwa [hchildren]), hchildren]
  | true =>
    cases tree with
    | forEach =>
      obtain ⟨new, rfl⟩ := length_eq_one_iff.1 hlength
      simp [withParts, calls_countedLoop]
    | _ => cases hfor

end Tree

/-! ### Trees -/

/-- So many numbers from one on, by their texts. -/
def regionTexts (start : Int) (count : Nat) : List String :=
    (List.range count).map fun i : Nat => toString (start + i)

theorem regionTexts_add (start : Int) (m n : Nat) :
    regionTexts start (m + n) = regionTexts start m ++ regionTexts (start + m) n := by
  rw [regionTexts, range_add, map_append, map_map]
  simp [regionTexts, Function.comp_def, Int.add_assoc]

variable {calledIn : String → List String} (front rest : List ScriptItem)

/-- **Preprocessed trees call the regions that are created in them**, each once and in their order;
where nothing was replaced, no region was created. -/
theorem calls_preprocess : Throughout .speculative
    (fun tree t _ p _ _ => (tree.calls calledIn = [] →
        p.tree.calls calledIn =
          regionTexts t.regions (positionsFrom Tree.isCandidate 0 tree.children).length) ∧
      (p.replaced = false → positionsFrom Tree.isCandidate 0 tree.children = []))
    (fun tree t _ r _ _ => (tree.calls calledIn = [] →
        r.1.calls calledIn = regionTexts t.regions (tree.positions Tree.isCandidate).length) ∧
      (r.2 = false → tree.positions Tree.isCandidate = []))
    fun parts t _ made _ _ => ((∀ part ∈ parts, part.2.calls calledIn = []) → ∀ i,
        (made.map (·.1)).flatMap (Tree.calls calledIn) =
          regionTexts t.regions (positionsFrom Tree.isCandidate i (parts.map (·.2))).length) ∧
      (made.any (·.2) = false → ∀ i, positionsFrom Tree.isCandidate i (parts.map (·.2)) = []) := by
  apply preprocess_induction
  case leaf =>
    intro tree t s hchildren _
    rw [hchildren]
    exact ⟨id, fun _ => rfl⟩
  case construct =>
    intro last tree t s made u t' s' _ hlength hmade _
    have hregions : (tree.enter t).regions = t.regions := by
      rw [Tree.enter]
      cases tree.isLoop <;> rfl
    rw [tree.map_parts, hregions] at hmade
    refine ⟨fun hcalls => ?_, fun hreplaced => hmade.2 hreplaced 0⟩
    have hparts : ∀ part ∈ tree.parts last, part.2.calls calledIn = [] := fun part hpart =>
      Tree.calls_of_mem_children hcalls (tree.map_parts last ▸ mem_map_of_mem hpart)
    rw [Tree.calls_withParts hlength hcalls, hmade.1 hparts 0]
  case store =>
    intro last tree t s call t' s' hcandidate hchildren hstore
    refine ⟨fun _ => ?_, fun hreplaced => by cases hreplaced⟩
    obtain ⟨script, -, rfl, -, -⟩ := reaches_storeRegion_speculative hstore
    rw [Tree.calls_speculativeCall, Tree.positions_eq, if_pos hcandidate, hchildren]
    simp [regionTexts, positionsFrom]
  case keep =>
    intro tree t s p t' s' hcandidate hp
    rw [Tree.positions_eq, hcandidate, if_neg Bool.false_ne_true]
    exact hp
  case nil => exact fun _ _ => ⟨fun _ _ => rfl, fun _ _ => rfl⟩
  case cons =>
    intro last tree rest r rs t u t' s v s' first hfirst ih
    rw [map_cons, map_cons]
    refine ⟨fun hcalls i => ?_, fun hmade i => ?_⟩
    · obtain ⟨htree, hrest⟩ := forall_mem_cons.1 hcalls
      rw [flatMap_cons, hfirst.1 htree, ih.1 hrest (i + 1),
        (gathers_preprocess.closed first).regions_eq, ← regionTexts_add, positionsFrom,
        length_append, length_inPart]
    · rw [any_cons, Bool.or_eq_false_iff] at hmade
      rw [positionsFrom, hfirst.2 hmade.1, ih.2 hmade.2 (i + 1)]
      rfl

/-! ### Scripts -/

/-- Whether a site is inside of a tree that is put together with a tree in the background before it.
-/
def Site.swallowed (forest : List Tree) : Site → Bool
  | .inside ((i + 1) :: _) => forest[i]?.any Tree.isBackground
  | _ => false

theorem Site.swallowed_inside (front rest : List Tree) (p : Position) :
    (Site.inside (front.length :: p)).swallowed
    (front ++ rest) = front.getLast?.any Tree.isBackground := by
  rcases eq_nil_or_concat front with rfl | ⟨front, last, rfl⟩
  · rfl
  · simp [swallowed]

/-- The regions that are called of those created at some sites, where the first has a number. -/
def calledAt (forest : List Tree) (start : Int) : List Site → List String
  | [] => []
  | site :: rest =>
      (if site.swallowed forest then [] else [toString start]) ++ calledAt forest (start + 1) rest

section CalledAt

variable {forest : List Tree} {sites more : List Site}

theorem calledAt_append (forest : List Tree) (start : Int) (sites more : List Site) :
    calledAt forest start (sites ++ more) =
      calledAt forest start sites ++ calledAt forest (start + sites.length) more := by
  induction sites generalizing start with
  | nil => simp [calledAt]
  | cons _ _ ih =>
    rw [cons_append, calledAt, ih, calledAt, List.append_assoc, length_cons, Int.add_assoc,
      Int.add_comm 1, Nat.cast_add, Nat.cast_one]

theorem calledAt_of_swallowed (h : ∀ site ∈ sites, site.swallowed forest) (start : Int) :
    calledAt forest start sites = [] := by
  induction sites generalizing start with
  | nil => rfl
  | cons _ _ ih =>
    obtain ⟨hsite, hsites⟩ := forall_mem_cons.1 h
    rw [calledAt, if_pos hsite, ih hsites, nil_append]

theorem calledAt_of_not_swallowed (h : ∀ site ∈ sites, site.swallowed forest = false)
    (start : Int) : calledAt forest start sites = regionTexts start sites.length := by
  induction sites generalizing start with
  | nil => rfl
  | cons _ _ ih =>
    obtain ⟨hsite, hsites⟩ := forall_mem_cons.1 h
    rw [calledAt, hsite, if_neg Bool.false_ne_true, ih hsites, length_cons, Nat.add_comm,
      regionTexts_add]
    simp [regionTexts]

theorem mem_calledAt {start : Int} {region : String} (h : region ∈ calledAt forest start sites) :
    ∃ i : Nat, i < sites.length ∧ region = toString (start + i) := by
  induction sites generalizing start with
  | nil => cases h
  | cons _ _ ih =>
    rw [calledAt, mem_append] at h
    rcases h with h | h
    · split at h
      · cases h
      · exact ⟨0, Nat.succ_pos _, by simpa using h⟩
    · obtain ⟨i, hi, rfl⟩ := ih h
      refine ⟨i + 1, Nat.succ_lt_succ hi, ?_⟩
      rw [Int.add_assoc, Int.add_comm 1, Nat.cast_add, Nat.cast_one]

/-- **A region is called once**, or not at all if its site is swallowed. -/
theorem count_calledAt {start : Int} {i : Nat} {site : Site} (h : sites[i]? = some site) :
    (calledAt forest start sites).count
    (toString (start + i)) = if site.swallowed forest then 0 else 1 := by
  induction sites generalizing start i with
  | nil => cases h
  | cons other sites ih =>
    rw [calledAt, count_append]
    cases i with
    | zero =>
      obtain rfl : other = site := by simpa using h
      have hnone : (calledAt forest (start + 1) sites).count (toString (start + (0 : Nat))) =
          0 := by
        rw [count_eq_zero]
        intro hmem
        obtain ⟨j, -, heq⟩ := mem_calledAt hmem
        have := Int.repr_injective heq
        omega
      rw [hnone]
      split <;> simp
    | succ i =>
      have hnone : (if other.swallowed forest then [] else [toString start]).count
          (toString (start + (i + 1 : Nat))) = 0 := by
        rw [count_eq_zero]
        intro hmem
        split at hmem
        · cases hmem
        · have := Int.repr_injective (mem_singleton.1 hmem)
          omega
      rw [hnone, Nat.zero_add, Nat.cast_add, Nat.cast_one, Int.add_comm (i : Int), ← Int.add_assoc]
      exact ih (by simpa using h)

end CalledAt

/-- **What an item of a script calls**, where some items come before and some are held back: the
regions inside of it if nothing was held back, and else only the region in which it is put together
with what was. -/
theorem calls_preprocessItem {item : ScriptItem} {tree : Tree} {after : List ScriptItem}
    (h : Reaches (preprocessItem .speculative last held item) t s (some tree, after) t' s')
    (hcalls : item.tree.calls calledIn = [])
    (htext : ∀ text, item.text = some text → calledIn text = [])
    (hheld : ((front ++ held).map (·.tree)).getLast?.any Tree.isBackground = !held.isEmpty) :
    tree.calls calledIn = calledAt ((front ++ (held ++ item :: rest)).map (·.tree)) t.regions
        (sitesOf front.length held.length item.tree) ∧
      t'.regions = t.regions + (sitesOf front.length held.length item.tree).length := by
  rcases preprocessItem_steps h with ⟨-, heq, -⟩ | ⟨hbackground, p, u, v, made, hp, heq, hmade⟩
  · cases heq
  · cases heq
    rw [sitesOf, hbackground, if_neg Bool.false_ne_true]
    have hinside : ∀ site ∈ (positionsFrom Tree.isCandidate 0 item.tree.children).map fun q =>
        Site.inside ((front.length + held.length) :: q),
        site.swallowed ((front ++ (held ++ item :: rest)).map (·.tree)) = !held.isEmpty := by
      intro site hsite
      obtain ⟨q, -, rfl⟩ := mem_map.1 hsite
      rw [← hheld, ← Site.swallowed_inside _ (item.tree :: rest.map (·.tree)) q]
      simp
    have hregions := (gathers_preprocess.tree hp).regions_eq
    rw [calledAt_append, length_append, length_map]
    rcases hmade with ⟨hcreated, hstore⟩ | ⟨rfl, hcandidate, rfl, rfl, htree⟩
    · obtain ⟨script, -, rfl, rfl, -⟩ := reaches_storeRegion_speculative hstore
      have hnone : calledAt ((front ++ (held ++ item :: rest)).map (·.tree)) t.regions
          ((positionsFrom Tree.isCandidate 0 item.tree.children).map fun q =>
            Site.inside ((front.length + held.length) :: q)) = [] := by
        rcases hcreated with hne | hcandidate
        · exact calledAt_of_swallowed
            (fun site hsite => by rw [hinside site hsite]; simpa using hne) _
        · rw [Tree.children_of_isCandidate hcandidate]
          rfl
      rw [group_of_created hcreated, hnone, Tree.calls_speculativeCall, hregions]
      refine ⟨by simp [calledAt, Site.swallowed], ?_⟩
      rw [Traversal.create, hregions, Nat.cast_add, Int.add_assoc]
      rfl
    · rw [if_pos ⟨rfl, hcandidate⟩,
        calledAt_of_not_swallowed fun site hsite => by simpa using hinside site hsite]
      refine ⟨?_, by simpa using hregions⟩
      rw [length_map, calledAt, append_nil]
      rw [htree, Preprocessed.keep]
      have hown := (@calls_preprocess calledIn).tree hp
      cases hreplaced : p.replaced with
      | true => exact hown.1 hcalls
      | false =>
        cases hitem : item.text with
        | none => exact hown.1 hcalls
        | some text =>
          rw [hown.2 hreplaced, if_neg Bool.false_ne_true, Option.elim_some, Tree.calls,
            htext text hitem]
          rfl

/-- **What a script calls**, where some items come before and some are held back. -/
theorem calls_preprocessItems {rest : List ScriptItem} {trees : List Tree}
    (h : Reaches (preprocessItems .speculative held rest) t s trees t' s')
    (hrest : ∀ item ∈ rest, item.tree.calls calledIn = [] ∧ ∀ text, item.text = some text →
      calledIn text = [])
    (hheld : ((front ++ held).map (·.tree)).getLast?.any Tree.isBackground = !held.isEmpty) :
    trees.flatMap (Tree.calls calledIn) =
        calledAt ((front ++ (held ++ rest)).map (·.tree)) t.regions
        (sitesFrom front.length held.length (rest.map (·.tree))) := by
  replace h := runsThrough_of_reaches h
  induction h generalizing front with
  | done => rfl
  | store hne hstore =>
    obtain ⟨script, -, rfl, -, -⟩ := reaches_storeRegion_speculative hstore
    rw [map_nil, sitesFrom, if_neg (by simpa using hne), flatMap_singleton,
      Tree.calls_speculativeCall]
    rfl
  | hold hbackground _ _ ih =>
    rw [map_cons, sitesFrom, sitesOf, if_pos hbackground, if_pos hbackground, nil_append,
      ih front (forall_mem_cons.1 hrest).2 (by simp [hbackground])]
    simp
  | @make held rest item _ _ _ _ _ _ _ _ hbackground hstep _ ih =>
    obtain ⟨⟨hcalls, htext⟩, hmore⟩ := forall_mem_cons.1 hrest
    obtain ⟨hitem, hregions⟩ := calls_preprocessItem front rest hstep hcalls htext hheld
    rw [flatMap_cons, hitem, map_cons, sitesFrom, calledAt_append, ← hregions, hbackground,
      if_neg Bool.false_ne_true, ih (front ++ held ++ [item]) hmore (by simp [hbackground])]
    simp [Nat.add_assoc]

/-- The text that was stored for a region. -/
def storedText? (files : Files) (region : String) : Option String :=
  match files.get? ("pash_tmp/speculative/partial_order/" ++ region) with
  | some (.text text) => some text
  | _ => none

theorem storedText?_of_get? {files : Files} {region : Int} {text : String}
    (h : files.get? (Speculation.regionFile region) = some (.text text)) :
    storedText? files (toString region) = some text := by
  unfold Speculation.regionFile at h
  unfold storedText?
  rewrite [h]
  rfl

/-- The regions that a preprocessed script calls, or the text of a region that it calls. -/
def PreprocessedScript.calls (calledIn : String → List String) (out : PreprocessedScript) :
    List String :=
  out.trees.flatMap (Tree.calls calledIn) ++ (out.trees.flatMap (Tree.calls calledIn)).flatMap
    fun region =>
      ((storedText? out.files region).map calledIn).getD []

/-- **How often each region is called.**  Some items have known texts, and neither they nor their
texts nor the texts of trees in them call a region.  The recorded order lists the regions of all
sites.  A region is called by one command of the preprocessed script, directly or in a region that
it calls, unless its site is swallowed, and then by none; so each region is called once just if no
construct with a region inside is directly behind a tree in the background. -/
theorem preprocessScript_calls {items : List ScriptItem} {out : PreprocessedScript}
    (h : Yields (preprocessScript .speculative items) s out s')
    (hitems : ∀ item ∈ items, item.tree.calls calledIn = [] ∧ ∃ text, item.text = some text ∧
      calledIn text = [])
    (hstored : ∀ site ∈ sites items, ∀ script, site.Holds items script → calledIn script = []) :
    out.order = some (Speculation.chainText ((sites items).map (Site.context items))) ∧
    (∀ (i : Nat) (site : Site), (sites items)[i]? = some site →
      (out.calls calledIn).count (toString i) = if site.swallowed
      (items.map (·.tree)) then 0 else 1) ∧
    ((∀ i < (sites items).length, (out.calls calledIn).count (toString i) = 1) ↔
      ∀ site ∈ sites items, site.swallowed (items.map (·.tree)) = false) := by
  obtain ⟨t, hrun, hfiles, -⟩ := preprocessScript_steps h
  obtain ⟨loops, created, hsites, hholds, rfl⟩ := exists_created hrun
  have hdirect : out.trees.flatMap (Tree.calls calledIn) =
      calledAt (items.map (·.tree)) 0 (sites items) := by
    refine calls_preprocessItems [] hrun (fun item hitem => ?_) rfl
    obtain ⟨hcalls, text, htext, hnone⟩ := hitems item hitem
    exact ⟨hcalls, fun other hother => Option.some.inj (htext.symm.trans hother) ▸ hnone⟩
  have hcalls : out.calls calledIn = calledAt (items.map (·.tree)) 0 (sites items) := by
    rw [PreprocessedScript.calls, hdirect, List.flatMap_eq_nil_iff.2, List.append_nil]
    intro region hregion
    obtain ⟨i, hi, rfl⟩ := mem_calledAt hregion
    obtain ⟨script, hscript, hheld⟩ := exists_stored hsites hholds (List.getElem?_eq_getElem hi)
    rw [hfiles, Int.zero_add, storedText?_of_get? hscript]
    exact hstored _ (List.getElem_mem hi) script hheld
  have hcount : ∀ (i : Nat) (site : Site), (sites items)[i]? = some site →
      (out.calls calledIn).count (toString i) =
        if site.swallowed (items.map (·.tree)) then 0 else 1 := by
    intro i site hsite
    have hsite_count := @count_calledAt (items.map (·.tree)) (sites items) 0 i site hsite
    rw [Int.zero_add] at hsite_count
    rw [hcalls]
    exact hsite_count
  refine ⟨order_preprocessScript h, hcount, ?_⟩
  constructor
  · intro hall site hsite
    obtain ⟨i, hi, hget⟩ := List.mem_iff_getElem.1 hsite
    have hone := hall i hi
    rw [hcount i site (hget ▸ List.getElem?_eq_getElem hi)] at hone
    cases hswallowed : site.swallowed (items.map (·.tree)) with
    | false => rfl
    | true => simp [hswallowed] at hone
  · intro hnone i hi
    rw [hcount i _ (List.getElem?_eq_getElem hi), hnone _ (List.getElem_mem hi)]
    rfl

/-- The regions of which a text assigns the number in a word of its own. -/
def assignedRegions (text : String) : List String :=
  (Text.words text).filterMap fun w =>
    if "pash_spec_command_id=".toList.isPrefixOf
      w.toList then some (String.ofList (w.toList.drop 21)) else none

/-- A loop with a command in it, a command in the background, and a command that is put together
with it. -/
def waiting : List ScriptItem :=
  [{ tree := .forEach 1 (Word.ofString "a") (.texts ["ls"]) (.text "i")
     text := some "for i in a; do ls; done" },
    { tree := .inBackground (.texts ["sleep", "1"]), text := some "sleep 1 &" },
    { tree := .texts ["wc", "f"], text := some "wc f" }]

theorem preprocessScript_calls_waiting :
    ∃ out s', Yields (preprocessScript .speculative waiting) {} out s' ∧
    (sites waiting).length = 2 ∧
      ∀ i < 2, (out.calls assignedRegions).count (toString i) = 1 := by
  obtain ⟨out, s', hy⟩ :=
    @exists_yields_of_isOk _ (preprocessScript .speculative waiting) {} (by decide +kernel)
  have hsites : sites waiting = [.inside [0, 0], .group 1 2] := by decide +kernel
  have hinside : ∀ script, (Site.inside [0, 0]).Holds waiting script →
      assignedRegions script = [] := by
    rintro script ⟨node, hnode, hscript⟩
    obtain rfl : Tree.texts ["ls"] = node := Option.some.inj hnode
    have hnone : (regionText [.texts ["ls"]] none).toOption.all
        (fun x => (assignedRegions x).isEmpty) = true := by
      decide +kernel
    rw [hscript] at hnone
    exact List.isEmpty_iff.1 hnone
  have hgroup : ∀ script, (Site.group 1 2).Holds waiting script → assignedRegions script = [] := by
    rintro script ⟨last, hscript⟩
    have hjoined : joinTexts (((waiting.drop 1).take 2).map (·.text)) = some "sleep 1 &\nwc f" := by
      decide +kernel
    rw [hjoined] at hscript
    rw [regionText_some hscript]
    decide +kernel
  have hitems : ∀ item ∈ waiting, item.tree.calls assignedRegions = [] ∧
      ∃ text, item.text = some text ∧ assignedRegions text = [] := by
    simp only [waiting, List.forall_mem_cons]
    refine ⟨⟨by decide +kernel, _, rfl, by decide +kernel⟩,
      ⟨by decide +kernel, _, rfl, by decide +kernel⟩,
      ⟨by decide +kernel, _, rfl, by decide +kernel⟩, by simp⟩
  have hstored : ∀ site ∈ sites waiting, ∀ script, site.Holds waiting script →
      assignedRegions script = [] := by
    rw [hsites]
    exact List.forall_mem_cons.2 ⟨hinside, List.forall_mem_singleton.2 hgroup⟩
  have hnone : ∀ site ∈ sites waiting, site.swallowed (waiting.map (·.tree)) = false := by
    rw [hsites]
    decide +kernel
  have hlength : (sites waiting).length = 2 := by
    rw [hsites]
    rfl
  exact ⟨out, s', hy, hlength, hlength ▸ (preprocessScript_calls hy hitems hstored).2.2.2 hnone⟩

/-- A subshell behind a command in the background. -/
def swallowing : List ScriptItem :=
  [{ tree := .inBackground (.texts ["sleep", "1"]), text := some "sleep 1 &" },
    { tree := .inSubshell (.texts ["ls"]), text := some "( ls )" }]

/-- The command in the subshell is a region that nothing calls: the script calls the other region
alone, and its text is that of the script. -/
theorem preprocessScript_swallows :
    ∃ out s', Yields (preprocessScript .speculative swallowing) {} out s' ∧
      out.order = some ("# Partial order files path:\npash_tmp//speculative/partial_order/\n2\n" ++
        "0-loop_ctx-\n1-loop_ctx-\n0 -> 1\n") ∧
      storedText? out.files "1" = some "sleep 1 &\n( ls )" ∧ out.calls assignedRegions = ["1"] := by
  obtain ⟨out, s', hy, htest⟩ :=
    @exists_yields_of_any _ (preprocessScript .speculative swallowing) {}
    (fun out => storedText? out.files "1" == some "sleep 1 &\n( ls )" &&
      out.calls assignedRegions == ["1"])
    (by decide +kernel)
  have hcontexts : (sites swallowing).map (Site.context swallowing) = [[], []] := by decide +kernel
  simp only [Bool.and_eq_true, beq_iff_eq] at htest
  have horder := order_preprocessScript hy
  rw [hcontexts] at horder
  exact ⟨out, s', hy, horder.trans (congrArg some (by decide +kernel)), htest⟩

end ShellFlow
