import ShellFlow.Proofs.Preprocess.Numbering

/-!
# The recorded order of regions

A script that is preprocessed for running ahead of time has its regions in a chain: each comes after
the one that was created before it.  The regions are created at sites that can be read off the
script: inside of a construct, and for trees of the script itself.
-/

namespace ShellFlow

open List

variable {t t' u : Traversal} {s s' : Supply} {held items : List ScriptItem} {item : ScriptItem}
  {last : Bool}
  {out : PreprocessedScript} {r : Option Tree × List ScriptItem} {tree : Tree} {trees : List Tree}
  (front rest : List ScriptItem)

/-- Where a region is created. -/
inductive Site where
  | inside (p : Position)
  /-- For so many trees of the script, from the one with a number on. -/
  | group (first count : Nat)
  deriving DecidableEq

namespace Site

def place : Site → Position
  | inside p => p
  | group first _ => [first]

/-- The script of the region at a site: that of the tree inside of a construct, or the texts of the
items that are put together, if they are known.  Only the last of these may be preprocessed. -/
def Holds (items : List ScriptItem) : Site → String → Prop
  | inside p, script => HoldsAt (items.map (·.tree)) p script
  | group first count, script =>
    ∃ last, regionText (((items.drop first).take (count - 1)).map (·.tree) ++ [last])
      (joinTexts (((items.drop first).take count).map (·.text))) = .ok script

/-- The numbers of the loops around a site, the innermost first. -/
def context (items : List ScriptItem) (site : Site) : List Int :=
    loopContext (items.map (·.tree)) 0 site.place

end Site

/-- The sites of regions in a tree of a script, where so many trees before it are held back, from
the one with a number on. -/
def sitesOf (first held : Nat) (tree : Tree) : List Site :=
  if tree.isBackground then []
  else
    (positionsFrom Tree.isCandidate 0 tree.children).map (fun p => .inside ((first + held) :: p)) ++
      if held = 0 ∧ tree.isCandidate = false then [] else [.group first (held + 1)]

/-- An item becomes a region with what was held back, or by itself if it can become one. -/
theorem group_of_created (h : held ≠ [] ∨ tree.isCandidate) (group : Site) :
    (if held.length = 0 ∧ tree.isCandidate = false then [] else [group]) = [group] := by
  refine if_neg ?_
  rintro ⟨hnil, hcandidate⟩
  rcases h with hne | hcreated
  · exact hne (length_eq_zero_iff.1 hnil)
  · exact absurd hcreated (by rw [hcandidate]; exact Bool.false_ne_true)

def sitesFrom (first held : Nat) : List Tree → List Site
  | [] => if held = 0 then [] else [.group first held]
  | tree :: rest =>
    sitesOf first held tree ++
      if tree.isBackground then sitesFrom first (held + 1) rest else sitesFrom
      (first + held + 1) 0 rest

/-- The sites of the regions of a script. -/
def sites (items : List ScriptItem) : List Site := sitesFrom 0 0 (items.map (·.tree))

/-- The text of the order of regions in a chain, of which the loops around each are given: under two
lines that name the directory, a line with the number of regions, a line for each region with the
loops around it, and a line for each region but the last, from which an arrow leads to the next one.
-/
def Speculation.chainText (contexts : List (List Int)) : String :=
  "# Partial order files path:\npash_tmp//speculative/partial_order/\n" ++
    (toString contexts.length ++ "\n") ++
    String.join (contexts.mapIdx fun i loops =>
      toString i ++ "-loop_ctx-" ++ ",".intercalate (loops.map toString) ++ "\n") ++
    String.join ((List.range (contexts.length - 1)).map fun i =>
      toString i ++ " -> " ++ toString (i + 1) ++ "\n")

/-! ### The regions of a script -/

theorem loopContext_singleton (forest : List Tree) (base : Int) (i : Nat) :
    loopContext forest base [i] = [] := by
  rw [loopContext, loopsAround_cons]
  rfl

theorem Tree.positions_isLoop_of_isBackground (h : tree.isBackground) :
    tree.positions isLoop = [] :=
  positions_isLoop_of_children (children_of_isCandidate (isCandidate_of_isBackground h))

def loopsIn (items : List ScriptItem) : Nat :=
    (positionsFrom Tree.isLoop 0 (items.map (·.tree))).length

theorem loopsIn_concat (items : List ScriptItem) (item : ScriptItem) :
    loopsIn (items ++ [item]) = loopsIn items + (item.tree.positions Tree.isLoop).length := by
  rw [loopsIn, map_append, map_singleton, length_positionsFrom_concat, loopsIn]

/-- The regions that are created at some sites of a script. -/
def GathersIn (items : List ScriptItem) (t t' : Traversal) (loops : Nat) (sites : List Site) :
    Prop :=
  Gathers t t' loops sites (Site.context items) (Site.Holds items)

theorem GathersIn.trans {m n : Nat} {sites more : List Site}
    (h : GathersIn items t u m sites) (h' : GathersIn items u t' n more) :
    GathersIn items t t' (m + n) (sites ++ more) :=
  Gathers.trans h h'

theorem gathersIn_storeRegion {group : List ScriptItem} {init : List Tree} {last call : Tree}
    {inSequence : Bool} (henclosing : t.enclosing = [])
    (hinit : init = (group.take (group.length - 1)).map (·.tree))
    (h : Reaches (storeRegion .speculative (init ++ [last]) (joinTexts (group.map (·.text)))
      inSequence) t s call t' s') :
    GathersIn (front ++ (group ++ rest)) t t' 0 [.group front.length group.length] := by
  obtain ⟨script, hscript, -, rfl, rfl⟩ := reaches_storeRegion_speculative h
  have hholds : (Site.group front.length group.length).Holds (front ++ (group ++ rest)) script := by
    refine ⟨last, ?_⟩
    rw [drop_left, take_left, take_append_of_le_length (Nat.sub_le _ _), ← hinit, hscript]
  exact .one hholds (by rw [Site.context, Site.place, loopContext_singleton, henclosing])

theorem gathersIn_preprocessTree {p : Preprocessed}
    (h : Reaches (preprocessTree .speculative last item.tree) t s p t' s')
    (henclosing : t.enclosing = []) (hloops : t.loops = loopsIn front) :
    GathersIn (front ++ item :: rest) t t' (item.tree.positions Tree.isLoop).length
      ((positionsFrom Tree.isCandidate 0 item.tree.children).map fun q =>
        .inside (front.length :: q)) := by
  have hforest : (front ++ item :: rest).map (·.tree) =
    front.map (·.tree) ++ item.tree :: rest.map (·.tree) :=
    map_append
  have hlength : front.length = (front.map (·.tree)).length := length_map .. |>.symm
  refine (gathers_preprocess.tree h).map _ ?_ ?_
  · intro q _
    rw [Site.context, Site.place, hforest, hlength, loopContext_append_cons, henclosing, append_nil,
      Int.zero_add, hloops, loopsIn]
  · rintro q script ⟨node, hnode, hscript⟩
    refine ⟨node, ?_, hscript⟩
    rw [hforest, hlength, treeAt?]
    simpa using hnode

/-- **The regions that are created for an item of a script**, where some items come before and some
are held back. -/
theorem gathersIn_preprocessItem {after : List ScriptItem}
    (h : Reaches (preprocessItem .speculative last held item) t s (some tree, after) t' s')
    (henclosing : t.enclosing = []) (hloops : t.loops = loopsIn (front ++ held)) :
    GathersIn (front ++ (held ++ item :: rest)) t t' (item.tree.positions Tree.isLoop).length
      (sitesOf front.length held.length item.tree) := by
  rcases preprocessItem_steps h with ⟨-, heq, -⟩ | ⟨hbackground, p, u, v, made, hp, heq, hmade⟩
  · cases heq
  · cases heq
    rw [sitesOf, hbackground, if_neg Bool.false_ne_true]
    have hinside := gathersIn_preprocessTree (front ++ held) rest hp henclosing hloops
    rw [List.append_assoc, length_append] at hinside
    have hu : u.enclosing = [] := hinside.enclosing_eq.trans henclosing
    refine hinside.trans (n := 0) ?_
    rcases hmade with ⟨hcreated, hstore⟩ | ⟨rfl, hcandidate, rfl, rfl, -⟩
    · have hgroup := gathersIn_storeRegion front rest hu (by simp) hstore
      rw [group_of_created hcreated]
      simpa using hgroup
    · rw [if_pos ⟨rfl, hcandidate⟩]
      exact .none

/-- **The regions that are created in a script**, where some items come before and some are held
back. -/
theorem gathersIn_preprocessItems {rest : List ScriptItem}
    (h : Reaches (preprocessItems .speculative held rest) t s trees t' s')
    (henclosing : t.enclosing = []) (hloops : t.loops = loopsIn (front ++ held)) :
    ∃ count, GathersIn (front ++ (held ++ rest)) t t' count
      (sitesFrom front.length held.length (rest.map (·.tree))) := by
  replace h := runsThrough_of_reaches h
  induction h generalizing front with
  | done => exact ⟨0, .none⟩
  | @store held _ _ _ _ _ hne hstore =>
    have htrees : held.map (·.tree) = held.dropLast.map (·.tree) ++ [(held.getLast hne).tree] := by
      rw [← map_singleton, ← map_append, dropLast_append_getLast hne]
    rw [storeItems, htrees] at hstore
    rw [map_nil, sitesFrom, if_neg (by simpa using hne)]
    exact ⟨0, gathersIn_storeRegion front [] henclosing (by rw [dropLast_eq_take]) hstore⟩
  | hold hbackground _ _ ih =>
    rw [map_cons, sitesFrom, sitesOf, if_pos hbackground, if_pos hbackground, nil_append]
    obtain ⟨count, hgathers⟩ := ih front henclosing (by
      rw [hloops, ← List.append_assoc, loopsIn_concat,
        Tree.positions_isLoop_of_isBackground hbackground]
      rfl)
    exact ⟨count, by simpa using hgathers⟩
  | @make held rest item _ _ _ _ _ _ _ _ hbackground hstep _ ih =>
    have hitem := gathersIn_preprocessItem front rest hstep henclosing hloops
    rw [map_cons, sitesFrom, hbackground, if_neg Bool.false_ne_true]
    obtain ⟨count, hgathers⟩ :=
      ih (front ++ held ++ [item]) (hitem.enclosing_eq.trans henclosing) (by
      rw [hitem.loops_eq, hloops, append_nil, loopsIn_concat, Nat.cast_add])
    refine ⟨_, hitem.trans (n := count) ?_⟩
    simpa [Nat.add_assoc] using hgathers

/-! ### The loops of a script -/

/-- An item of a script leaves all loops that it enters, and its loops have the next numbers. -/
theorem loops_preprocessItem
    (h : Reaches (preprocessItem .speculative last held item) t s r t' s') :
    t'.enclosing = t.enclosing ∧ t'.loops = t.loops + (item.tree.positions Tree.isLoop).length := by
  rcases preprocessItem_steps h with ⟨hbackground, -, rfl, rfl⟩ | ⟨-, p, u, v, made, hp, -, hmade⟩
  · rw [Tree.positions_isLoop_of_isBackground hbackground]
    exact ⟨rfl, (Int.add_zero _).symm⟩
  · have hitem := passes_preprocess.tree hp
    rcases hmade with ⟨-, hstore⟩ | ⟨-, -, rfl, -⟩
    · obtain ⟨script, -, -, rfl, -⟩ := reaches_storeRegion_speculative hstore
      exact hitem
    · exact hitem

/-- **What preprocessing finds at a position in a script**: the loops around the position have been
entered, and if there is a loop, its number is the next one.  Some items come before. -/
theorem ComesTo.context {i : Nat} {q : Position} {node : Tree}
    (h : ComesTo .speculative held items t s (i :: q) node u) (front : List ScriptItem)
    (henclosing : t.enclosing = []) (hloops : t.loops = loopsIn front) :
    treeAt? ((front ++ items).map (·.tree)) ((front.length + i) :: q) = some node ∧
      u.enclosing = loopContext ((front ++ items).map (·.tree)) 0 ((front.length + i) :: q) ∧
      (node.isLoop →
        u.loops = loopNumber ((front ++ items).map (·.tree)) 0 ((front.length + i) :: q)) := by
  generalize hp : i :: q = p at h
  induction h generalizing front i q with
  | @first held rest item t u s p node further =>
    cases hp
    obtain ⟨hat, hcontext, hnumber⟩ := further.context
    have hforest : (front ++ item :: rest).map (·.tree) =
      front.map (·.tree) ++ item.tree :: rest.map (·.tree) :=
      map_append
    have hlength : front.length + 0 = (front.map (·.tree)).length := length_map .. |>.symm
    rw [hforest, hlength]
    refine ⟨by simpa [treeAt?] using hat, ?_, fun hloop => ?_⟩
    · rw [hcontext, loopContext_append_cons, henclosing, append_nil, Int.zero_add, hloops, loopsIn]
    · have hmem : p ∈ item.tree.positions Tree.isLoop :=
        Tree.mem_positions.2 (by simpa [hat] using hloop)
      rw [hnumber hloop, loopNumber, idxOf_positionsFrom hmem, hloops, loopsIn, Nat.cast_add,
        Int.zero_add]
  | @later held held' rest item tree t u w s v i p node step further ih =>
    cases hp
    obtain ⟨hstack, hcount⟩ := loops_preprocessItem step
    have hfound := ih (front ++ [item]) (hstack.trans henclosing)
      (by rw [hcount, hloops, loopsIn_concat, Nat.cast_add]) rfl
    simpa [Nat.add_assoc, Nat.add_comm 1] using hfound

/-! ### The recorded order -/

namespace Traversal

/-- The recorded loops of regions in a chain are in the order of the regions. -/
theorem sortedContexts_createAll (loops : Int) (made : List (List Int × String)) :
    (createAll { loops } made).sortedContexts = made.mapIdx fun i region =>
    ((i : Int), region.1) := by
  rw [sortedContexts, entries_contexts_createAll]
  refine mergeSort_of_pairwise (pairwise_iff_getElem.2 fun i j hi hj hlt => ?_)
  rw [getElem_mapIdx, getElem_mapIdx, decide_eq_true_eq]
  exact Int.ofNat_le.2 (Nat.le_of_lt hlt)

theorem orderText_createAll (loops : Int) (made : List (List Int × String)) :
    (createAll { loops } made).orderText = Speculation.chainText (made.map (·.1)) := by
  have hnumber : ∀ n : Nat, toString (n : Int) = toString n := fun _ => rfl
  have hnext : ∀ n : Nat, toString (n + 1 : Int) = toString (n + 1) := fun _ => rfl
  have hhead : "# Partial order files path:\n" ++ Speculation.directory ++ "\n" =
      "# Partial order files path:\npash_tmp//speculative/partial_order/\n" := by decide +kernel
  unfold orderText Speculation.chainText Speculation.countText Speculation.contextText
    Speculation.edgeText
  rewrite [hhead, sortedContexts_createAll, edges_createAll, regions_createAll_start, length_map,
    map_map, hnumber]
  refine congrArg₂ (· ++ ·) (congrArg (_ ++ ·) (congrArg String.join ?_)) (congrArg String.join ?_)
  · refine ext_getElem (by simp) fun i hi hi' => ?_
    simp only [getElem_map, getElem_mapIdx, hnumber]
  · simp only [Function.comp_def, hnumber, hnext]

end Traversal

theorem preprocessScript_steps {mode : Mode} (h : Yields (preprocessScript mode items) s out s') :
    ∃ t, Reaches (preprocessItems mode [] items) {} s out.trees t s' ∧ out.files = t.files ∧
      out.order = if mode = .speculative then some t.orderText else none := by
  obtain ⟨⟨trees, t⟩, v, hitems, hpure⟩ := h.bind
  obtain ⟨rfl, rfl⟩ := hpure.pure
  exact ⟨t, hitems, rfl, rfl⟩

/-- **All regions of a script** are created one after the other, each at its site. -/
theorem exists_created (h : Reaches (preprocessItems .speculative [] items) {} s trees t s') :
    ∃ (loops : Int) (created : List (Site × String)),
      created.map (·.1) = sites items ∧ (∀ c ∈ created, c.1.Holds items c.2) ∧
      t = .createAll { loops } (created.map fun c => (c.1.context items, c.2)) := by
  obtain ⟨count, created, hsites, hholds, ht⟩ := gathersIn_preprocessItems [] h rfl rfl
  exact ⟨(0 : Int) + count, created, hsites, hholds, ht⟩

/-- **The text of the recorded order** lists the regions of all sites. -/
theorem order_preprocessScript (h : Yields (preprocessScript .speculative items) s out s') :
    out.order = some (Speculation.chainText ((sites items).map (Site.context items))) := by
  obtain ⟨t, hitems, -, horder⟩ := preprocessScript_steps h
  obtain ⟨loops, created, hsites, -, rfl⟩ := exists_created hitems
  rw [horder, if_pos rfl, Traversal.orderText_createAll, ← hsites, map_map, map_map]
  rfl

/-- The region of a site is in the file with its number. -/
theorem exists_stored {loops : Int} {created : List (Site × String)}
    (hsites : created.map (·.1) = sites items) (hholds : ∀ c ∈ created, c.1.Holds items c.2)
    {i : Nat} {site : Site} (hsite : (sites items)[i]? = some site) :
    ∃ script, (Traversal.createAll { loops }
      (created.map fun c => (c.1.context items, c.2))).files.get?
      (Speculation.regionFile i) = some (.text script) ∧ site.Holds items script := by
  rw [← hsites, getElem?_map, Option.map_eq_some_iff] at hsite
  obtain ⟨c, hc, rfl⟩ := hsite
  refine ⟨c.2, ?_, hholds c (mem_of_getElem? hc)⟩
  rw [Traversal.get?_files_createAll, getElem?_map, hc]
  rfl

/-- **The recorded order is a faithful chain.**  The regions of a script have the numbers from
nought on, in the order of their sites, and their files hold what is at the sites.  Each comes after
the one before it, and nothing else is recorded; the text of the order says how many regions there
are, which loops are around each, and the chain.  The loops around a region are those around its
site, the innermost first, by the numbers that they get when preprocessing comes to them; different
loops get different numbers; and preprocessing a tree leaves all loops that it enters. -/
theorem preprocessScript_chain {items : List ScriptItem} {out : PreprocessedScript}
    (h : Yields (preprocessScript .speculative items) s out s') :
    (∃ t, Reaches (preprocessItems .speculative [] items) {} s out.trees t s' ∧
      out.files = t.files ∧ t.regions = (sites items).length ∧
      t.edges = (List.range ((sites items).length - 1)).map
      (fun i : Nat => ((i : Int), (i + 1 : Int))) ∧
      t.contexts.entries = (sites items).mapIdx (fun i site => ((i : Int), site.context items))) ∧
    out.order = some (Speculation.chainText ((sites items).map (Site.context items))) ∧
    (∀ (i : Nat) (site : Site), (sites items)[i]? = some site →
      ∃ script, out.files.get? (Speculation.regionFile i) = some (.text script) ∧
      site.Holds items script) ∧
    (∀ p node, treeAt? (items.map (·.tree)) p = some node →
      ∃ u, ComesTo .speculative [] items {} s p node u) ∧
    (∀ p node u, ComesTo .speculative [] items {} s p node u →
      treeAt? (items.map (·.tree)) p = some node ∧
      u.enclosing = loopContext (items.map (·.tree)) 0 p ∧
      (node.isLoop → u.enterLoop.1 = loopNumber (items.map (·.tree)) 0 p)) ∧
    (∀ p q node other u v, ComesTo .speculative [] items {} s p node u →
      ComesTo .speculative [] items {} s q other v →
      node.isLoop → other.isLoop → u.enterLoop.1 = v.enterLoop.1 → p = q) ∧
    (∀ last tree t r t' s s', Reaches (preprocessTree .speculative last tree) t s r t' s' →
      t'.enclosing = t.enclosing) := by
  obtain ⟨t, hitems, hfiles, -⟩ := preprocessScript_steps h
  obtain ⟨loops, created, hsites, hholds, rfl⟩ := exists_created hitems
  have hlength : (created.map fun c => (c.1.context items, c.2)).length = (sites items).length := by
    rw [← hsites, List.length_map, List.length_map]
  have hcomes : ∀ p node u, ComesTo .speculative [] items {} s p node u →
      treeAt? (items.map (·.tree)) p = some node ∧
        u.enclosing = loopContext (items.map (·.tree)) 0 p ∧
      (node.isLoop → u.enterLoop.1 = loopNumber (items.map (·.tree)) 0 p) := by
    intro p node u hcome
    cases p with
    | nil => cases hcome
    | cons i q => simpa [Traversal.enterLoop] using hcome.context [] rfl rfl
  refine ⟨⟨_, hitems, hfiles, ?_, ?_, ?_⟩, order_preprocessScript h, ?_,
    fun p node => exists_comesTo hitems, hcomes, ?_, ?_⟩
  · rw [Traversal.regions_createAll_start, hlength]
  · rw [Traversal.edges_createAll, hlength]
  · rw [Traversal.entries_contexts_createAll, ← hsites]
    exact List.ext_getElem (by simp) fun i _ _ => by simp
  · intro i site hsite
    rw [hfiles]
    exact exists_stored hsites hholds hsite
  · intro p q node other u v hp hq hnode hother heq
    obtain ⟨hat, -, hnumber⟩ := hcomes p node u hp
    obtain ⟨-, -, hnumber'⟩ := hcomes q other v hq
    rw [hnumber hnode, hnumber' hother] at heq
    exact loopNumber_inj (mem_positionsFrom_of_treeAt? hat hnode) heq
  · intro last tree t r t' s s' hr
    exact (gathers_preprocess.tree hr).enclosing_eq

/-- A loop over words with a pipeline and a second loop in it, a command in the background, and a
choice. -/
def rounds : List ScriptItem :=
  [{ tree := .forEach 2 (Word.ofString "a")
      (.join .semi (.pipe 0 [.texts ["cat", "f"], .texts ["wc"]])
        (.whileDo (.texts ["true"]) (.texts ["ls"])))
      (.text "i"),
      text := some "for i in a; do cat f | wc; while true; do ls; done; done" },
    { tree := .inBackground (.texts ["sleep", "1"]), text := some "sleep 1 &" },
    { tree := .branch (.texts ["true"]) (.whileDo (.texts ["test"]) (.texts ["wc"]))
        (.texts ["id"]), text := none }]

theorem preprocessScript_chain_rounds :
    ∃ out s', Yields (preprocessScript .speculative rounds) {} out s' ∧
      out.order = some ("# Partial order files path:\npash_tmp//speculative/partial_order/\n8\n" ++
        "0-loop_ctx-0\n1-loop_ctx-1,0\n2-loop_ctx-1,0\n3-loop_ctx-\n4-loop_ctx-2\n5-loop_ctx-2\n" ++
        "6-loop_ctx-\n7-loop_ctx-\n0 -> 1\n1 -> 2\n2 -> 3\n3 -> 4\n4 -> 5\n5 -> 6\n6 -> 7\n") ∧
      out.files.size = 8 := by
  obtain ⟨out, s', hy, htest⟩ := @exists_yields_of_any _ (preprocessScript .speculative rounds) {}
    (fun out => out.files.size == 8) (by decide +kernel)
  have hcontexts : (sites rounds).map (Site.context rounds) =
      [[0], [1, 0], [1, 0], [], [2], [2], [], []] := by
    decide +kernel
  have horder := (preprocessScript_chain hy).2.1
  rw [hcontexts] at horder
  refine ⟨out, s', hy, horder.trans (congrArg some ?_), by simpa using htest⟩
  decide +kernel

end ShellFlow
