import ShellFlow.Proofs.Preprocess.Recovery

/-!
# Restoring a script

The items of a script fall into groups: items in the background go with the first item that follows
and is not in the background.  Each tree of the new script is made from one group, and restores it.
-/

namespace ShellFlow

open List

variable {t t' : Traversal} {s s' : Supply} {es : List Emission} {files : Files}
  {group held items : List ScriptItem}
  {item : ScriptItem} {trees : List Tree}

/-- A tree of the new script restores some items, in these files and whatever files are written
behind them. -/
def Restores (files : Files) (tree : Tree) (group : List ScriptItem) : Prop :=
  ∀ later : Files, files.entries <+: later.entries → later.keys.Nodup →
    ∀ rest, restoreTree later.regions (group ++ rest) tree = group.map (·.tree)

theorem Restores.of_standsFor {tree : Tree} (htext : ∀ text, tree ≠ .verbatim text)
    (h : StandsFor files tree (group.map (·.tree))) : Restores files tree group := by
  intro later hle hnodup rest
  have hsplice := h later hle hnodup
  cases tree with
  | verbatim text => exact absurd rfl (htext text)
  | _ => exact hsplice

theorem Restores.of_text {text : String} (h : item.text = some text) :
    Restores files (.verbatim text) [item] := by
  intro later _ _ rest
  exact if_pos h

/-- Items that stand for themselves stand for themselves in a list. -/
theorem flatMap_splice {regions : Regions} (h : ∀ item ∈ items, item.tree.plain) :
    (items.map (·.tree)).flatMap (Tree.splice regions) = items.map (·.tree) := by
  induction items with
  | nil => rfl
  | cons item _ ih =>
    have hitem := h item mem_cons_self
    rw [map_cons, flatMap_cons, ih fun other hother => h other (mem_cons_of_mem _ hother),
      Tree.splice, Tree.regionFile?_of_plain hitem, Option.bind_none, Tree.expand_of_plain _ hitem]
    rfl

/-- A tree of the new script, the items it was made from, and the files before and after it was
made. -/
structure Emission where
  group : List ScriptItem
  tree : Tree
  before : Files
  after : Files

/-- A tree restores its items, and an item by itself whose text is known keeps its text exactly if
nothing was stored for it. -/
structure Emission.Faithful (e : Emission) : Prop where
  restores : Restores e.after e.tree e.group
  kept : ∀ item text, e.group = [item] → item.text = some text →
    ((∃ written, e.tree = .verbatim written) ↔ e.after = e.before)

theorem storeRegion_faithful {text : Option String} {inSequence : Bool} {call : Tree}
    (hgrows : Grows files t.files s)
    (htrees : trees.flatMap (Tree.splice t.files.regions) = group.map (·.tree))
    (h : Reaches (storeRegion .direct trees text inSequence) t s call t' s') :
    Grows files t'.files s' ∧
    Emission.Faithful { group, tree := call, before := files, after := t'.files } := by
  obtain ⟨hstored, hne, -, hnoText, hstands⟩ := storeRegion_standsFor hgrows.numbered h
  rw [htrees] at hstands
  refine ⟨hgrows.trans hstored, .of_standsFor hnoText hstands, fun item kept _ _ => ?_⟩
  constructor
  · rintro ⟨written, hwritten⟩
    exact absurd hwritten (hnoText written)
  · intro heq
    exact absurd ((hgrows.eq_iff hstored).1 heq).2 hne

/-- A tree that has become no region as a whole. -/
theorem Recovers.faithful {files' : Files} {p : Preprocessed}
    (hrec : Recovers files item.tree p files') (hcandidate : item.tree.isCandidate = false) :
    Emission.Faithful
    { group := [item], tree := p.keep item.text, before := files, after := files' } := by
  have hreplaced := hrec.replaced hcandidate
  rw [Preprocessed.keep]
  cases hp : p.replaced with
  | true =>
    refine ⟨.of_standsFor hrec.noText hrec.stands, fun _ _ _ _ => ?_⟩
    constructor
    · rintro ⟨written, hwritten⟩
      exact absurd hwritten (hrec.noText written)
    · intro heq
      simp [hreplaced.2 heq] at hp
  | false =>
    cases htext : item.text with
    | none =>
      refine ⟨.of_standsFor hrec.noText hrec.stands, fun other text hother hknown => ?_⟩
      obtain rfl := singleton_inj.1 hother
      rw [htext] at hknown
      cases hknown
    | some text =>
      exact ⟨.of_text htext, fun _ _ _ _ => ⟨fun _ => hreplaced.1 hp, fun _ => ⟨text, rfl⟩⟩⟩

/-- **One item of a script.**  Either it is held back and nothing is stored, or a tree is made from
it and from what was held back. -/
theorem preprocessItem_cases {last : Bool} {r : Option Tree × List ScriptItem}
    (hheld : ∀ other ∈ held, other.tree.plain) (hitem : item.tree.plain) (hnum : Numbered t.files s)
    (h : Reaches (preprocessItem .direct last held item) t s r t' s') :
    (r = (none, held ++ [item]) ∧ t'.files = t.files ∧ Numbered t'.files s') ∨
      ∃ tree, r = (some tree, []) ∧ Grows t.files t'.files s' ∧
        Emission.Faithful
        { group := held ++ [item], tree, before := t.files, after := t'.files } := by
  rcases preprocessItem_steps h with ⟨-, rfl, rfl, rfl⟩ | ⟨-, p, u, v, tree, hp, rfl, hmade⟩
  · exact .inl ⟨rfl, rfl, hnum⟩
  obtain ⟨hgrows, hall⟩ := preprocess_recovers.tree hp hnum
  have hrec := hall hitem
  refine .inr ⟨tree, rfl, ?_⟩
  rcases hmade with ⟨-, hstore⟩ | ⟨rfl, hcandidate, rfl, rfl, rfl⟩
  · have htree : p.tree.splice u.files.regions = [item.tree] :=
      hrec.stands u.files prefix_rfl hgrows.numbered.nodup
    have htrees : (held.map (·.tree) ++ [p.tree]).flatMap (Tree.splice u.files.regions) =
        (held ++ [item]).map (·.tree) := by
      rw [flatMap_append, flatMap_splice hheld, map_append]
      simp [htree]
    exact storeRegion_faithful hgrows htrees hstore
  · exact ⟨hgrows, hrec.faithful hcandidate⟩

/-- Preprocesses the trees of a script and gives an account of it.  The files are as they were
`before` when the items that are held back were met. -/
def emissions (mode : Mode) (held : List ScriptItem) (before : Files) :
    List ScriptItem → Preprocess (List Emission)
  | [] => do
    if held.isEmpty then return []
    else
      let tree ← storeItems mode held true
      return [{ group := held, tree, before, after := (← get).files }]
  | item :: rest => do
    let (tree, next) ← preprocessItem mode rest.isEmpty held item
    match tree with
    | none => emissions mode next before rest
    | some tree =>
      let after := (← get).files
      return { group := held ++ [item], tree, before, after } :: (← emissions mode next after rest)

/-- The account is one of the run itself: it ends in the same state, with the trees of the new
script. -/
theorem exists_emissions {mode : Mode} (before : Files)
    (h : Reaches (preprocessItems mode held items) t s trees t' s') :
    ∃ es, Reaches (emissions mode held before items) t s es t' s' ∧ trees = es.map (·.tree) := by
  replace h := runsThrough_of_reaches h
  induction h generalizing before with
  | done => exact ⟨[], reaches_pure.2 ⟨rfl, rfl, rfl⟩, rfl⟩
  | @store held tree _ u _ v hne hstore =>
    refine ⟨[{ group := held, tree, before, after := u.files }], ?_, rfl⟩
    rw [emissions, if_neg (by simpa using hne)]
    exact reaches_bind.2 ⟨tree, u, v, hstore,
      reaches_bind.2 ⟨u, u, v, reaches_get.2 ⟨rfl, rfl, rfl⟩, reaches_pure.2 ⟨rfl, rfl, rfl⟩⟩⟩
  | @hold _ _ _ _ t _ s _ _ hitem _ ih =>
    obtain ⟨es, hes, rfl⟩ := ih before
    exact ⟨es, reaches_bind.2 ⟨_, t, s, hitem, hes⟩, rfl⟩
  | @make held _ item tree _ _ u t' _ v s' _ hitem _ ih =>
    obtain ⟨es, hes, rfl⟩ := ih u.files
    refine ⟨{ group := held ++ [item], tree, before, after := u.files } :: es, ?_, rfl⟩
    exact reaches_bind.2 ⟨_, u, v, hitem, reaches_bind.2 ⟨u, u, v, reaches_get.2 ⟨rfl, rfl, rfl⟩,
      reaches_bind.2 ⟨es, t', s', hes, reaches_pure.2 ⟨rfl, rfl, rfl⟩⟩⟩⟩

/-- **A run over the items of a script** makes a tree for each group of them, in their order, and
each tree restores its group. -/
theorem emissions_faithful (hheld : ∀ item ∈ held, item.tree.plain)
    (hitems : ∀ item ∈ items, item.tree.plain) (hnum : Numbered t.files s)
    (h : Reaches (emissions .direct held t.files items) t s es t' s') :
    Grows t.files t'.files s' ∧ es.flatMap (·.group) = held ++ items ∧
      ∀ e ∈ es, e.Faithful ∧ e.after.entries <+: t'.files.entries := by
  induction items generalizing held t s es with
  | nil =>
    rw [emissions] at h
    split at h
    · next hempty =>
      obtain ⟨rfl, rfl, rfl⟩ := h.pure
      exact ⟨.refl hnum, by simpa using hempty, nofun⟩
    · obtain ⟨tree, u, v, hstore, hrest⟩ := h.bind
      obtain ⟨_, _, _, hget, hpure⟩ := hrest.bind
      obtain ⟨rfl, rfl, rfl⟩ := reaches_get.1 hget
      obtain ⟨rfl, rfl, rfl⟩ := hpure.pure
      obtain ⟨hgrows, hfaithful⟩ := storeRegion_faithful (.refl hnum) (flatMap_splice hheld) hstore
      refine ⟨hgrows, by simp, fun e he => ?_⟩
      obtain rfl := mem_singleton.1 he
      exact ⟨hfaithful, prefix_rfl⟩
  | cons item rest ih =>
    have hitem := hitems item mem_cons_self
    have hrest : ∀ other ∈ rest, other.tree.plain :=
      fun other hother => hitems other (mem_cons_of_mem _ hother)
    rw [emissions] at h
    obtain ⟨r, u, v, hstep, hlater⟩ := h.bind
    rcases preprocessItem_cases hheld hitem hnum hstep with
      ⟨rfl, hfiles, hnumbered⟩ | ⟨tree, rfl, hgrows, hfaithful⟩
    · have hplain : ∀ other ∈ held ++ [item], other.tree.plain := by
        intro other hother
        rcases mem_append.1 hother with hother | hother
        · exact hheld other hother
        · exact mem_singleton.1 hother ▸ hitem
      rw [← hfiles] at hlater ⊢
      simpa using ih hplain hrest hnumbered hlater
    · obtain ⟨_, _, _, hget, hmore⟩ := hlater.bind
      obtain ⟨rfl, rfl, rfl⟩ := reaches_get.1 hget
      obtain ⟨others, u', v', hothers, hpure⟩ := hmore.bind
      obtain ⟨rfl, rfl, rfl⟩ := hpure.pure
      obtain ⟨hlaterGrows, hgroups, hall⟩ := ih (by simp) hrest hgrows.numbered hothers
      refine ⟨hgrows.trans hlaterGrows, ?_, ?_⟩
      · rw [flatMap_cons, hgroups, List.append_assoc]
        rfl
      · intro e he
        rcases mem_cons.1 he with rfl | he
        · exact ⟨hfaithful, hlaterGrows.entries⟩
        · exact hall e he

/-- Trees that each restore a group of items restore them all. -/
theorem restoreTrees_eq (hnodup : files.keys.Nodup)
    (h : ∀ e ∈ es, e.Faithful ∧ e.after.entries <+: files.entries) :
    restoreTrees files.regions (es.flatMap (·.group)) (es.map (·.tree)) =
      (es.flatMap (·.group)).map (·.tree) := by
  induction es with
  | nil => rfl
  | cons e es ih =>
    obtain ⟨hfaithful, hle⟩ := h e mem_cons_self
    have hrestored := hfaithful.restores files hle hnodup (es.flatMap (·.group))
    have hothers := ih fun other hother => h other (mem_cons_of_mem _ hother)
    rw [map_cons, flatMap_cons, restoreTrees, hrestored, length_map, drop_left, hothers, map_append]

/-- **Preprocessing loses, duplicates and reorders nothing.**  The regions in the place of their
calls, the trees in the place of their texts, and the loops without their counters are the trees of
the script in their order.  The new script has one tree for each group of items, and an item in a
group by itself, whose text is known, keeps its text exactly if nothing was stored for it. -/
theorem preprocessScript_restores {items : List ScriptItem} {out : PreprocessedScript}
    (hplain : ∀ item ∈ items, item.tree.plain)
    (h : Yields (preprocessScript .direct items) s out s') :
    out.restore items = items.map (·.tree) ∧
      ∃ es t', Reaches (emissions .direct [] .empty items) {} s es t' s' ∧
        out.trees = es.map (·.tree) ∧ out.files = t'.files ∧ es.flatMap (·.group) = items ∧
        ∀ e ∈ es, ∀ item text, e.group = [item] → item.text = some text →
          ((∃ written, e.tree = .verbatim written) ↔ e.after = e.before) := by
  unfold preprocessScript at h
  obtain ⟨⟨trees, t'⟩, _, hrun, hpure⟩ := yields_bind.1 h
  obtain ⟨rfl, rfl⟩ := yields_pure.1 hpure
  obtain ⟨es, hes, rfl⟩ := exists_emissions ({} : Traversal).files hrun
  have hheld : ∀ item ∈ ([] : List ScriptItem), item.tree.plain := by simp
  obtain ⟨hgrows, hgroups, hall⟩ := emissions_faithful hheld hplain (.empty s) hes
  have hrestored := restoreTrees_eq hgrows.numbered.nodup hall
  rw [hgroups] at hrestored
  exact ⟨hrestored, es, t', hes, rfl, rfl, hgroups, fun e he => (hall e he).1.kept⟩

/-- An assignment, a loop, and a background command with a branch behind it. -/
def errands : List ScriptItem :=
  [{ tree := .assign "x" (Word.ofString "1"), text := some "x=1" },
    { tree := .forEach 2 (Word.ofString "a") (.texts ["cat", "f"]) (.text "i"),
      text := some "for i in a; do cat f; done" },
    { tree := .inBackground (.texts ["sleep", "1"]), text := some "sleep 1 &" },
    { tree := .branch (.texts ["true"]) (.texts ["ls"]) (.texts ["wc"]), text := none }]

theorem preprocessScript_restores_errands :
    ∃ out s', Yields (preprocessScript .direct errands) {} out s' ∧
    (out.trees.length = 3 ∧ out.files.size = 10) ∧
      out.restore errands = errands.map (·.tree) := by
  obtain ⟨out, s', hy, htest⟩ := @exists_yields_of_any _ (preprocessScript .direct errands) {}
    (fun out => out.trees.length == 3 && out.files.size == 10) (by decide +kernel)
  exact ⟨out, s', hy, by simpa using htest, (preprocessScript_restores (by decide +kernel) hy).1⟩

end ShellFlow
