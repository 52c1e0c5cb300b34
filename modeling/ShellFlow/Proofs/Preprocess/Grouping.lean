import ShellFlow.Proofs.Preprocess.Recovery

/-!
# Groups of a script

A script is cut into groups: trees in the background go with the first tree behind them that is not
in the background, and any other tree is a group by itself.  A group with a tree in the background
becomes one region, as does a tree that is to become one as a whole.
-/

namespace ShellFlow

variable {last : Bool} {t t' : Traversal} {s s' : Supply} {item : ScriptItem}
  {held items : List ScriptItem}
  {rs : List Preprocessed}

/-- The groups of a script, where some items before it are held back. -/
def groupsFrom (held : List ScriptItem) : List ScriptItem → List (List ScriptItem)
  | [] => if held.isEmpty then [] else [held]
  | item :: rest =>
    if item.tree.isBackground then groupsFrom (held ++ [item]) rest else (held ++ [item]) ::
      groupsFrom [] rest

/-- A group of items of a script, what their trees have been preprocessed to, and the tree in the
place of the group. -/
structure Portion where
  items : List ScriptItem
  results : List Preprocessed
  made : Tree

/-- The trees of some items are preprocessed one after the other; the last of them may be the last
of the script. -/
inductive PreprocessesAll (last : Bool) :
    List ScriptItem → Traversal → Supply → List Preprocessed → Traversal → Supply → Prop
  | nil {t : Traversal} {s : Supply} : PreprocessesAll last [] t s [] t s
  | cons {item : ScriptItem} {rest : List ScriptItem} {r : Preprocessed} {rs : List Preprocessed}
      {t u t' : Traversal} {s v s' : Supply}
      (first : Reaches (preprocessTree .direct (last && rest.isEmpty) item.tree) t s r u v)
      (others : PreprocessesAll last rest u v rs t' s') :
      PreprocessesAll last (item :: rest) t s (r :: rs) t' s'

namespace Portion

variable (p : Portion)

/-- All trees of a group but the last are in the background, and the last one only at the end of the
script. -/
def Shaped (last : Bool) : Prop :=
  ∃ run item, p.items = run ++ [item] ∧ (∀ other ∈ run, other.tree.isBackground) ∧
    (item.tree.isBackground → last)

/-- Whether a group is to become a region: it has a tree in the background, or only one tree that is
to become a region as a whole. -/
def IsRegion : Prop :=
  (∃ item ∈ p.items, item.tree.isBackground) ∨ ∃ item, p.items = [item] ∧ item.tree.isCandidate

/-- A group is preprocessed. -/
def Makes (last : Bool) (t : Traversal) (s : Supply) (t' : Traversal) (s' : Supply) : Prop :=
  ∃ u v, PreprocessesAll last p.items t s p.results u v ∧ p.Shaped last ∧
    ((p.IsRegion ∧
      Reaches (storeRegion .direct (p.results.map (·.tree)) (joinTexts (p.items.map (·.text))) last)
        u v p.made t' s') ∨
      (¬ p.IsRegion ∧ u = t' ∧ v = s' ∧ ∃ item r, p.items = [item] ∧ p.results = [r] ∧
        p.made = r.keep item.text))

/-- What is known of a group in the end: a region is called, its trees and its text are stored, and
the call says whether it is the last one; anything else stays. -/
structure Fits (p : Portion) (last : Bool) (files : Files) : Prop where
  shaped : p.Shaped last
  /-- The trees that can become a region as a whole, and those that go on with the next one, are
  found as such. -/
  flags : List.Forall₂ (fun item r => r.whole = item.tree.isCandidate ∧
    r.extends? = item.tree.isBackground)
    p.items p.results
  called : p.IsRegion → ∃ f g, p.made = .command 0
      [.mk "pash_disable_parallel_pipelines" (Word.ofString (if last then "1" else "0")),
        .mk "pash_sequential_script_file" (Word.ofString g),
          .mk "pash_input_ir_file" (Word.ofString f)]
      [Word.ofString "source",
        Word.ofString (Settings.standard.program Settings.standard.regionRuntime)] [] ∧
    files.get? f = some (.region (p.results.map (·.tree))) ∧
    ∀ texts, p.items.map (·.text) = texts.map some →
      files.get? g = some (.text ("\n".intercalate texts))
  kept : ¬ p.IsRegion → ∃ item r, p.items = [item] ∧ p.results = [r] ∧ p.made = r.keep item.text

end Portion

/-- A script is preprocessed group by group. -/
inductive Portions : Traversal → Supply → List Portion → Traversal → Supply → Prop
  | nil {t : Traversal} {s : Supply} : Portions t s [] t s
  | cons {p : Portion} {back : List Portion} {t u t' : Traversal} {s v s' : Supply}
      (first : p.Makes back.isEmpty t s u v) (others : Portions u v back t' s') :
      Portions t s (p :: back) t' s'

/-- What is made of a tree in the background: nothing. -/
def heldBack (item : ScriptItem) : Preprocessed :=
    { tree := item.tree, whole := true, extends? := true }

theorem reaches_heldBack (h : item.tree.isBackground) :
    Reaches (preprocessTree .direct last item.tree) t s (heldBack item) t s := by
  rw [heldBack]
  generalize item.tree = tree at h ⊢
  cases tree with
  | pipe background =>
    rw [preprocessTree]
    exact reaches_pure.2 ⟨by rw [show background.truthy = true from h], rfl, rfl⟩
  | scope kind =>
    cases kind with
    | background =>
      rw [preprocessTree]
      exact reaches_pure.2 ⟨rfl, rfl, rfl⟩
    | _ => cases h
  | _ => cases h

section

variable (hheld : ∀ other ∈ held, other.tree.isBackground)
include hheld

theorem preprocessesAll_held {rest : List ScriptItem}
    (h : PreprocessesAll last rest t s rs t' s') :
    PreprocessesAll last (held ++ rest) t s (held.map heldBack ++ rs) t' s' := by
  induction held with
  | nil => exact h
  | cons _ _ ih =>
    obtain ⟨hitem, hrest⟩ := List.forall_mem_cons.1 hheld
    exact .cons (reaches_heldBack hitem) (ih hrest)

/-- What is held back at the end of a script is a group. -/
theorem makes_of_held {made : Tree} (hne : held ≠ [])
    (h : Reaches (storeItems .direct held true) t s made t' s') :
    (Portion.mk held (held.map heldBack) made).Makes true t s t' s' := by
  obtain ⟨run, item, rfl⟩ := (List.eq_nil_or_concat' held).resolve_left hne
  obtain ⟨hrun, hitem⟩ := List.forall_mem_append.1 hheld
  refine ⟨t, s, by simpa using preprocessesAll_held hheld .nil,
    ⟨run, item, rfl, hrun, fun _ => rfl⟩, .inl ⟨.inl ?_, ?_⟩⟩
  · exact ⟨item, by simp, hitem item (List.mem_singleton_self item)⟩
  · simpa [storeItems, heldBack, Function.comp_def] using h

/-- An item that is not in the background is a group with what was held back. -/
theorem makes_of_item {tree : Tree} {after : List ScriptItem}
    (h : Reaches (preprocessItem .direct last held item) t s (some tree, after) t' s') :
    after = [] ∧ ∃ r, (Portion.mk (held ++ [item]) (held.map heldBack ++ [r]) tree).Makes last t s
      t' s' := by
  rcases preprocessItem_steps h with ⟨-, heq, -⟩ | ⟨hbackground, r, u, v, tree', hr, heq, hmade⟩
  · cases heq
  cases heq
  have hlast : Reaches (preprocessTree .direct (last && ([] : List ScriptItem).isEmpty) item.tree) t
    s r u v :=
    (Bool.and_true last).symm ▸ hr
  have hshaped : item.tree.isBackground → last := fun h => by cases hbackground.symm.trans h
  refine ⟨rfl, r, u, v, preprocessesAll_held hheld (.cons hlast .nil),
    ⟨held, item, rfl, hheld, hshaped⟩, ?_⟩
  rcases hmade with ⟨hregion, hstore⟩ | ⟨rfl, hcandidate, rfl, rfl, rfl⟩
  · refine .inl ⟨?_, by simpa [heldBack, Function.comp_def] using hstore⟩
    cases held with
    | nil => exact .inr ⟨item, rfl, hregion.resolve_left fun hne => hne rfl⟩
    | cons other => exact .inl ⟨other, List.mem_cons_self, hheld other List.mem_cons_self⟩
  · refine .inr ⟨?_, rfl, rfl, item, r, rfl, rfl, rfl⟩
    rintro (⟨other, hmem, hother⟩ | ⟨other, heq, hother⟩)
    · obtain rfl := List.mem_singleton.1 hmem
      cases hother.symm.trans hbackground
    · obtain rfl := List.singleton_inj.1 heq
      cases hother.symm.trans hcandidate

/-- **A script is preprocessed group by group**, after the items that are held back. -/
theorem exists_portions {trees : List Tree}
    (h : Reaches (preprocessItems .direct held items) t s trees t' s') :
    ∃ ps, Portions t s ps t' s' ∧ ps.map (·.items) = groupsFrom held items ∧
      ps.flatMap (·.items) = held ++ items ∧ trees = ps.map (·.made) ∧
      ps.isEmpty = (held ++ items).isEmpty := by
  replace h := runsThrough_of_reaches h
  induction h with
  | done => exact ⟨[], .nil, rfl, rfl, rfl, rfl⟩
  | store hne hstore =>
    exact ⟨[_], .cons (makes_of_held hheld hne hstore) .nil, by simp [groupsFrom, hne], by simp,
      rfl, by simp [hne]⟩
  | hold hbackground _ _ ih =>
    obtain ⟨ps, hps, hgroups, hitems, rfl, hempty⟩ :=
      ih (by simpa [or_imp, forall_and] using ⟨hheld, hbackground⟩)
    refine ⟨ps, hps, ?_, by simpa using hitems, rfl, by simpa using hempty⟩
    rw [groupsFrom, if_pos hbackground, hgroups]
  | @make _ rest _ _ _ _ _ _ _ _ _ hbackground hitem _ ih =>
    obtain ⟨-, r, hmakes⟩ := makes_of_item hheld hitem
    obtain ⟨ps, hps, hgroups, hitems, rfl, hempty⟩ := ih fun other hother => by cases hother
    rw [← show ps.isEmpty = rest.isEmpty from hempty] at hmakes
    refine ⟨_ :: ps, .cons hmakes hps, ?_, by simp [hitems], rfl, by simp⟩
    rw [groupsFrom, hbackground, if_neg Bool.false_ne_true, List.map_cons, hgroups]

end

theorem PreprocessesAll.grows (h : PreprocessesAll last items t s rs t' s')
    (hnum : Numbered t.files s) : Grows t.files t'.files s' := by
  induction h with
  | nil => exact .refl hnum
  | cons first _ ih =>
    have hfirst := (preprocess_recovers.tree first hnum).1
    exact hfirst.trans (ih hfirst.numbered)

theorem PreprocessesAll.flags (h : PreprocessesAll last items t s rs t' s') :
    List.Forall₂ (fun item r => r.whole = item.tree.isCandidate ∧
      r.extends? = item.tree.isBackground) items rs := by
  induction h with
  | nil => exact .nil
  | cons first _ ih =>
    obtain ⟨hwhole, hextends, -⟩ := preprocessTree_flags first
    exact .cons ⟨hwhole, hextends⟩ ih

theorem Portion.Makes.fits {p : Portion} (h : p.Makes last t s t' s') (hnum : Numbered t.files s) :
    Grows t.files t'.files s' ∧ ∀ files : Files, t'.files.entries <+: files.entries →
      files.keys.Nodup → p.Fits last files := by
  obtain ⟨u, v, hall, hshaped, hmade⟩ := h
  have hgrows := hall.grows hnum
  rcases hmade with ⟨hregion, hstore⟩ | ⟨hkept, rfl, rfl, hmade⟩
  · obtain ⟨hstored, script, hscript, hcall, hentries⟩ := storeRegion_grows hgrows.numbered hstore
    refine ⟨hgrows.trans hstored, fun files hle hnodup =>
      ⟨hshaped, hall.flags, fun _ => ⟨_, _, hcall, ?_, ?_⟩, absurd hregion⟩⟩
    · exact Table.get?_of_mem hnodup (hle.subset (by simp [hentries]))
    · intro texts htexts
      rw [htexts, joinTexts_map_some] at hscript
      obtain rfl := regionText_some hscript
      exact Table.get?_of_mem hnodup (hle.subset (by simp [hentries]))
  · exact ⟨hgrows, fun files _ _ =>
      ⟨hshaped, hall.flags, fun hregion => absurd hregion hkept, fun _ => hmade⟩⟩

theorem Portions.fits {ps : List Portion} (h : Portions t s ps t' s') (hnum : Numbered t.files s) :
    Grows t.files t'.files s' ∧ ∀ front p back, ps = front ++ p :: back →
    p.Fits back.isEmpty t'.files := by
  induction h with
  | nil => exact ⟨.refl hnum, by simp⟩
  | cons first _ ih =>
    obtain ⟨hfirst, hfits⟩ := first.fits hnum
    obtain ⟨hothers, hall⟩ := ih hfirst.numbered
    refine ⟨hfirst.trans hothers, fun front p back heq => ?_⟩
    cases front with
    | nil =>
      cases heq
      exact hfits _ hothers.entries hothers.numbered.nodup
    | cons q front => exact hall front p back (List.cons.inj heq).2

/-- **The groups of a script.**  A script is cut into groups of consecutive items, of which all
trees but the last are in the background, and the last one only at the end of the script.  There is
one tree for each group.  A group with a tree in the background, and a tree by itself that is to
become a region as a whole, is called as one region: the trees to which its items have been
preprocessed are stored, and their texts, joined by line ends, if all of them are known.  The region
is run in sequence if and only if its group is the last one. -/
theorem preprocessScript_groups {out : PreprocessedScript}
    (h : Yields (preprocessScript .direct items) s out s') :
    ∃ ps t', Portions {} s ps t' s' ∧ ps.map (·.items) = groupsFrom [] items ∧
      ps.flatMap (·.items) = items ∧ out.trees = ps.map (·.made) ∧ out.files = t'.files ∧
      ∀ front p back, ps = front ++ p :: back → p.Fits back.isEmpty out.files := by
  unfold preprocessScript at h
  obtain ⟨⟨trees, t'⟩, _, hrun, hpure⟩ := yields_bind.1 h
  obtain ⟨rfl, rfl⟩ := yields_pure.1 hpure
  obtain ⟨ps, hps, hgroups, hitems, rfl, -⟩ :=
    exists_portions (fun other hother => by cases hother) hrun
  exact ⟨ps, t', hps, hgroups, hitems, rfl, rfl, (hps.fits (.empty s)).2⟩

/-- A command behind two in the background, a loop, and a command in the background at the end. -/
def leaving : List ScriptItem :=
  [{ tree := .inBackground (.texts ["sleep", "1"]), text := some "sleep 1 &" },
    { tree := .pipe 1 [.texts ["cat", "f"], .texts ["wc"]], text := some "cat f | wc &" },
    { tree := .texts ["ls"], text := some "ls" },
    { tree := .forEach 4 (Word.ofString "a") (.texts ["cat", "f"]) (.text "i"), text := none },
    { tree := .inBackground (.texts ["sleep", "2"]), text := some "sleep 2 &" }]

theorem preprocessScript_groups_leaving :
    ∃ out s', Yields (preprocessScript .direct leaving) {} out s' ∧
      ∃ p q r : Portion, p.items = leaving.take 3 ∧ q.items = (leaving.drop 3).take 1 ∧
        r.items = leaving.drop 4 ∧ out.trees = [p.made, q.made, r.made] ∧ p.Fits false out.files ∧
        q.Fits false out.files ∧ r.Fits true out.files ∧
        (∃ g, out.files.get? g = some (.text "sleep 1 &\ncat f | wc &\nls")) ∧
        ∃ g, out.files.get? g = some (.text "sleep 2 &") := by
  obtain ⟨out, s', hy⟩ :=
    @exists_yields_of_isOk _ (preprocessScript .direct leaving) {} (by decide +kernel)
  obtain ⟨ps, t', -, hgroups, -, htrees, -, hfits⟩ := preprocessScript_groups hy
  have hcut : groupsFrom [] leaving =
    [leaving.take 3, (leaving.drop 3).take 1, leaving.drop 4] := rfl
  rw [hcut] at hgroups
  obtain ⟨p, ps, rfl, hp, hgroups⟩ := List.map_eq_cons_iff.1 hgroups
  obtain ⟨q, ps, rfl, hq, hgroups⟩ := List.map_eq_cons_iff.1 hgroups
  obtain ⟨r, ps, rfl, hr, hgroups⟩ := List.map_eq_cons_iff.1 hgroups
  obtain rfl := List.map_eq_nil_iff.1 hgroups
  have hpFits := hfits [] p [q, r] rfl
  have hrFits := hfits [p, q] r [] rfl
  obtain ⟨-, g, -, -, hfirst⟩ :=
    hpFits.called (.inl ⟨leaving.head (by decide), by rw [hp]; simp [leaving], rfl⟩)
  obtain ⟨-, g', -, -, hlast⟩ :=
    hrFits.called (.inl ⟨leaving.getLast (by decide), by rw [hr]; simp [leaving], rfl⟩)
  refine ⟨out, s', hy, p, q, r, hp, hq, hr, htrees, hpFits, hfits [p] q [r] rfl, hrFits,
    ⟨g, ?_⟩, g', ?_⟩
  · exact hfirst ["sleep 1 &", "cat f | wc &", "ls"] (by rw [hp]; rfl)
  · exact hlast ["sleep 2 &"] (by rw [hr]; rfl)

end ShellFlow
