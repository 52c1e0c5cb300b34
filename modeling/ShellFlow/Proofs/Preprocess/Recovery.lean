import ShellFlow.Proofs.Preprocess.Descent
import ShellFlow.Proofs.Preprocess.Restoring

/-!
# What a preprocessed tree stands for

Files are only written behind others, and under new names.  So what a tree stands for when it is
made it stands for ever after, and a construct stands for what its parts stand for.
-/

namespace ShellFlow

open List

variable {call : Tree} {inSequence last : Bool} {made : List (Tree × Bool)} {p : Preprocessed}
  {parts : List (Bool × Tree)} {text : Option String} {trees : List Tree}

/-! ## Files that grow -/

/-- Different scratch files, none of them numbered above the count. -/
structure Numbered (files : Files) (s : Supply) : Prop where
  nodup : files.keys.Nodup
  scratch : ∀ path ∈ files.keys, ∃ number ≤ s.scratch, path = scratchFile number

theorem Numbered.empty (s : Supply) : Numbered .empty s := by
  constructor
  · exact nodup_nil
  · intro path hpath
    cases hpath

theorem Numbered.scratchFile_notMem {files : Files} {s : Supply} (h : Numbered files s)
    {number : Nat} (hlt : s.scratch < number) : scratchFile number ∉ files.keys := by
  intro hmem
  obtain ⟨k, hle, heq⟩ := h.scratch _ hmem
  have := scratchFile_inj heq
  omega

/-- Files are written behind others, and are numbered still. -/
structure Grows (files files' : Files) (s' : Supply) : Prop where
  numbered : Numbered files' s'
  entries : files.entries <+: files'.entries

namespace Grows

variable {files files₁ files₂ : Files} {s s₁ s₂ : Supply}

theorem refl (h : Numbered files s) : Grows files files s := ⟨h, prefix_rfl⟩

theorem trans (h₁ : Grows files files₁ s₁) (h₂ : Grows files₁ files₂ s₂) : Grows files files₂ s₂ :=
  ⟨h₂.numbered, h₁.entries.trans h₂.entries⟩

/-- Nothing was written in two steps exactly if nothing was written in either. -/
theorem eq_iff (h₁ : Grows files files₁ s₁) (h₂ : Grows files₁ files₂ s₂) :
    files₂ = files ↔ files₁ = files ∧ files₂ = files₁ := by
  constructor
  · rintro rfl
    have heq : files₁.entries = files₂.entries := h₂.entries.eq_of_length_le h₁.entries.length_le
    have hfiles : files₁ = files₂ := by
      cases files₁
      cases files₂
      exact congrArg Table.mk heq
    exact ⟨hfiles, hfiles.symm⟩
  · rintro ⟨rfl, rfl⟩
    rfl

/-- Two steps together changed something exactly if one of them did. -/
theorem or_eq_false_iff {a b : Bool} (h₁ : Grows files files₁ s₁) (h₂ : Grows files₁ files₂ s₂)
    (ha : a = false ↔ files₁ = files) (hb : b = false ↔ files₂ = files₁) :
    (a || b) = false ↔ files₂ = files := by
  rw [Bool.or_eq_false_iff, h₁.eq_iff h₂]
  exact and_congr ha hb

end Grows

variable {t t' : Traversal} {s s' : Supply}

/-- **Storing a region** writes two files. -/
theorem storeRegion_grows (hnum : Numbered t.files s)
    (h : Reaches (storeRegion .direct trees text inSequence) t s call t' s') :
    Grows t.files t'.files s' ∧ ∃ script, regionText trees text = .ok script ∧
      call = directCall (scratchFile (s.scratch + 1)) (scratchFile (s.scratch + 2)) inSequence ∧
      t'.files.entries = t.files.entries ++
        [(scratchFile (s.scratch + 1), .region trees),
          (scratchFile (s.scratch + 2), .text script)] := by
  obtain ⟨script, hscript, rfl, rfl, rfl⟩ := reaches_storeRegion h
  have hregion : scratchFile (s.scratch + 1) ∉ t.files.keys :=
    hnum.scratchFile_notMem (Nat.lt_succ_self _)
  have hne : scratchFile (s.scratch + 2) ≠ scratchFile (s.scratch + 1) := by
    intro heq
    have := scratchFile_inj heq
    omega
  have htext : scratchFile (s.scratch + 2) ∉
      (t.files.insert (scratchFile (s.scratch + 1)) (.region trees)).keys := by
    rw [Table.mem_keys_insert, not_or]
    exact ⟨hne, hnum.scratchFile_notMem (by omega)⟩
  have hentries : ((t.files.insert (scratchFile (s.scratch + 1)) (.region trees)).insert
      (scratchFile (s.scratch + 2)) (.text script)).entries = t.files.entries ++
        [(scratchFile (s.scratch + 1), .region trees),
          (scratchFile (s.scratch + 2), .text script)] := by
    rw [Table.entries_insert_of_notMem htext, Table.entries_insert_of_notMem hregion,
      List.append_assoc]
    rfl
  refine ⟨⟨⟨?_, ?_⟩, hentries ▸ prefix_append _ _⟩, script, hscript, rfl, hentries⟩
  · exact Table.nodup_keys_insert (Table.nodup_keys_insert hnum.nodup _ _) _ _
  · intro path hpath
    rw [Table.mem_keys_insert, Table.mem_keys_insert] at hpath
    rcases hpath with rfl | rfl | hpath
    · exact ⟨_, Nat.le_refl _, rfl⟩
    · exact ⟨_, Nat.le_succ _, rfl⟩
    · obtain ⟨number, hle, heq⟩ := hnum.scratch path hpath
      exact ⟨number, Nat.le_add_right_of_le hle, heq⟩

theorem Tree.files_enter (tree : Tree) (t : Traversal) : (tree.enter t).files = t.files := by
  unfold enter
  split <;> rfl

theorem Tree.files_exit {tree : Tree} (h : tree.exit t = .ok t') : t'.files = t.files := by
  unfold exit Traversal.exitLoop at h
  split at h
  · split at h
    · cases h
    · exact Except.ok.inj h ▸ rfl
  · exact Except.ok.inj h ▸ rfl

/-! ## What trees stand for -/

/-- A tree stands for some trees, in these files and whatever files are written behind them. -/
def StandsFor (files : Files) (tree : Tree) (originals : List Tree) : Prop :=
  ∀ files' : Files, files.entries <+: files'.entries → files'.keys.Nodup →
    tree.splice files'.regions = originals

namespace StandsFor

variable {files files' : Files} {tree original : Tree}

theorem of_plain (h : tree.plain) : StandsFor files tree [tree] := by
  intro later _ _
  rw [Tree.splice, Tree.regionFile?_of_plain h, Option.bind_none, Tree.expand_of_plain tree h]

/-- A construct stands for what its parts stand for. -/
theorem of_expand (hcall : tree.regionFile? = none)
    (h : ∀ later : Files, files.entries <+: later.entries → later.keys.Nodup →
      tree.expand later.regions = original) : StandsFor files tree [original] := by
  intro later hle hnodup
  rw [Tree.splice, hcall, Option.bind_none, h later hle hnodup]

theorem expand (h : StandsFor files tree [original]) (hle : files.entries <+: files'.entries)
    (hnodup : files'.keys.Nodup) : tree.expand files'.regions = original := by
  have hsplice := h files' hle hnodup
  unfold Tree.splice at hsplice
  split at hsplice
  · next trees hregion =>
    cases tree with
    | command =>
      rw [Tree.expand, hregion, hsplice]
      rfl
    | _ => cases hregion
  · exact singleton_inj.1 hsplice

end StandsFor

/-- **A stored region stands for what its trees stand for.** -/
theorem storeRegion_standsFor (hnum : Numbered t.files s)
    (h : Reaches (storeRegion .direct trees text inSequence) t s call t' s') :
    Grows t.files t'.files s' ∧ t'.files ≠ t.files ∧ call.keepsCount = false ∧
    (∀ kept, call ≠ .verbatim kept) ∧
      StandsFor t'.files call (trees.flatMap (Tree.splice t.files.regions)) := by
  obtain ⟨hgrows, script, -, rfl, hentries⟩ := storeRegion_grows hnum h
  refine ⟨hgrows, ?_, rfl, fun _ => Tree.noConfusion, ?_⟩
  · intro heq
    have hlength := congrArg List.length hentries
    rw [heq, length_append, length_cons] at hlength
    omega
  · rintro later ⟨after, hafter⟩ hnodup
    have hlater : later.entries = t.files.entries ++ (scratchFile (s.scratch + 1), .region trees) ::
        ((scratchFile (s.scratch + 2), .text script) :: after) := by
      rw [← hafter, hentries, List.append_assoc]
      rfl
    rw [Tree.splice, Tree.regionFile?_directCall (mark_notMem_scratchFile _), Option.bind_some,
      Files.get?_regions hlater hnodup]

/-! ## Preprocessing a tree -/

/-- A tree was preprocessed: the result stands for it, and says whether anything was stored. -/
structure Recovers (files : Files) (tree : Tree) (p : Preprocessed) (files' : Files) : Prop where
  stands : StandsFor files' p.tree [tree]
  noCount : p.tree.keepsCount = false
  noText : ∀ text, p.tree ≠ .verbatim text
  replaced : tree.isCandidate = false → (p.replaced = false ↔ files' = files)

/-- Trees were preprocessed one after the other, and those that were to become regions have become
regions. -/
structure RecoversAll (files : Files) (trees : List Tree) (made : List (Tree × Bool))
    (files' : Files) : Prop where
  expand : ∀ later : Files, files'.entries <+: later.entries → later.keys.Nodup →
    (made.map (·.1)).map (Tree.expand later.regions) = trees
  noCount : ∀ new ∈ made.map (·.1), new.keepsCount = false
  replaced : made.any (·.2) = false ↔ files' = files

namespace Tree

variable {regions : Regions} {made : List Tree} {tree : Tree}

theorem expandArms_zipWith {arms : List Arm} (h : made.map (expand regions) = arms.map Arm.body) :
    expandArms regions (arms.zipWith Arm.withBody made) = arms := by
  induction arms generalizing made with
  | nil => rw [zipWith_nil_left, expandArms]
  | cons arm _ ih =>
    obtain ⟨new, rest, rfl, hnew, hrest⟩ := map_eq_cons_iff.1 h
    obtain ⟨fields, body⟩ := arm
    rw [zipWith_cons_cons, Arm.withBody, expandArms, hnew, ih hrest]
    rfl

/-- **A construct that is put together again** stands for what its new parts stand for. -/
theorem expand_withParts {loop : Int} {inside outside : List Int} (hchildren : tree.children ≠ [])
    (hcount : ∀ new ∈ made, new.keepsCount = false)
    (h : made.map (expand regions) = tree.children) :
    (tree.withParts loop inside outside made).expand regions = tree := by
  cases tree with
  | scope kind =>
    cases kind with
    | background => exact absurd rfl hchildren
    | _ =>
      obtain ⟨new, rfl, rfl⟩ := map_eq_singleton_iff.1 h
      rw [withParts, expand]
  | negate =>
    obtain ⟨new, rfl, rfl⟩ := map_eq_singleton_iff.1 h
    rw [withParts, expand]
  | forEach =>
    obtain ⟨new, rfl, rfl⟩ := map_eq_singleton_iff.1 h
    rw [withParts, expand_countedLoop]
  | join =>
    obtain ⟨newLeft, rest, rfl, rfl, hrest⟩ := map_eq_cons_iff.1 h
    obtain ⟨newRight, rfl, rfl⟩ := map_eq_singleton_iff.1 hrest
    rw [withParts, expand_join (hcount _ (by simp)) (hcount _ (by simp))]
  | whileDo =>
    obtain ⟨newTest, rest, rfl, rfl, hrest⟩ := map_eq_cons_iff.1 h
    obtain ⟨newBody, rfl, rfl⟩ := map_eq_singleton_iff.1 hrest
    rw [withParts, expand]
  | branch =>
    obtain ⟨newTest, rest, rfl, rfl, hrest⟩ := map_eq_cons_iff.1 h
    obtain ⟨newYes, last, rfl, rfl, hlast⟩ := map_eq_cons_iff.1 hrest
    obtain ⟨newNo, rfl, rfl⟩ := map_eq_singleton_iff.1 hlast
    rw [withParts, expand]
  | select => rw [withParts, expand,
      expandArms_zipWith (by simpa [children, parts, Function.comp_def] using h)]
  | _ => exact absurd rfl hchildren

theorem plainArms_eq (arms : List Arm) : plainArms arms = (arms.map Arm.body).all plain := by
  induction arms with
  | nil => rw [plainArms, map_nil, all_nil]
  | cons arm _ ih =>
    obtain ⟨fields, body⟩ := arm
    rw [plainArms, ih, map_cons, all_cons]
    rfl

theorem plain_eq_children (h : tree.children ≠ []) : tree.plain = tree.children.all plain := by
  cases tree with
  | scope kind =>
    cases kind with
    | background => exact absurd rfl h
    | _ => simp [plain, children, parts]
  | select =>
    rw [plain, plainArms_eq]
    simp [children, parts, Function.comp_def]
  | forEach | whileDo | join | negate => simp [plain, children, parts]
  | branch => simp [plain, children, parts, Bool.and_assoc]
  | _ => exact absurd rfl h

theorem notCommand_of_children (h : tree.children ≠ []) :
    tree.regionFile? = none ∧ tree.keepsCount = false ∧ ∀ text, tree ≠ .verbatim text := by
  cases tree with
  | command | verbatim => exact absurd rfl h
  | _ => exact ⟨rfl, rfl, fun _ => Tree.noConfusion⟩

end Tree

/-- **Preprocessing trees** writes files behind others, and what plain trees become stands for them.
-/
theorem preprocess_recovers : Throughout .direct
    (fun tree t s p t' s' => Numbered t.files s →
      Grows t.files t'.files s' ∧ (tree.plain → Recovers t.files tree p t'.files))
    (fun tree t s r t' s' => Numbered t.files s → Grows t.files t'.files s' ∧ (tree.plain →
      StandsFor t'.files r.1 [tree] ∧ r.1.keepsCount = false ∧ (r.2 = false ↔ t'.files = t.files)))
    fun parts t s made t' s' => Numbered t.files s → Grows t.files t'.files s' ∧
      ((∀ part ∈ parts, part.2.plain) → RecoversAll t.files (parts.map (·.2)) made t'.files) := by
  apply preprocess_induction
  case leaf =>
    intro tree t s _ htext hnum
    exact ⟨.refl hnum, fun hplain => ⟨.of_plain hplain, Tree.keepsCount_of_plain hplain, htext,
      fun hcandidate => ⟨fun _ => rfl, fun _ => hcandidate⟩⟩⟩
  case construct =>
    intro last tree t s made u t' s' hchildren hlength hmade hexit hnum
    rw [tree.files_enter, ← Tree.files_exit hexit, tree.map_parts] at hmade
    obtain ⟨hgrows, hall⟩ := hmade hnum
    refine ⟨hgrows, fun hplain => ?_⟩
    rw [Tree.plain_eq_children hchildren] at hplain
    have hrec := hall fun part hpart =>
      all_eq_true.1 hplain _ (tree.map_parts last ▸ mem_map_of_mem hpart)
    obtain ⟨hcall, hcount, htext⟩ := Tree.notCommand_of_children
      (@Tree.children_withParts_ne_nil tree t.loops u.enclosing t'.enclosing _ hlength hchildren)
    refine ⟨.of_expand hcall fun later hle hnodup => ?_, hcount, htext, fun _ => hrec.replaced⟩
    exact Tree.expand_withParts hchildren hrec.noCount (hrec.expand later hle hnodup)
  case store =>
    intro last tree t s call t' s' _ _ hstore hnum
    obtain ⟨hgrows, hne, hcount, -, hstands⟩ := storeRegion_standsFor hnum hstore
    refine ⟨hgrows, fun hplain => ⟨?_, hcount, by simpa using hne⟩⟩
    have htree : tree.splice t.files.regions = [tree] :=
      StandsFor.of_plain hplain t.files prefix_rfl hnum.nodup
    rwa [flatMap_cons, flatMap_nil, append_nil, htree] at hstands
  case keep =>
    intro tree t s p t' s' hcandidate hp hnum
    obtain ⟨hgrows, hrec⟩ := hp hnum
    exact ⟨hgrows, fun hplain =>
      ⟨(hrec hplain).stands, (hrec hplain).noCount, (hrec hplain).replaced hcandidate⟩⟩
  case nil => exact fun t s hnum => ⟨.refl hnum, fun _ => ⟨fun _ _ _ => rfl, by simp, by simp⟩⟩
  case cons =>
    intro last tree rest r rs t u t' s v s' _ hfirst ih hnum
    obtain ⟨hgrows, htree⟩ := hfirst hnum
    obtain ⟨hlater, hrest⟩ := ih hgrows.numbered
    refine ⟨hgrows.trans hlater, fun hplain => ?_⟩
    obtain ⟨hplainTree, hplainRest⟩ := forall_mem_cons.1 hplain
    obtain ⟨hstands, hcount, hreplaced⟩ := htree hplainTree
    have hothers := hrest hplainRest
    refine ⟨fun later hle hnodup => ?_, forall_mem_cons.2 ⟨hcount, hothers.noCount⟩,
      hgrows.or_eq_false_iff hlater hreplaced hothers.replaced⟩
    rw [map_cons, map_cons, hstands.expand (hlater.entries.trans hle) hnodup,
      hothers.expand later hle hnodup]
    rfl

end ShellFlow
