import ShellFlow.Proofs.Preprocess.Numbering

/-!
# Trees that are preprocessed

Preprocessing a tree fails where it comes to a tree of a kind that no script has, to a selection
without arms, or to a region whose script cannot be written.  Everywhere else it gives a result.
-/

namespace ShellFlow

variable {α β : Type} {mode : Mode} {last : Bool} {t t' : Traversal} {s s' : Supply} {tree : Tree}
  {inSequence : Bool}
  {text : Option String} {trees : List Tree}

/-- A computation over a traversal gives a result, whatever the traversal and the supply of names
are. -/
def Gives (x : Preprocess α) : Prop := ∀ t s, ∃ a t' s', Reaches x t s a t' s'

theorem gives_pure (a : α) : Gives (pure a : Preprocess α) :=
    fun t s => ⟨a, t, s, reaches_pure.2 ⟨rfl, rfl, rfl⟩⟩

theorem Gives.bind {x : Preprocess α} {f : α → Preprocess β} (hx : Gives x)
    (hf : ∀ a, Gives (f a)) : Gives (x >>= f) := by
  intro t s
  obtain ⟨a, u, v, ha⟩ := hx t s
  obtain ⟨b, t', s', hb⟩ := hf a u v
  exact ⟨b, t', s', reaches_bind.2 ⟨a, u, v, ha, hb⟩⟩

theorem gives_freshFile : Gives (liftM freshFile) :=
  fun t _ => ⟨_, t, _, reaches_lift.2 ⟨yields_freshFile.2 ⟨rfl, rfl⟩, rfl⟩⟩

/-- A region can be stored if its script can be written. -/
theorem gives_storeRegion {script : String} (h : regionText trees text = .ok script) :
    Gives (storeRegion mode trees text inSequence) := by
  refine Gives.bind (fun t s => ⟨script, t, s, reaches_lift.2 ⟨yields_lift.2 ⟨h, rfl⟩, rfl⟩⟩)
    fun script => ?_
  cases mode with
  | direct =>
    refine gives_freshFile.bind fun _ => gives_freshFile.bind fun _ =>
      Gives.bind (fun t s => ?_) fun _ => gives_pure _
    exact ⟨.unit, _, s, reaches_modify.2 ⟨rfl, rfl⟩⟩
  | speculative =>
    refine Gives.bind (fun t s => ⟨t, t, s, reaches_get.2 ⟨rfl, rfl, rfl⟩⟩) fun _ => ?_
    exact Gives.bind (fun _ s => ⟨.unit, _, s, reaches_set.2 ⟨rfl, rfl⟩⟩) fun _ => gives_pure _

theorem regionText_of_storeRegion {call : Tree}
    (h : Reaches (storeRegion mode trees text inSequence) t s call t' s') :
    ∃ script, regionText trees text = .ok script := by
  obtain ⟨script, _, _, hscript, -⟩ := h.bind
  exact ⟨script, (yields_lift.1 (reaches_lift.1 hscript).1).1⟩

/-- A tree is closed if it is preprocessed and, should it become a region, has a script. -/
theorem gives_closing (h : Gives (preprocessTree mode last tree))
    (hscript : tree.isCandidate → ∃ script, regionText [tree] none = .ok script) :
    Gives (closing mode last (preprocessTree mode last tree)) := by
  intro t s
  obtain ⟨p, u, v, hp⟩ := h t s
  have hclose : ∃ r t' s', Reaches (p.close mode last) u v r t' s' := by
    unfold Preprocessed.close
    split
    · next hwhole =>
      have hcandidate := (preprocessTree_flags hp).1.symm.trans hwhole
      obtain ⟨script, hregion⟩ := hscript hcandidate
      rcases preprocessTree_cases hp with ⟨-, -, -, rfl⟩ | ⟨hparts, -⟩
      · exact (gives_storeRegion hregion).bind (fun _ => gives_pure _) u v
      · cases hcandidate.symm.trans (Tree.isCandidate_of_parts hparts)
    · exact gives_pure _ u v
  obtain ⟨r, t', s', hr⟩ := hclose
  exact ⟨r, t', s', reaches_bind.2 ⟨p, u, v, hp, hr⟩⟩

theorem gives_preprocessArms {arms : List Arm}
    (h : ∀ part ∈ arms.map Arm.body, Gives (closing mode last (preprocessTree mode last part))) :
    Gives (preprocessArms mode last arms) := by
  induction arms with
  | nil =>
    rw [preprocessArms]
    exact gives_pure _
  | cons arm _ ih =>
    obtain ⟨fields, body⟩ := arm
    obtain ⟨hbody, harms⟩ := List.forall_mem_cons.1 h
    rw [preprocessArms]
    exact Gives.bind hbody fun _ => (ih harms).bind fun _ => gives_pure _

theorem ClosesAll.exists_leaveLoop {parts : List (Bool × Tree)} {made : List (Tree × Bool)}
    (h : ClosesAll mode parts t.enterLoop.2 s made t' s') :
    ∃ u, Reaches leaveLoop t' s' () u s' := by
  obtain ⟨henclosing, -⟩ := passes_preprocess.parts h 0
  refine ⟨{ t' with enclosing := t.enclosing },
    reaches_bind.2 ⟨t', t', s', reaches_get.2 ⟨rfl, rfl, rfl⟩, ?_⟩⟩
  simp only [Traversal.exitLoop, henclosing, Traversal.enterLoop]
  exact reaches_set.2 ⟨rfl, rfl⟩

namespace Tree

/-- Whether a tree is one of those of which scripts are built. -/
def isSupported : Tree → Bool
  | .generic _ _ | .verbatim _ | .graph _ => false
  | _ => true

end Tree

/-- A construct is preprocessed whose parts are closed. -/
theorem gives_of_parts (hsupported : tree.isSupported) (hselect : tree ≠ .select [])
    (hparts : ∀ part ∈ tree.children, ∀ last,
      Gives (closing mode last (preprocessTree mode last part))) :
    Gives (preprocessTree mode last tree) := by
  cases tree with
  | command line assignments words redirections | pipe background items | define line name body =>
    rw [preprocessTree]
    exact gives_pure _
  | scope kind line body redirections =>
    by_cases hkind : kind = .background
    · subst hkind
      rw [preprocessTree]
      exact gives_pure _
    · rw [preprocessTree]
      · exact Gives.bind (hparts body (by cases kind <;> simp_all [Tree.children, Tree.parts]) last)
          fun _ => gives_pure _
      · exact hkind
  | negate body =>
    rw [preprocessTree]
    exact Gives.bind (hparts body (by simp [Tree.children, Tree.parts]) last) fun _ => gives_pure _
  | join _ left right =>
    rw [preprocessTree]
    exact Gives.bind (hparts left (by simp [Tree.children, Tree.parts]) _) fun _ =>
      Gives.bind (hparts right (by simp [Tree.children, Tree.parts]) last) fun _ => gives_pure _
  | branch test yes no =>
    rw [preprocessTree]
    exact Gives.bind (hparts test (by simp [Tree.children, Tree.parts]) last) fun _ =>
      Gives.bind (hparts yes (by simp [Tree.children, Tree.parts]) last) fun _ =>
      Gives.bind (hparts no (by simp [Tree.children, Tree.parts]) last) fun _ => gives_pure _
  | forEach line range body name =>
    rw [preprocessTree]
    intro t s
    obtain ⟨r, u, v, hbody⟩ :=
      hparts body (by simp [Tree.children, Tree.parts]) last t.enterLoop.2 s
    obtain ⟨w, hleave⟩ := (ClosesAll.cons hbody .nil).exists_leaveLoop
    refine ⟨{ tree := countedLoop t.loops u.enclosing w.enclosing line range r.1 name,
              replaced := r.2 }, w, v, ?_⟩
    refine reaches_bind.2 ⟨t, t, s, reaches_get.2 ⟨rfl, rfl, rfl⟩, ?_⟩
    refine reaches_bind.2 ⟨.unit, _, s, reaches_set.2 ⟨rfl, rfl⟩,
      reaches_bind.2 ⟨r, u, v, hbody, ?_⟩⟩
    refine reaches_bind.2 ⟨u, u, v, reaches_get.2 ⟨rfl, rfl, rfl⟩,
      reaches_bind.2 ⟨(), w, v, hleave, ?_⟩⟩
    exact reaches_bind.2 ⟨w, w, v, reaches_get.2 ⟨rfl, rfl, rfl⟩, reaches_pure.2 ⟨rfl, rfl, rfl⟩⟩
  | whileDo test body =>
    rw [preprocessTree]
    intro t s
    obtain ⟨a, u, v, htest⟩ :=
      hparts test (by simp [Tree.children, Tree.parts]) last t.enterLoop.2 s
    obtain ⟨b, u', v', hbody⟩ := hparts body (by simp [Tree.children, Tree.parts]) last u v
    obtain ⟨w, hleave⟩ := (ClosesAll.cons htest (.cons hbody .nil)).exists_leaveLoop
    refine ⟨{ tree := .whileDo a.1 b.1, replaced := a.2 || b.2 }, w, v', ?_⟩
    refine reaches_bind.2 ⟨.unit, _, s, reaches_modify.2 ⟨rfl, rfl⟩,
      reaches_bind.2 ⟨a, u, v, htest, ?_⟩⟩
    exact reaches_bind.2
      ⟨b, u', v', hbody, reaches_bind.2 ⟨(), w, v', hleave, reaches_pure.2 ⟨rfl, rfl, rfl⟩⟩⟩
  | select arms =>
    have harms : Gives (preprocessArms mode last arms) :=
      gives_preprocessArms fun part hpart =>
        hparts part (by simpa [Tree.children, Tree.parts] using hpart) last
    rw [preprocessTree]
    intro t s
    obtain ⟨r, u, v, hr⟩ := harms t s
    obtain ⟨made, hmade, rfl⟩ := preprocessArms_cases hr
    obtain _ | ⟨arm, arms⟩ := arms
    · exact absurd rfl hselect
    cases hmade with
    | cons => exact ⟨_, u, v, reaches_bind.2 ⟨_, u, v, hr, reaches_pure.2 ⟨rfl, rfl, rfl⟩⟩⟩
  | _ => cases hsupported

/-- **Preprocessing gives a result where nothing stands in its way.**  The induction is on the parts
of constructs. -/
theorem gives_preprocessTree (tree : Tree)
    (hnode : ∀ p node, tree.at? p = some node → node.isSupported ∧ node ≠ .select [])
    (hscript : ∀ i p node, tree.at? (i :: p) = some node → node.isCandidate →
      ∃ script, regionText [node] none = .ok script) : Gives (preprocessTree mode last tree) := by
  induction tree using Tree.children_induction generalizing last with
  | _ tree ih =>
    obtain ⟨hsupported, hselect⟩ := hnode [] tree rfl
    refine gives_of_parts hsupported hselect fun part hpart last => ?_
    obtain ⟨i, hi⟩ := List.mem_iff_getElem?.1 hpart
    have hat : ∀ p, tree.at? (i :: p) = part.at? p := fun p => by rw [Tree.at?, hi]
    refine gives_closing (ih part hpart (fun p node h => hnode (i :: p) node ((hat p).trans h)) ?_)
      (hscript i [] part (hat []))
    exact fun j p node h => hscript i (j :: p) node ((hat (j :: p)).trans h)

theorem supported_of_reaches {p : Preprocessed}
    (h : Reaches (preprocessTree mode last tree) t s p t' s') :
    tree.isSupported ∧ tree ≠ .select [] := by
  constructor
  · cases tree with
    | generic tag payload | verbatim text | graph outline =>
      exact (reaches_throw.1 h).elim
    | _ => rfl
  · rintro rfl
    obtain ⟨r, u, v, harms, h⟩ := h.bind
    obtain ⟨rfl, -, -⟩ := harms.pure
    obtain ⟨_, _, _, hthrow, -⟩ := h.bind
    exact reaches_throw.1 hthrow

/-- **Which trees are preprocessed**, whatever was preprocessed before: those that are built from
the trees that scripts have, of which no selection is without arms, and no region inside without a
script that can be written.  What is preprocessed is extended only if it is to become a region, and
then something is replaced. -/
theorem preprocessTree_accepts_iff (mode : Mode) (last : Bool) (tree : Tree) (t : Traversal)
    (s : Supply) : (∃ r t' s', Reaches (preprocessTree mode last tree) t s r t' s' ∧
      (r.extends? = true → r.whole = true) ∧ (r.whole = true → r.replaced = true)) ↔
    ∀ p node, tree.at? p = some node → node.isSupported = true ∧ node ≠ .select [] ∧
      (p ≠ [] → node.isCandidate = true → ∃ script, regionText [node] none = .ok script) := by
  constructor
  · rintro ⟨r, t', s', h, -⟩ p node hat
    cases p with
    | nil =>
      obtain rfl : tree = node := by simpa [Tree.at?] using hat
      obtain ⟨hsupported, hselect⟩ := supported_of_reaches h
      exact ⟨hsupported, hselect, fun hnil => absurd rfl hnil⟩
    | cons i p =>
      obtain ⟨u, v, c, u', v', -, hclose, -⟩ := exists_closing h hat
      obtain ⟨q, w, x, hq, -⟩ := reaches_bind.1 hclose
      obtain ⟨hsupported, hselect⟩ := supported_of_reaches hq
      refine ⟨hsupported, hselect, fun _ hcandidate => ?_⟩
      rcases closing_cases hclose with ⟨-, -, hstore⟩ | ⟨hnone, -⟩
      · exact regionText_of_storeRegion hstore
      · cases hcandidate.symm.trans hnone
  · intro h
    have hgives : Gives (preprocessTree mode last tree) :=
      gives_preprocessTree tree (fun p node hat => ⟨(h p node hat).1, (h p node hat).2.1⟩)
        fun i p node hat => (h (i :: p) node hat).2.2 (List.cons_ne_nil _ _)
    obtain ⟨r, t', s', hr⟩ := hgives t s
    obtain ⟨hwhole, hextends, hreplaced⟩ := preprocessTree_flags hr
    refine ⟨r, t', s', hr, fun hr => ?_, hreplaced⟩
    rw [hwhole]
    exact Tree.isCandidate_of_isBackground (hextends ▸ hr)

/-- A selection without arms is not preprocessed. -/
theorem preprocessTree_select_nil_fails : (Tree.select []).isSupported = true ∧
    ¬ ∃ r t' s', Reaches (preprocessTree .direct false (.select [])) {} {} r t' s' := by
  refine ⟨rfl, ?_⟩
  rintro ⟨r, t', s', h⟩
  exact (supported_of_reaches h).2 rfl

end ShellFlow
