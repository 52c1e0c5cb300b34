import ShellFlow.Compile.Tree
import ShellFlow.Proofs.Graph.Uniting

/-!
# Trees that become graphs

Only a command, a pipeline and a scope can become a graph, and everything that is compiled draws
numbers for its own nodes and channels.  What holds of all graphs of trees is shown by induction
over how a tree becomes its graph.
-/

namespace ShellFlow

open List

/-! ### Drawing numbers -/

/-- Between two numberings, numbers of channels and nodes were drawn. -/
structure Drawn (s : ChannelSource) (t : Supply) (s' : ChannelSource) (t' : Supply) : Prop where
  channels : s.next ≤ s'.next
  nodes : t.nextNode ≤ t'.nextNode

theorem Drawn.refl (s : ChannelSource) (t : Supply) : Drawn s t s t :=
    ⟨Int.le_refl _, Nat.le_refl _⟩

theorem Drawn.trans {s s₁ s' : ChannelSource} {t t₁ t' : Supply} (h : Drawn s t s₁ t₁)
    (h' : Drawn s₁ t₁ s' t') : Drawn s t s' t' :=
  ⟨Int.le_trans h.channels h'.channels, Nat.le_trans h.nodes h'.nodes⟩

/-- A compilation draws numbers. -/
def Draws {α : Type} (x : Compile α) : Prop :=
  ∀ s t a s' t', Yields (x s) t (a, s') t' → Drawn s t s' t'

section Draws

variable {α β : Type}

theorem draws_pure (a : α) : Draws (pure a) := by
  intro s t b s' t' h
  obtain ⟨-, rfl, rfl⟩ := h.pure_pair
  exact Drawn.refl s t

theorem draws_lift (x : Except Fault α) : Draws (Compile.lift x) := by
  intro s t b s' t' h
  obtain ⟨a, -, h⟩ := h.lift_bind
  exact draws_pure a s t b s' t' h

theorem draws_bind {x : Compile α} {f : α → Compile β} (hx : Draws x) (hf : ∀ a, Draws (f a)) :
    Draws (x >>= f) := by
  intro s t b s' t' h
  obtain ⟨⟨a, s₁⟩, t₁, ha, h⟩ := h.bind
  exact (hx s t a s₁ t₁ ha).trans (hf a s₁ t₁ b s' t' h)

end Draws

/-- A computation can have a result, with some numbering. -/
def CompilesTo {α : Type} (x : Compile α) (a : α) : Prop := ∃ s t s' t', Yields (x s) t (a, s') t'

/-- Numbers between two bounds, each once. -/
structure Fresh (a : Int) (ks : List Int) (b : Int) : Prop where
  nodup : ks.Nodup
  drawn : ∀ k ∈ ks, a ≤ k ∧ k < b

section Fresh

variable {a b c : Int} {ks ks' : List Int}

theorem Fresh.nil (a b : Int) : Fresh a [] b := ⟨nodup_nil, by simp⟩

/-- Numbers that were drawn later are different. -/
theorem Fresh.append (h : Fresh a ks b) (h' : Fresh b ks' c) (hle : a ≤ b) (hle' : b ≤ c) :
    Fresh a (ks ++ ks') c := by
  constructor
  · refine nodup_append.2 ⟨h.nodup, h'.nodup, ?_⟩
    rintro k hk _ hk' rfl
    have hbefore := (h.drawn k hk).2
    have hbehind := (h'.drawn k hk').1
    omega
  · intro k hk
    rcases mem_append.1 hk with hk | hk
    · have hdrawn := h.drawn k hk
      omega
    · have hdrawn := h'.drawn k hk
      omega

end Fresh

/-! ### The graph of a command -/

namespace CommandForm

def invocation (f : CommandForm) (input output : Int) : Invocation :=
  .ofAccess f.name (f.settings.map Setting.toFlag) (f.operands.map .literal) (some input)
    (some output)
    (.ofList [(input, .streamInput), (output, .streamOutput)])

def node (f : CommandForm) (redirections : List FileRedirection) (input output id : Int) :
    Node where
  id := id
  invocation := f.invocation input output
  redirections := redirections

variable (s : ChannelSource)

/-- The next channel, as standard input. -/
def stdinOf : Channel Int := (s.freshFor (.descriptor (.int 0))).1

/-- The channel behind the next, as standard output. -/
def stdoutOf : Channel Int := (s.fresh.2.freshFor (.descriptor (.int 1))).1

/-- The numbering behind the two channels of a command. -/
def behind : ChannelSource := s.fresh.2.fresh.2

theorem next_behind : (behind s).next = s.next + 1 + 1 := rfl

/-- The two channels of a command, while no node reads or writes them. -/
def channels : Table Int Edge :=
  .ofList [(s.next, { channel := stdinOf s }), (s.next + 1, { channel := stdoutOf s })]

theorem addEach_eq_self {α : Type} {step : Connection → α → Except Fault (Connection × α)}
    {c : Connection} {as : List α} (h : ∀ a ∈ as, step c a = .ok (c, a)) :
    Connection.addEach step c as = .ok (c, as) := by
  induction as with
  | nil => rfl
  | cons a as ih =>
    obtain ⟨ha, has⟩ := forall_mem_cons.1 h
    rw [Connection.addEach, ha]
    show (Connection.addEach step c as >>= fun r => pure (r.1, a :: r.2)) = _
    rw [ih has]
    rfl

/-- Only the implicit streams of a command become edges. -/
theorem connect_eq (f : CommandForm) (s : ChannelSource) :
    connect f.name (f.settings.map Setting.toFlag) (f.operands.map .literal)
        (some (.descriptor 0 .streamInput)) (some (.descriptor 1 .streamOutput)) s =
      .ok (f.invocation s.next (s.next + 1),
        { edges := channels s
          access := .ofList [(s.next, .streamInput), (s.next + 1, .streamOutput)]
          source := behind s }) := by
  have hflags : Connection.addEach Connection.addFlag { source := s }
    (f.settings.map Setting.toFlag) =
      .ok ({ source := s }, f.settings.map Setting.toFlag) := by
    refine addEach_eq_self fun a ha => ?_
    obtain ⟨setting, -, rfl⟩ := mem_map.1 ha
    cases setting <;> rfl
  have hoperands :
    Connection.addEach Connection.addOperand { source := s } (f.operands.map Operand.literal) =
      .ok ({ source := s }, f.operands.map Operand.literal) := by
    refine addEach_eq_self fun a ha => ?_
    obtain ⟨w, -, rfl⟩ := mem_map.1 ha
    rfl
  rw [connect, hflags]
  show (Connection.addEach Connection.addOperand { source := s }
    (f.operands.map Operand.literal) >>= _) = _
  rw [hoperands]
  rfl

variable {f : CommandForm} {files : List FileRedirection} {input output new : Int}

section

variable (h : input ≠ output)
include h

theorem invocation_eq : f.invocation input output =
    { command := f.name, flags := f.settings.map Setting.toFlag, operands := f.operands.map .literal
      implicitInput := some input, implicitOutput := some output
      streaming := [input], outputs := [output] } := by
  simp [invocation, Invocation.ofAccess, Invocation.edgesWith, Table.ofList, Table.insert,
    Table.empty, Table.put, h]

theorem inputs_node (id : Int) : (f.node files input output id).inputs = [input] := by
  rw [Node.inputs, node, invocation_eq h]
  rfl

theorem outputs_node (id : Int) : (f.node files input output id).outputs = [output] := by
  rw [Node.outputs, node, invocation_eq h]

theorem node_replaceEdge (hnew : new ≠ output) (id : Int) :
    (f.node files input output id).replaceEdge input new = f.node files new output id := by
  have hliteral : ∀ o ∈ f.operands.map Operand.literal,
      (if o.edge? = some input then Operand.edge new else o) = o := by
    intro o ho
    obtain ⟨w, -, rfl⟩ := mem_map.1 ho
    exact if_neg nofun
  rw [node, node, Node.replaceEdge, invocation_eq h, invocation_eq hnew]
  simp only [Invocation.replaceEdge, Invocation.replaceIn, map_congr_left hliteral]
  simp [Ne.symm h]

end

end CommandForm

section CommandGraph

variable {form : CommandForm} {redirections : List Redirection} {s s' : ChannelSource}
  {t t' : Supply}
  {otherwise : Compile Compiled} {r : Except Fault Graph} {read : Except Fault CommandForm}

/-- **A command becomes one node between two channels of its own.** -/
theorem yields_commandGraph_iff : Yields (commandGraph form redirections s) t (r, s') t' ↔
      ∃ files, redirections.mapM checkRedirection = .ok files ∧
        r = nodeGraph (form.node files s.next (s.next + 1) t.nextNode) (CommandForm.channels s) ∧
        s' = CommandForm.behind s ∧ t' = { t with nextNode := t.nextNode + 1 } := by
  have hmade : ∀ invocation, Yields (Node.plain invocation) t { id := t.nextNode, invocation }
      { t with nextNode := t.nextNode + 1 } := fun _ => rfl
  constructor
  · intro h
    obtain ⟨made, hconnect, h⟩ := h.lift_bind
    obtain rfl := Except.ok.inj ((form.connect_eq s).symm.trans hconnect)
    obtain ⟨files, hfiles, h⟩ := h.lift_bind
    obtain ⟨n, t₁, hn, h⟩ := h.bind
    obtain ⟨rfl, rfl⟩ := hn.unique (hmade _)
    obtain ⟨rfl, rfl, rfl⟩ := h.pure_pair
    exact ⟨files, hfiles, rfl, rfl, rfl⟩
  · rintro ⟨files, hfiles, rfl, rfl, rfl⟩
    refine yields_lift_bind.2 ⟨_, form.connect_eq s, yields_lift_bind.2 ⟨files, hfiles, ?_⟩⟩
    exact yields_bind.2 ⟨_, _, hmade _, yields_pure.2 ⟨rfl, rfl⟩⟩

theorem drawn_of_commandGraph (h : Yields (commandGraph form redirections s) t (r, s') t') :
    Drawn s t s' t' := by
  obtain ⟨files, -, -, rfl, rfl⟩ := yields_commandGraph_iff.1 h
  exact ⟨by rw [CommandForm.next_behind]; omega, Nat.le_succ _⟩

/-- A command has a graph, or it is kept. -/
theorem yields_compileForm {c : Compiled}
    (h : Yields (compileForm read redirections otherwise s) t (c, s') t') :
    (∃ form g, read = .ok form ∧ c = .graph g ∧
      Yields (commandGraph form redirections s) t (.ok g, s') t') ∨
      ∃ s₁ t₁, Drawn s t s₁ t₁ ∧ Yields (otherwise s₁) t₁ (c, s') t' := by
  unfold compileForm at h
  split at h
  · exact .inr ⟨s, t, Drawn.refl s t, h⟩
  · exact absurd h (by simp [yields_throw])
  · next form =>
    obtain ⟨⟨r, s₁⟩, t₁, hmade, h⟩ := h.bind
    split at h
    · next g s₂ heq =>
      cases heq
      obtain ⟨rfl, rfl, rfl⟩ := h.pure_pair
      exact .inl ⟨form, g, rfl, rfl, hmade⟩
    · next s₂ heq =>
      cases heq
      exact .inr ⟨s₁, t₁, drawn_of_commandGraph hmade, h⟩
    · exact absurd h (by simp [yields_throw])

theorem draws_compileForm (h : Draws otherwise) :
    Draws (compileForm read redirections otherwise) := by
  intro s t c s' t' hy
  rcases yields_compileForm hy with ⟨form, g, -, -, hmade⟩ | ⟨s₁, t₁, hdrawn, hother⟩
  · exact drawn_of_commandGraph hmade
  · exact hdrawn.trans (h s₁ t₁ c s' t' hother)

end CommandGraph

/-! ### Compiling only draws numbers -/

mutual

theorem draws_compilePart : (p : Part) → Draws (compilePart p)
  | .quoted w => by
    rw [compilePart]
    exact draws_bind (draws_compileParts w) fun _ => draws_pure _
  | .substitution t => by
    rw [compilePart]
    exact draws_bind (draws_compileTree t) fun _ => draws_pure _
  | .char _ | .escaped _ | .reference _ | .tilde _ | .arith _ | .other _ => draws_pure _

theorem draws_compileParts : (w : List Part) → Draws (compileParts w)
  | [] => draws_pure _
  | p :: ps => by
    rw [compileParts]
    exact draws_bind (draws_compilePart p) fun _ => draws_bind (draws_compileParts ps) fun _ =>
      draws_pure _

theorem draws_compileWords : (ws : List (List Part)) → Draws (compileWords ws)
  | [] => draws_pure _
  | w :: ws => by
    rw [compileWords]
    exact draws_bind (draws_compileParts w) fun _ => draws_bind (draws_compileWords ws) fun _ =>
      draws_pure _

theorem draws_compileAssignments : (as : List Assignment) → Draws (compileAssignments as)
  | [] => draws_pure _
  | .mk name w :: rest => by
    rw [compileAssignments]
    exact draws_bind (draws_compileParts w) fun _ =>
      draws_bind (draws_compileAssignments rest) fun _ => draws_pure _

theorem draws_compileRedirections : (rs : List Redirection) → Draws (compileRedirections rs)
  | [] => draws_pure _
  | .mk kind mode fd w :: rest => by
    rw [compileRedirections]
    exact draws_bind (draws_compileParts w) fun _ =>
      draws_bind (draws_compileRedirections rest) fun _ => draws_pure _
  | .other v :: rest => by
    rw [compileRedirections]
    exact draws_bind (draws_compileRedirections rest) fun _ => draws_pure _

theorem draws_compileTree : (tree : Tree) → Draws (compileTree tree)
  | .command line assignments words redirections => by
    rw [compileTree]
    refine draws_bind (draws_compileAssignments assignments) fun _ =>
      draws_bind (draws_compileRedirections redirections) fun _ => ?_
    match words with
    | [] => exact draws_lift _
    | name :: arguments =>
      exact draws_bind (draws_compileWords arguments) fun _ =>
        draws_compileForm (draws_bind (draws_compileParts name) fun _ => draws_lift _)
  | .pipe background items => by
    rw [compileTree]
    exact draws_bind (draws_compileTrees items) fun _ => draws_bind (draws_lift _) fun _ =>
      draws_pure _
  | .join op l r => by
    rw [compileTree]
    exact draws_bind (draws_compileTree l) fun _ => draws_bind (draws_compileTree r) fun _ =>
      draws_pure _
  | .scope kind line t redirections => by
    rw [compileTree]
    refine draws_bind (draws_compileTree t) fun c => ?_
    cases c <;> exact draws_pure _
  | .forEach line w t name => by
    rw [compileTree]
    exact draws_bind (draws_compileParts w) fun _ => draws_bind (draws_compileTree t) fun _ =>
      draws_pure _
  | .negate _ | .define _ _ _ | .whileDo _ _ | .branch _ _ _ | .select _ | .generic _ _ | .verbatim
      _ | .graph _ => by
    rw [compileTree]
    exact draws_lift _

theorem draws_compileTrees : (trees : List Tree) → Draws (compileTrees trees)
  | [] => draws_pure _
  | t :: ts => by
    rw [compileTrees]
    exact draws_bind (draws_compileTree t) fun _ => draws_bind (draws_compileTrees ts) fun _ =>
      draws_pure _

end

/-! ### How a tree becomes a graph -/

mutual

/-- How a tree becomes a graph, from one numbering to another. -/
inductive Becomes : Tree → ChannelSource → Supply → Graph → ChannelSource → Supply → Prop
  | command {line : Value} {assignments : List Assignment} {name : Word}
      {arguments arguments' : List Word} {redirections redirections' : List Redirection}
      {form : CommandForm} {g : Graph} {s s₁ s' : ChannelSource}
      {t t₁ t' : Supply} (words : CompilesTo (compileWords arguments) arguments')
      (targets : CompilesTo (compileRedirections redirections) redirections')
      (drawn : Drawn s t s₁ t₁) (read : CommandForm.read name arguments' = .ok form)
      (made : Yields (commandGraph form redirections' s₁) t₁ (.ok g, s') t') :
      Becomes (.command line assignments (name :: arguments) redirections) s t g s' t'
  | pipe {background : Value} {items : List Tree} {gs : List Graph} {g : Graph}
      {s s' : ChannelSource} {t t' : Supply} (parts : BecomeAll items s t gs s' t')
      (joined : Graph.pipeline (gs.map some) = .ok g) :
      Becomes (.pipe background items) s t { g with background := background.truthy } s' t'
  | scope {kind : Scope} {line : Value} {body : Tree} {redirections : List Redirection} {g : Graph}
      {s s' : ChannelSource} {t t' : Supply} (inner : Becomes body s t g s' t') :
      Becomes (.scope kind line body redirections) s t
        (if kind = .background then { g with background := true } else g)
        s' t'

/-- How some trees become graphs, one after the other. -/
inductive BecomeAll : List Tree → ChannelSource → Supply → List Graph → ChannelSource →
    Supply → Prop
  | nil {s : ChannelSource} {t : Supply} : BecomeAll [] s t [] s t
  | cons {tree : Tree} {trees : List Tree} {g : Graph} {gs : List Graph} {s s₁ s' : ChannelSource}
      {t t₁ t' : Supply} (first : Becomes tree s t g s₁ t₁)
      (rest : BecomeAll trees s₁ t₁ gs s' t') : BecomeAll (tree :: trees) s t (g :: gs) s' t'

end

theorem exists_graphs_of_pipeline {parts : List (Option Graph)} {g : Graph}
    (h : Graph.pipeline parts = .ok g) : ∃ gs : List Graph, parts = gs.map some := by
  have hmore : ∀ (parts : List (Option Graph)) (acc g : Graph),
      parts.foldlM (fun acc h => do acc.pipeAppend (← Graph.pure? h)) acc = .ok g →
        ∃ gs : List Graph, parts = gs.map some := by
    intro parts
    induction parts with
    | nil => exact fun _ _ _ => ⟨[], rfl⟩
    | cons part _ ih =>
      intro acc g h
      obtain ⟨joined, hjoined, h⟩ := bind_eq_ok.1 h
      obtain ⟨gs, rfl⟩ := ih joined g h
      cases part with
      | none => cases hjoined
      | some first => exact ⟨first :: gs, rfl⟩
  cases parts with
  | nil => cases h
  | cons part parts =>
    obtain ⟨first, hfirst, h⟩ := bind_eq_ok.1 h
    obtain ⟨gs, rfl⟩ := hmore parts first g h
    cases part with
    | none => cases hfirst
    | some first => exact ⟨first :: gs, rfl⟩

mutual

/-- **Whatever is compiled to a graph becomes it in one of these ways.** -/
theorem becomes_of_yields :
    (tree : Tree) → ∀ {s : ChannelSource} {t : Supply} {g : Graph} {s' : ChannelSource}
    {t' : Supply}, Yields (compileTree tree s) t (.graph g, s') t' → Becomes tree s t g s' t'
  | .command line assignments words redirections, s, t, g, s', t', h => by
    rw [compileTree] at h
    obtain ⟨⟨assignments', s₁⟩, t₁, hassignments, h⟩ := h.bind
    obtain ⟨⟨redirections', s₂⟩, t₂, hredirections, h⟩ := h.bind
    have hdrawn := (draws_compileAssignments _ _ _ _ _ _ hassignments).trans
      (draws_compileRedirections _ _ _ _ _ _ hredirections)
    match words with
    | [] =>
      obtain ⟨_, hno, -⟩ := h.lift_bind
      cases hno
    | name :: arguments =>
      obtain ⟨⟨arguments', s₃⟩, t₃, harguments, h⟩ := h.bind
      rcases yields_compileForm h with ⟨form, g', hread, heq, hmade⟩ | ⟨s₄, t₄, -, h⟩
      · obtain rfl := Compiled.graph.inj heq
        exact .command ⟨_, _, _, _, harguments⟩ ⟨_, _, _, _, hredirections⟩
          (hdrawn.trans (draws_compileWords _ _ _ _ _ _ harguments)) hread hmade
      -- a command that is kept is no graph
      · obtain ⟨⟨name', s₅⟩, t₅, -, h⟩ := h.bind
        obtain ⟨c, hkept, h⟩ := h.lift_bind
        obtain ⟨rfl, -, -⟩ := h.pure_pair
        unfold keepCommand at hkept
        split at hkept <;> cases hkept
  | .pipe background items, s, t, g, s', t', h => by
    obtain ⟨⟨cs, s₁⟩, t₁, hitems, h⟩ := h.bind
    obtain ⟨⟨joined, s₂⟩, t₂, hjoined, h⟩ := h.bind
    obtain ⟨_, hpipeline, hjoined⟩ := hjoined.lift_bind
    obtain ⟨rfl, rfl, rfl⟩ := hjoined.pure_pair
    obtain ⟨hgraph, rfl, rfl⟩ := h.pure_pair
    obtain rfl := Compiled.graph.inj hgraph
    obtain ⟨gs, hgs⟩ := exists_graphs_of_pipeline hpipeline
    exact .pipe (becomeAll_of_yields items hitems hgs) (hgs ▸ hpipeline)
  | .scope kind line body redirections, s, t, g, s', t', h => by
    obtain ⟨⟨c, s₁⟩, t₁, hbody, h⟩ := h.bind
    cases c with
    | graph =>
      obtain ⟨hgraph, rfl, rfl⟩ := h.pure_pair
      obtain rfl := Compiled.graph.inj hgraph
      exact .scope (becomes_of_yields body hbody)
    | tree =>
      obtain ⟨heq, -⟩ := h.pure
      cases (Prod.mk.inj heq).1
  | .join _ _ _, s, t, g, s', t', h | .forEach _ _ _ _, s, t, g, s', t', h => by
    obtain ⟨_, _, -, h⟩ := h.bind
    obtain ⟨_, _, -, h⟩ := h.bind
    obtain ⟨heq, -⟩ := h.pure
    cases (Prod.mk.inj heq).1
  | .negate _, s, t, g, s', t', h | .define _ _ _, s, t, g, s', t', h | .whileDo _ _, s, t,
      g, s', t', h
  | .branch _ _ _, s, t, g, s', t', h | .select _, s, t, g, s', t', h | .generic _ _, s, t,
      g, s', t', h
  | .verbatim _, s, t, g, s', t', h | .graph _, s, t, g, s', t', h => by
    obtain ⟨_, hno, -⟩ := h.lift_bind
    cases hno

/-- Trees that are all compiled to graphs become them one after the other. -/
theorem becomeAll_of_yields :
    (trees : List Tree) → ∀ {s : ChannelSource} {t : Supply} {cs : List Compiled}
    {gs : List Graph} {s' : ChannelSource} {t' : Supply}, Yields (compileTrees trees s) t
    (cs, s') t' → cs.map Compiled.graph? = gs.map some → BecomeAll trees s t gs s' t'
  | [], s, t, cs, gs, s', t', h, hgs => by
    obtain ⟨rfl, rfl, rfl⟩ := h.pure_pair
    obtain rfl := map_eq_nil_iff.1 hgs.symm
    exact .nil
  | tree :: trees, s, t, cs, gs, s', t', h, hgs => by
    obtain ⟨⟨c, s₁⟩, t₁, htree, h⟩ := h.bind
    obtain ⟨⟨cs', s₂⟩, t₂, htrees, h⟩ := h.bind
    obtain ⟨rfl, rfl, rfl⟩ := h.pure_pair
    obtain ⟨g, gs', rfl, hg, hgs'⟩ := map_eq_cons_iff.1 hgs.symm
    cases c with
    | tree => cases hg
    | graph =>
      cases hg
      exact .cons (becomes_of_yields tree htree) (becomeAll_of_yields trees htrees hgs'.symm)

end

mutual

theorem Becomes.drawn {tree : Tree} {s s' : ChannelSource} {t t' : Supply} {g : Graph} :
    Becomes tree s t g s' t' → Drawn s t s' t'
  | .command _ _ drawn _ made => drawn.trans (drawn_of_commandGraph made)
  | .pipe parts _ => parts.drawn
  | .scope body => body.drawn

theorem BecomeAll.drawn {trees : List Tree} {s s' : ChannelSource} {t t' : Supply}
    {gs : List Graph} : BecomeAll trees s t gs s' t' → Drawn s t s' t'
  | .nil => Drawn.refl _ _
  | .cons first rest => first.drawn.trans rest.drawn

end

/-! ### Numbers of the nodes -/

/-- A graph with nodes, filed under numbers that were drawn between two numberings. -/
structure Graph.Numbered (t : Supply) (g : Graph) (t' : Supply) : Prop where
  filed : g.Filed
  nonempty : g.nodes.keys ≠ []
  fresh : ShellFlow.Fresh t.nextNode g.nodes.keys t'.nextNode

theorem Graph.Numbered.pipeAppend {t t₁ t' : Supply} {g g' u : Graph} (hg : g.Numbered t t₁)
    (hg' : g'.Numbered t₁ t') (hle : t.nextNode ≤ t₁.nextNode) (hle' : t₁.nextNode ≤ t'.nextNode)
    (h : g.pipeAppend g' = .ok u) : u.Numbered t t' := by
  have hfresh := hg.fresh.append hg'.fresh (Int.ofNat_le.2 hle) (Int.ofNat_le.2 hle')
  obtain ⟨hkeys, hfiled⟩ := Graph.keys_pipeAppend hg.filed hg'.filed hfresh.nodup h
  refine ⟨hfiled, ?_, hkeys ▸ hfresh⟩
  rw [hkeys]
  exact append_ne_nil_of_left_ne_nil hg.nonempty _

mutual

/-- **Every graph of a tree has nodes, with numbers of their own.** -/
theorem Becomes.numbered {tree : Tree} {s s' : ChannelSource} {t t' : Supply} {g : Graph} :
    Becomes tree s t g s' t' → g.Numbered t t'
  | .command _ _ drawn _ made => by
    obtain ⟨files, -, hgraph, rfl, rfl⟩ := yields_commandGraph_iff.1 made
    obtain ⟨hkeys, hfiled⟩ := Graph.nodeGraph_numbers hgraph.symm
    refine ⟨hfiled, by rw [hkeys]; exact cons_ne_nil _ _, ?_⟩
    have hnodes := drawn.nodes
    rw [hkeys]
    refine ⟨nodup_singleton _, fun k hk => ?_⟩
    obtain rfl := mem_singleton.1 hk
    simp only [CommandForm.node]
    omega
  | .pipe .nil joined => nomatch joined
  | .pipe (.cons first rest) joined => by
    obtain ⟨hfiled, hnonempty, hfresh⟩ := rest.numbered first.drawn.nodes first.numbered joined
    exact ⟨hfiled, hnonempty, hfresh⟩
  | .scope inner => by
    obtain ⟨hfiled, hnonempty, hfresh⟩ := inner.numbered
    split <;> exact ⟨hfiled, hnonempty, hfresh⟩

/-- Piping the graphs of trees keeps their nodes. -/
theorem BecomeAll.numbered {trees : List Tree} {s s' : ChannelSource} {t₀ t t' : Supply}
    {gs : List Graph} {front g : Graph} : BecomeAll trees s t gs s' t' → t₀.nextNode ≤ t.nextNode →
    front.Numbered t₀ t →
    (gs.map some).foldlM (fun acc h => do acc.pipeAppend (← Graph.pure? h)) front = .ok g →
    g.Numbered t₀ t'
  | .nil, _, hfront, h => by
    cases h
    exact hfront
  | .cons first rest, hle, hfront, h => by
    obtain ⟨joined, hjoined, h⟩ := bind_eq_ok.1 h
    exact rest.numbered (Nat.le_trans hle first.drawn.nodes)
      (hfront.pipeAppend first.numbered hle first.drawn.nodes hjoined) h

end

end ShellFlow
