import ShellFlow.Proofs.Compile.Carrying
import ShellFlow.Proofs.Compile.Reading
import ShellFlow.Proofs.Graph.Pipelines
import ShellFlow.Proofs.Lists

/-!
# Pipelines that are compiled to themselves

A command of flags and operands becomes a stage between two edges that are numbered one after the
other.  A pipeline of such commands becomes a chain of them, and the script of the chain is the
pipeline again, over named pipes.
-/

namespace ShellFlow

open List

/-! ### Stages of commands -/

namespace CommandForm

variable (f : CommandForm) (s : ChannelSource) (fs : List CommandForm) (id : Int)

/-- The stage of a command, between the next two channels. -/
def stage : Stage :=
  .ofNode (f.node [] s.next (s.next + 1) id) (stdinOf s) (stdoutOf s)

/-- The stages of commands, numbered in turn. -/
def stages : List CommandForm → ChannelSource → Int → List Stage
  | [], _, _ => []
  | f :: fs, s, id => f.stage s id :: stages fs (behind s) (id + 1)

theorem stage_sound : (f.stage s id).Sound := by
  have hne : s.next ≠ s.next + 1 := by omega
  exact Stage.ofNode_sound (inputs_node hne id) (outputs_node hne id) hne rfl rfl

theorem exists_of_mem_stages {fs : List CommandForm} {s : ChannelSource} {id : Int} {r : Stage}
    (h : r ∈ stages fs s id) : ∃ (f : CommandForm) (s' : ChannelSource) (id' : Int), r =
      f.stage s' id' ∧ s.next ≤ s'.next ∧ id ≤ id' := by
  induction fs generalizing s id with
  | nil => cases h
  | cons f fs ih =>
    rcases mem_cons.1 h with rfl | h
    · exact ⟨f, s, id, rfl, le_refl _, le_refl _⟩
    · obtain ⟨f', s', id', hr, hnext, hid⟩ := ih h
      rw [next_behind] at hnext
      exact ⟨f', s', id', hr, by omega, by omega⟩

theorem stages_sound (s : ChannelSource) (id : Int) : ∀ r ∈ stages fs s id, r.Sound := by
  intro r hr
  obtain ⟨f, s', id', rfl, -⟩ := exists_of_mem_stages hr
  exact f.stage_sound s' id'

theorem stages_apart (s : ChannelSource) (id : Int) :
    (stages fs s id).Pairwise Stage.Apart := by
  induction fs generalizing s id with
  | nil => exact List.Pairwise.nil
  | cons f fs ih =>
    refine pairwise_cons.2 ⟨fun r hr => ?_, ih (behind s) (id + 1)⟩
    obtain ⟨f', s', id', rfl, hnext, hid⟩ := exists_of_mem_stages hr
    rw [next_behind] at hnext
    refine Stage.ofNode_apart ?_ ?_ ⟨rfl, rfl⟩
    · show id ≠ id'
      omega
    · show [s.next, s.next + 1].Disjoint [s'.next, s'.next + 1]
      simp
      omega

theorem nodeGraph_eq :
    nodeGraph (f.node [] s.next (s.next + 1) id) (channels s) = .ok (f.stage s id).graph := by
  have hne : s.next ≠ s.next + 1 := by omega
  have hsound := f.stage_sound s id
  obtain ⟨g₁, htargets, hsources⟩ := @CommandChain.connected_fresh f [] s id
  rw [nodeGraph, inputs_node hne, outputs_node hne]
  exact bind_eq_ok.2 ⟨g₁, htargets, bind_eq_ok.2 ⟨(f.stage s id).graph, hsources,
    Graph.combineCommonFiles_eq_self hsound.tidy (Graph.valid_iff.1 hsound.valid).2.1
      hsound.unshared⟩⟩

theorem yields_commandGraph (t : Supply) :
    Yields (commandGraph f [] s) t (.ok (f.stage s t.nextNode).graph, behind s)
      { t with nextNode := t.nextNode + 1 } :=
  yields_commandGraph_iff.2 ⟨[], rfl, (f.nodeGraph_eq s t.nextNode).symm, rfl, rfl⟩

/-- A command has no option with an argument. -/
def OnlyFlags : Prop := ∃ names : List String, f.settings = names.map .flag

theorem words_of_onlyFlags {f : CommandForm} (h : f.OnlyFlags) (channel : ChannelLookup)
    (input output : Int) :
    (f.invocation input output).words channel = .ok (Word.ofString f.name :: f.words) := by
  obtain ⟨names, hnames⟩ := h
  have hflags : (f.settings.map Setting.toFlag).mapM (Flag.toWords channel) =
      .ok (f.settings.map Setting.words) := by
    rw [Except.mapM_eq_ok_iff, hnames, map_map, map_map, List.forall₂_map_left_iff,
      List.forall₂_map_right_iff, List.forall₂_same]
    exact fun _ _ => rfl
  have hoperands : (f.operands.map Operand.literal).mapM (Operand.toWord channel) =
      .ok f.operands := by
    rw [Except.mapM_eq_ok_iff, List.forall₂_map_left_iff, List.forall₂_same]
    exact fun _ _ => rfl
  exact bind_eq_ok.2 ⟨_, hflags, bind_eq_ok.2 ⟨_, hoperands, rfl⟩⟩

end CommandForm

/-! ### Plain commands -/

/-- A command of a name in plain characters and of words that are written out, none of which is an
option with an argument. -/
structure PlainCommand where
  line : Value
  name : Word
  arguments : List Word
  name_plain : name.all Part.isPlain
  written : ∀ w ∈ arguments, Word.isWritten w
  no_option : readsOption arguments = false

namespace PlainCommand

variable {cs : List PlainCommand} {fs : List CommandForm} (c : PlainCommand)

def tree : Tree := .command c.line [] (c.name :: c.arguments) []

/-- A command has a form of flags only. -/
structure Reads (c : PlainCommand) (f : CommandForm) : Prop where
  read : CommandForm.read c.name c.arguments = .ok f
  onlyFlags : f.OnlyFlags
  words : Word.ofString f.name :: f.words = c.name :: splitBundles c.arguments

theorem exists_reads : ∃ f, c.Reads f := by
  obtain ⟨text, htext, hword⟩ := Word.exists_format_of_isPlain c.name_plain
  obtain ⟨flags, operands, hread, hsplit⟩ := readSettings_eq c.written c.no_option
  refine ⟨⟨text, flags.map .flag, operands⟩, ?_, ⟨flags, rfl⟩, ?_⟩
  · rw [CommandForm.read, htext, hread]
    rfl
  · rw [← hsplit, ← hword, CommandForm.words, flatMap_map]
    exact congrArg (fun ws => _ :: (ws ++ operands)) (map_eq_flatMap ..).symm

theorem yields_compileTree {c : PlainCommand} {f : CommandForm} (h : c.Reads f) (s : ChannelSource)
    (t : Supply) :
      Yields (compileTree c.tree s) t (.graph (f.stage s t.nextNode).graph, CommandForm.behind s)
      { t with nextNode := t.nextNode + 1 } := by
  rw [tree, compileTree]
  simp only [compileAssignments, compileRedirections, compileWords_of_isWritten c.written,
    pure_bind, h.read]
  exact yields_bind.2 ⟨_, _, f.yields_commandGraph s t, yields_pure.2 ⟨rfl, rfl⟩⟩

theorem exists_stages (cs : List PlainCommand) (s : ChannelSource) (t : Supply) :
    ∃ fs s' t', fs.length = cs.length ∧ Yields (compileTrees (cs.map tree) s) t
      ((CommandForm.stages fs s t.nextNode).map fun r => Compiled.graph r.graph, s') t' := by
  induction cs generalizing s t with
  | nil => exact ⟨[], s, t, rfl, yields_pure.2 ⟨rfl, rfl⟩⟩
  | cons c _ ih =>
    obtain ⟨f, hf⟩ := c.exists_reads
    obtain ⟨fs, s', t', hlength, hrest⟩ :=
      ih (CommandForm.behind s) { t with nextNode := t.nextNode + 1 }
    refine ⟨f :: fs, s', t', congrArg Nat.succ hlength, ?_⟩
    rw [map_cons, compileTrees]
    exact yields_bind.2 ⟨_, _, yields_compileTree hf s t,
      yields_bind.2 ⟨_, _, hrest, yields_pure.2 ⟨rfl, rfl⟩⟩⟩

theorem allCommandsIn_map_tree (cs : List PlainCommand) : Tree.allCommandsIn [] (cs.map tree) =
    cs.map fun c =>
    { assignments := [], name := c.name, arguments := c.arguments, redirections := [],
      around := [] } := by
  induction cs with
  | nil => rfl
  | cons _ _ ih =>
    rw [map_cons, Tree.allCommandsIn, ih]
    rfl

/-- **A pipeline of plain commands becomes a chain of these commands.** -/
theorem exists_chain (cs : List PlainCommand) (background : Value) (s : ChannelSource)
    (t : Supply) : ∃ (chain : CommandChain) (s' : ChannelSource) (t' : Supply),
      Yields (compileTree (.pipe background ((c :: cs).map tree)) s) t
      (.graph (chain.graph background.truthy), s') t' ∧
      chain.Sound ∧ List.Forall₂ (fun c l => c.Reads l.form ∧ l.files = [])
      (c :: cs) chain.links := by
  obtain ⟨fs, s', t', hlength, htrees⟩ := exists_stages (c :: cs) s t
  obtain ⟨f, fs, rfl⟩ := exists_cons_of_length_eq_add_one hlength
  obtain ⟨whole, hpipeline, hwhole⟩ : ∃ whole : Stage,
      Graph.pipeline (Stage.graphs (CommandForm.stages (f :: fs) s t.nextNode)) = .ok whole.graph ∧
        whole.Sound := by
    obtain ⟨hpipeline, hcomposes⟩ :=
      Stage.pipeline_eq (CommandForm.stages_sound (f :: fs) s t.nextNode)
      (CommandForm.stages_apart (f :: fs) s t.nextNode)
    exact ⟨_, hpipeline, hcomposes.sound⟩
  have hcompile : Yields (compileTree (.pipe background ((c :: cs).map tree)) s) t
      (.graph { whole.graph with background := background.truthy }, s') t' := by
    rw [compileTree]
    refine yields_bind.2
      ⟨_, t', htrees, yields_bind.2 ⟨(whole.graph, s'), t', ?_, yields_pure.2 ⟨rfl, rfl⟩⟩⟩
    refine yields_lift_bind.2 ⟨whole.graph, ?_, yields_pure.2 ⟨rfl, rfl⟩⟩
    rw [map_map]
    exact hpipeline
  rcases (becomes_of_yields _ hcompile).strung [] with hsevered | ⟨chain, hsound, hg, -, -, hlinks⟩
  · -- standard input enters a pipeline
    obtain ⟨e, he, -⟩ := hwhole.stdin_edge
    have hstdin := (hsevered e (Table.mem_values_of_get? he)).1
    rw [(hwhole.stdin_iff _ e he).2 rfl] at hstdin
    cases hstdin
  · refine ⟨chain, s', t', hg ▸ hcompile, hsound, ?_⟩
    rw [Tree.commandsIn, allCommandsIn_map_tree, List.forall₂_map_left_iff] at hlinks
    refine hlinks.imp fun c l hl => ⟨?_, List.forall₂_nil_left_iff.1 hl.files⟩
    obtain ⟨arguments, ⟨s₀, t₀, s₁, t₁, hcompiled⟩, hread⟩ := hl.read
    rw [compileWords_of_isWritten c.written] at hcompiled
    obtain ⟨rfl, -, -⟩ := hcompiled.pure_pair
    obtain ⟨f, hf⟩ := c.exists_reads
    exact Except.ok.inj (hf.read.symm.trans hread) ▸ hf

end PlainCommand

/-! ### The script of a pipeline -/

/-- The commands of a pipeline over some pipes: each reads one pipe and writes the next, and the
last writes standard output. -/
def chained : List (List Word) → List Word → List Tree
  | words :: commands, input :: pipes =>
    .command 0 [] words (.inputFrom input :: (pipes.head?.map .outputTo).toList) ::
      chained commands pipes
  | _, _ => []

theorem Graph.exists_yields_channelSource {g : Graph} {i : Int} {e : Edge} (h : g.edge? i = some e)
    (t : Supply) : ∃ s t', Yields g.channelSource t s t' := by
  obtain ⟨last, hlast⟩ : ∃ last, g.lastEdge = .ok last := by
    have hkey : i ∈ g.edges.keys := Table.mem_keys_of_get? h
    unfold Graph.lastEdge
    split
    · next hnil =>
      rw [hnil] at hkey
      cases hkey
    · exact ⟨_, rfl⟩
  exact ⟨_, _, yields_lift_bind.2 ⟨last, hlast, rfl⟩⟩

theorem Channel.isSome_of_isStandard {c : Channel Int} {write : Bool} (h : isStandard write c) :
    c.resource.isSome := by
  cases write with
  | false | true => exact Option.isSome_of_any h

namespace CommandChain

variable {c : CommandChain} {b : Bool} {g : Graph} (l : Link)

def wordsOf : List Word := Word.ofString l.form.name :: l.form.words

def pipeNames (ls : List Link) : List Word := (between l ls).map fun e => e.2.channel.pipeWord

theorem length_pipeNames (ls : List Link) : (pipeNames l ls).length = ls.length := by
  have hlength := congrArg List.length (@map_fst_between l ls)
  simpa [pipeNames] using hlength

theorem ident_of_mem_between {l : Link} {ls : List Link} {e : Int × Edge}
    (h : ∀ m ∈ l :: ls, m.channel.ident = m.output) (he : e ∈ between l ls) :
    e.2.channel.ident = e.1 := by
  induction ls generalizing l with
  | nil => cases he
  | cons _ _ ih =>
    obtain ⟨hl, hls⟩ := forall_mem_cons.1 h
    rcases mem_cons.1 he with rfl | he
    · exact hl
    · exact ih hls he

theorem Wired.nodup_pipeNames (hc : c.Wired) : (pipeNames c.first c.rest).Nodup := by
  have hnumbers := (nodup_cons.1 hc.numbers).2
  rw [links, ← map_fst_between] at hnumbers
  refine pairwise_map.2 ((pairwise_map.1 (nodup_append.1 hnumbers).1).imp_of_mem ?_)
  intro e e' he he' hne hword
  refine hne ?_
  rw [← ident_of_mem_between hc.named he, ← ident_of_mem_between hc.named he',
    Channel.ident_of_pipeWord hword]

theorem nodeTree_of_onlyFlags {l : Link} {i : Int} {d : Channel Int} {rs : List Redirection}
    (hl : l.form.OnlyFlags) (hi : g.channel i = .ok d) (hd : d.isEphemeral)
    (hout : Invocation.streamRedirection g.channel (some l.output) Channel.isStdout .outputTo =
      .ok rs) :
    g.nodeTree false (l.node i) =
      .ok (.command 0 [] (wordsOf l) (.inputFrom d.pipeWord :: rs)) := by
  have hstdin : Invocation.streamRedirection g.channel (some i) Channel.isStdin .inputFrom =
      .ok [.inputFrom d.pipeWord] := by
    refine bind_eq_ok.2 ⟨d, hi, ?_⟩
    rw [(Channel.not_standard_of_isEphemeral hd).1]
    exact bind_eq_ok.2 ⟨_, Channel.toWord_of_isEphemeral hd false, rfl⟩
  exact bind_eq_ok.2 ⟨_, CommandForm.words_of_onlyFlags hl g.channel i l.output,
    bind_eq_ok.2 ⟨_, hstdin,
    bind_eq_ok.2 ⟨_, hout, rfl⟩⟩⟩

/-- From some edge on, the nodes of a chain become the commands of a pipeline. -/
theorem forall₂_nodeTree {l : Link} {ls : List Link} {i : Int} {d : Channel Int}
    (hi : g.channel i = .ok d) (hd : d.isEphemeral) (hflags : ∀ m ∈ l :: ls, m.form.OnlyFlags)
    (hedges : ∀ e ∈ between l ls ++ [exitOf (lastOf l ls)], g.edge? e.1 = some e.2)
    (hlast : (lastOf l ls).channel.isStdout) :
    List.Forall₂ (fun n e => g.nodeTree false n.2 = .ok e) (nodesFrom i (l :: ls))
      (chained ((l :: ls).map wordsOf) (d.pipeWord :: pipeNames l ls)) := by
  induction ls generalizing l i d with
  | nil =>
    have ho := Graph.channel_of_edge (hedges (exitOf l) mem_cons_self)
    refine .cons (nodeTree_of_onlyFlags (hflags l mem_cons_self) hi hd (bind_eq_ok.2 ⟨_, ho, ?_⟩))
      .nil
    exact if_pos hlast
  | cons m _ ih =>
    obtain ⟨hl, hls⟩ := forall_mem_cons.1 hflags
    have ho := Graph.channel_of_edge (hedges (pipe l m) mem_cons_self)
    exact .cons (nodeTree_of_onlyFlags hl hi hd (bind_eq_ok.2 ⟨_, ho, rfl⟩))
      (ih ho rfl hls (fun e he => hedges e (mem_cons_of_mem _ he)) hlast)

theorem resourced (hfirst : c.channel.resource.isSome) (hlast : c.last.channel.resource.isSome) :
    (c.graph b).Resourced := by
  intro e he
  obtain ⟨p, hp, rfl⟩ := mem_map.1 he
  rcases (mem_edges (c := c)).1 hp with rfl | hp | rfl
  · exact hfirst
  · exact Option.isSome_of_mem (Channel.isEphemeral_iff.1 (mem_between hp).1)
  · exact hlast

/-- **The script of a chain of plain commands is the pipeline of these commands**, over pipes of its
own. -/
theorem Sound.exists_emit (hc : c.Sound) (hplain : ∀ l ∈ c.links, l.form.OnlyFlags ∧ l.files = [])
    {termination : Termination} (hdrain : termination ≠ .drain) (b : Bool) (logFile : Option String)
    (t : Supply) :
      ∃ g' script t' input, Yields ((c.graph b).emit termination logFile) t (g', script) t' ∧
      (input :: pipeNames c.first c.rest).Nodup ∧
      Script.started script =
      (chained (c.links.map wordsOf) (input :: pipeNames c.first c.rest)).map
        (fun command => (command, some collectProcess)) ∧
      ∀ w, Graph.stdinCall w ∈ script ↔ w = input := by
  have hstandard : ∀ {files : List FileRedirection} {write : Bool} {d : Channel Int},
      Shows files write d →
      files = [] → isStandard write d = true := by
    rintro files write d h rfl
    refine h.standard_or_file.resolve_right ?_
    rintro ⟨r, hr, -⟩
    cases hr
  have hstdin : isStandard false c.channel = true :=
    hstandard hc.reads (hplain c.first mem_cons_self).2
  have hstdout : isStandard true c.last.channel = true :=
    hstandard (hc.writes c.last c.last_mem) (hplain c.last c.last_mem).2
  have hentry : (c.graph b).edge? c.input = some c.entry.2 := hc.edge_iff.2 mem_cons_self
  obtain ⟨s, t', hs⟩ := Graph.exists_yields_channelSource hentry t
  -- standard input goes behind a pipe with a number of its own
  let d : CommandChain := { c with channel := s.freshEphemeral.1 }
  have hd : d.Wired := ⟨hc.numbers, hc.ids, hc.named, hc.writes, hc.led⟩
  have hredirect : (c.graph b).redirectStdin s =
      .ok (d.graph b, [Graph.stdinCall d.channel.pipeWord]) := by
    refine Graph.redirectStdin_eq_ok.2
      (.inr ⟨c.input, c.entry.2, Graph.stdinEdge_eq_ok.2 ⟨?_, ?_⟩, hentry,
      (c.putEdge_entry b _).symm, rfl⟩)
    · exact resourced (Channel.isSome_of_isStandard hstdin) (Channel.isSome_of_isStandard hstdout)
    · have hexit : c.last.channel.isStdin = false := (hc.writes c.last c.last_mem).not_other
      rw [edgesWhere_eq fun _ h => (Channel.not_standard_of_isEphemeral h).1, hexit,
        show c.channel.isStdin = true from hstdin]
      rfl
  have hlast : (d.graph b).lastNode t'.order = .ok (some c.last.id) := by
    refine bind_eq_ok.2 ⟨some c.last.output, Graph.stdoutEdge_eq_ok.2 ⟨?_, ?_⟩,
      bind_eq_ok.2 ⟨c.exit.2,
      Graph.edge_eq_ok.2 (hd.edge_iff.2 (mem_edges.2 (.inr (.inr rfl)))), rfl⟩⟩
    · exact resourced rfl (Channel.isSome_of_isStandard hstdout)
    · rw [edgesWhere_eq fun _ h => (Channel.not_standard_of_isEphemeral h).2,
        show d.last.channel.isStdout = true from hstdout]
      rfl
  obtain ⟨front, j, hfront⟩ := exists_nodesFrom_eq c.input c.first c.rest
  have hentries : (d.graph b).nodes.entries = front ++ [(c.last.id, c.last.node j)] := hfront
  have hnode : (d.graph b).node? c.last.id = some (c.last.node j) :=
    Table.get?_of_mem (hd.tidy b).nodes (hentries ▸ mem_append_right front mem_cons_self)
  have hcommands : ((d.graph b).startOrder c.last.id (c.last.node j)).mapM
      (fun m => (d.graph b).nodeTree (termination == .drain) m.2) =
        .ok (chained (c.links.map wordsOf) (d.channel.pipeWord :: pipeNames c.first c.rest)) := by
    rw [show (termination == .drain) =
      false by simpa using hdrain, Graph.startOrder_eq (hd.tidy b) hentries]
    refine Except.mapM_eq_ok_iff.2 (forall₂_nodeTree (Graph.channel_of_edge (e := d.entry)
      (hd.edge_iff.2 mem_cons_self)) rfl (fun l hl => (hplain l hl).1) (fun e he => ?_) hstdout)
    exact hd.edge_iff.2 (mem_cons_of_mem _ he)
  refine ⟨d.graph b, _, t', d.channel.pipeWord,
    Graph.yields_emit_iff.2 ⟨s, _, _, _, _, _, hs, hredirect, hlast, hnode,
    hcommands, (d.graph b).pipeWords_eq, rfl⟩, nodup_cons.2 ⟨fun hmem => ?_, hc.nodup_pipeNames⟩,
      ?_, fun w => ?_⟩
  · obtain ⟨e, he, heq⟩ := mem_map.1 hmem
    have hedge : (c.graph b).edge? e.1 = some e.2 := hc.edge_iff.2 (mem_edges.2 (.inr (.inl he)))
    have hle := Graph.le_lastEdge (Graph.yields_channelSource hs).1 (Table.mem_keys_of_get? hedge)
    have hident : e.2.channel.ident = s.next := Channel.ident_of_pipeWord heq
    rw [ident_of_mem_between hc.named he] at hident
    omega
  · exact Graph.started_script fun e he => ⟨_, mem_singleton.1 he⟩
  · constructor
    · intro hw
      have hcall := mem_singleton.1 (Graph.stdinCall_mem hw)
      simpa [Graph.stdinCall, Tree.simple] using hcall
    · rintro rfl
      simp

end CommandChain

/-! ### The whole pipeline -/

/-- `grep -rn "$x"` -/
def searching : PlainCommand where
  line := 1
  name := Word.ofString "grep"
  arguments := [Word.ofString "-rn", [.quoted [Part.ofName "x"]]]
  name_plain := by decide
  written := by decide
  no_option := by decide

/-- `sort -d`, where nothing is behind the option. -/
def sorting : PlainCommand where
  line := 1
  name := Word.ofString "sort"
  arguments := [Word.ofString "-d"]
  name_plain := by decide
  written := by decide
  no_option := by decide

end ShellFlow
