import ShellFlow.Proofs.Graph.Emission
import ShellFlow.Proofs.Lists

/-!
# What a script runs

A script is read without knowing how it was made: which commands it starts in the background, what
its functions do, and which words its commands have.
-/

namespace ShellFlow

open List

/-! ### Reading a script -/

namespace Script

def background? : Tree → Option Tree
  | .scope .background _ body _ => some body
  | _ => none

/-- The commands that are started in the background, each with what follows it. -/
def started : List Tree → List (Tree × Option Tree)
  | [] => []
  | t :: rest =>
    match background? t with
    | some body => (body, rest.head?) :: started rest
    | none => started rest

def sequenceCommands : Tree → List (List Word)
  | .command _ _ words _ => [words]
  | .join _ l r => sequenceCommands l ++ sequenceCommands r
  | _ => []

variable (name : String) (commands : List Tree)

/-- The commands of a tree that defines a function of some name. -/
def definedCommands : Tree → List (List Word)
  | .define _ (.text n) body => if n = name then sequenceCommands body else []
  | _ => []

/-- The commands in the body of a function. -/
def functionCommands (script : List Tree) : List (List Word) :=
  script.flatMap (definedCommands name)

/-- The commands of a function that does some things, or nothing. -/
def orNothing (commands : List (List Word)) : List (List Word) :=
  if commands.isEmpty then [[Word.ofString ":"]] else commands

theorem started_append_of_none {front : List Tree} (h : ∀ t ∈ front, background? t = none)
    (rest : List Tree) : started (front ++ rest) = started rest := by
  induction front with
  | nil => rfl
  | cons _ _ ih =>
    obtain ⟨ht, hfront⟩ := forall_mem_cons.1 h
    rw [cons_append, started, ht]
    exact ih hfront

theorem started_starting (rest : List Tree) : started (commands.flatMap Graph.starting ++ rest) =
      commands.map (fun c => (c, some collectProcess)) ++ started rest := by
  induction commands with
  | nil => rfl
  | cons c commands ih =>
    rw [flatMap_cons, List.append_assoc]
    show (c, some collectProcess) ::
      started (collectProcess :: (commands.flatMap Graph.starting ++ rest)) = _
    rw [show started (collectProcess :: (commands.flatMap Graph.starting ++ rest)) =
      started (commands.flatMap Graph.starting ++ rest) from rfl, ih]
    rfl

theorem sequenceCommands_sequence (command : Word → List Word) (words : List Word) :
    sequenceCommands (.sequence (words.map fun w => .simple (command w))) =
      orNothing (words.map command) := by
  induction words with
  | nil => rfl
  | cons w words ih =>
    cases words with
    | nil => rfl
    | cons v words =>
      show command w :: sequenceCommands
        (.sequence ((v :: words).map fun w => .simple (command w))) = _
      rw [ih]
      rfl

theorem definedCommands_starting :
    (commands.flatMap Graph.starting).flatMap (definedCommands name) = [] := by
  induction commands with
  | nil => rfl
  | cons _ _ ih =>
    rw [flatMap_cons, flatMap_append, ih]
    rfl

end Script

/-! ### The words of a command -/

def Operand.ownWords : Operand → List Word
  | .literal w | .word w => [w]
  | .positional inner => inner.ownWords
  | _ => []

/-- The words of a flag or option that name no edge. -/
def Flag.ownWords : Flag → List Word
  | .flag name => [Word.ofString name]
  | .connected name argument | .option name argument => Word.ofString name :: argument.ownWords

/-- The words of a command that name no edge. -/
def Invocation.ownWords (i : Invocation) : List Word :=
  Word.ofString i.command :: i.flags.flatMap Flag.ownWords ++ i.operands.flatMap Operand.ownWords

namespace Graph

variable {g g' : Graph} {w : Word} {c : Tree} {calls : List Tree} {i : Int} {n : Node} {o : Operand}
  {words : List Word}

/-- A word names an edge of the graph, and if the edge is a pipe, it is one of some pipes. -/
def Names (g : Graph) (pipes : List Word) (w : Word) : Prop :=
  ∃ i e, g.edge? i = some e ∧ e.channel.toWord false = .ok w ∧ (e.channel.isEphemeral → w ∈ pipes)

/-- The names of the pipes of a graph. -/
def pipes (g : Graph) : List Word := (g.channels.filter Channel.isEphemeral).map Channel.pipeWord

theorem pipeWords_eq (g : Graph) : g.pipeWords = .ok g.pipes := by
  refine Except.mapM_eq_ok_iff.2 (List.forall₂_map_right_iff.2 (List.forall₂_same.2 fun c hc => ?_))
  exact Channel.toWord_of_isEphemeral (mem_filter.1 hc).2 false

theorem mem_pipes_of_edge {e : Edge} (he : g.edge? i = some e)
    (hephemeral : e.channel.isEphemeral) : e.channel.pipeWord ∈ g.pipes :=
  mem_map_of_mem (mem_filter.2 ⟨mem_map_of_mem (Table.mem_values_of_get? he), hephemeral⟩)

theorem mem_pipes_iff (htidy : g.Tidy) : w ∈ g.pipes ↔
    ∃ i e, g.edge? i = some e ∧ e.channel.isEphemeral ∧ e.channel.toWord false = .ok w := by
  constructor
  · intro hw
    obtain ⟨c, hc, rfl⟩ := mem_map.1 hw
    obtain ⟨hc, hephemeral⟩ := mem_filter.1 hc
    obtain ⟨e, he, rfl⟩ := mem_map.1 hc
    obtain ⟨i, hi⟩ := exists_edge_of_mem_values htidy he
    exact ⟨i, e, hi, hephemeral, Channel.toWord_of_isEphemeral hephemeral false⟩
  · rintro ⟨i, e, he, hephemeral, hw⟩
    rw [Channel.toWord_of_isEphemeral hephemeral] at hw
    exact Except.ok.inj hw ▸ mem_pipes_of_edge he hephemeral

/-- The word that stands for an operand: its own, or the one of the edge in its place. -/
inductive Spells (g : Graph) : Operand → Word → Prop
  | literal (w : Word) : Spells g (.literal w) w
  | word (w : Word) : Spells g (.word w) w
  | edge {o : Operand} {i : Int} {e : Edge} {w : Word} (named : o.edge? = some i)
      (found : g.edge? i = some e) (word : e.channel.toWord false = .ok w) : Spells g o w
  | positional {o : Operand} {w : Word} (inner : Spells g o w) : Spells g (.positional o) w

/-- The words that stand for a flag, or for an option and its argument. -/
inductive SpellsFlag (g : Graph) : Flag → List Word → Prop
  | flag (name : String) : SpellsFlag g (.flag name) [Word.ofString name]
  | connected {name : String} {o : Operand} {w : Word} (argument : g.Spells o w) :
      SpellsFlag g (.connected name o) [Word.ofString name, w]

/-- What redirects an implicit stream: nothing if it is the standard one. -/
inductive SpellsStream (g : Graph) (standard : Channel Int → Bool) (redirect : Word → Redirection) :
    Option Int → List Redirection → Prop
  | absent : SpellsStream g standard redirect none []
  | unchanged {i : Int} {e : Edge} (found : g.edge? i = some e) (same : standard e.channel) :
      SpellsStream g standard redirect (some i) []
  | redirected {i : Int} {e : Edge} {w : Word} (found : g.edge? i = some e)
      (other : standard e.channel = false) (word : e.channel.toWord false = .ok w) :
      SpellsStream g standard redirect (some i) [redirect w]

/-- The words and the redirections of the command of a node, all of them, in order. -/
structure SpellsNode (g : Graph) (n : Node) (words : List Word) (redirections : List Redirection) :
    Prop where
  words : ∃ flags operands, List.Forall₂ g.SpellsFlag n.invocation.flags flags ∧
    List.Forall₂ g.Spells n.invocation.operands operands ∧
    words = Word.ofString n.invocation.command :: flags.flatten ++ operands
  redirections : ∃ stdin stdout,
    g.SpellsStream Channel.isStdin .inputFrom n.invocation.implicitInput stdin ∧
    g.SpellsStream Channel.isStdout .outputTo n.invocation.implicitOutput stdout ∧
      redirections = stdin ++ stdout

theorem spells_of_argumentWord (h : o.argumentWord g.channel = .ok w) : g.Spells o w := by
  unfold Operand.argumentWord at h
  split at h
  · next named =>
    obtain ⟨c, hc, hw⟩ := bind_eq_ok.1 h
    obtain ⟨e, he, ⟨⟩⟩ := bind_eq_ok.1 hc
    exact .edge named (edge_eq_ok.1 he) hw
  · split at h
    · exact Except.ok.inj h ▸ .literal _
    · exact Except.ok.inj h ▸ .word _
    · cases h

theorem spells_of_toWord (h : o.toWord g.channel = .ok w) : g.Spells o w := by
  unfold Operand.toWord at h
  split at h
  · exact .positional (spells_of_argumentWord h)
  · exact spells_of_argumentWord h

theorem spellsFlag_of_toWords {f : Flag} (h : f.toWords g.channel = .ok words) :
    g.SpellsFlag f words := by
  cases f with
  | flag name => exact Except.ok.inj h ▸ .flag name
  | connected =>
    obtain ⟨w, hw, ⟨⟩⟩ := bind_eq_ok.1 h
    exact .connected (spells_of_argumentWord hw)
  | option => cases h

theorem spellsStream_of_streamRedirection {edge : Option Int} {standard : Channel Int → Bool}
    {redirect : Word → Redirection} {rs : List Redirection}
    (h : Invocation.streamRedirection g.channel edge standard redirect = .ok rs) :
    g.SpellsStream standard redirect edge rs := by
  unfold Invocation.streamRedirection at h
  split at h
  · exact Except.ok.inj h ▸ .absent
  · obtain ⟨c, hc, h⟩ := bind_eq_ok.1 h
    obtain ⟨e, he, ⟨⟩⟩ := bind_eq_ok.1 hc
    split at h
    · next same => exact Except.ok.inj h ▸ .unchanged (edge_eq_ok.1 he) same
    · next other =>
      obtain ⟨w, hw, ⟨⟩⟩ := bind_eq_ok.1 h
      exact .redirected (edge_eq_ok.1 he) (Bool.eq_false_iff.2 other) hw

/-- **The command of a node spells its invocation.** -/
theorem spellsNode_of_nodeTree (h : g.nodeTree false n = .ok c) :
    ∃ words redirections, c = .command 0 n.assignments words redirections ∧
    g.SpellsNode n words redirections := by
  obtain ⟨words, hwords, h⟩ := bind_eq_ok.1 h
  obtain ⟨stdin, hstdin, h⟩ := bind_eq_ok.1 h
  obtain ⟨stdout, hstdout, ⟨⟩⟩ := bind_eq_ok.1 h
  obtain ⟨flags, hflags, hwords⟩ := bind_eq_ok.1 hwords
  obtain ⟨operands, hoperands, ⟨⟩⟩ := bind_eq_ok.1 hwords
  refine ⟨_, _, rfl, ⟨flags, operands, ?_, ?_, rfl⟩, stdin, stdout,
    spellsStream_of_streamRedirection hstdin,
    spellsStream_of_streamRedirection hstdout, rfl⟩
  · exact (Except.mapM_eq_ok_iff.1 hflags).imp fun _ _ => spellsFlag_of_toWords
  · exact (Except.mapM_eq_ok_iff.1 hoperands).imp fun _ _ => spells_of_toWord

theorem names_of_edge {e : Edge} (he : g.edge? i = some e) (hw : e.channel.toWord false = .ok w) :
    g.Names g.pipes w := by
  refine ⟨i, e, he, hw, fun hephemeral => ?_⟩
  rw [Channel.toWord_of_isEphemeral hephemeral] at hw
  exact Except.ok.inj hw ▸ mem_pipes_of_edge he hephemeral

theorem Spells.names (h : g.Spells o w) : w ∈ o.ownWords ∨ g.Names g.pipes w := by
  induction h with
  | literal | word => exact .inl (mem_singleton_self _)
  | edge _ found word => exact .inr (names_of_edge found word)
  | positional _ ih => exact ih

theorem SpellsFlag.names {f : Flag} (h : g.SpellsFlag f words) (hw : w ∈ words) :
    w ∈ f.ownWords ∨ g.Names g.pipes w := by
  cases h with
  | flag => exact .inl hw
  | connected argument =>
    rcases mem_cons.1 hw with rfl | hw
    · exact .inl mem_cons_self
    · exact mem_singleton.1 hw ▸ argument.names.imp_left (mem_cons_of_mem _)

theorem SpellsStream.names {edge : Option Int} {standard : Channel Int → Bool}
    {redirect : Word → Redirection} {rs : List Redirection} {r : Redirection}
    (h : g.SpellsStream standard redirect edge rs) (hr : r ∈ rs) :
    ∃ w, r = redirect w ∧ g.Names g.pipes w := by
  cases h with
  | absent | unchanged => cases hr
  | redirected found _ word => exact ⟨_, mem_singleton.1 hr, names_of_edge found word⟩

/-- **Every word of a command names an edge, or is the own word of its node.** -/
theorem SpellsNode.names {redirections : List Redirection} (h : g.SpellsNode n words redirections) :
    (∀ w ∈ words, w ∈ n.invocation.ownWords ∨ g.Names g.pipes w) ∧
      ∀ r ∈ redirections, ∃ w, (r = .inputFrom w ∨ r = .outputTo w) ∧ g.Names g.pipes w := by
  obtain ⟨⟨flags, operands, hflags, hoperands, rfl⟩, stdin, stdout, hstdin, hstdout, rfl⟩ := h
  refine ⟨fun w hw => ?_, fun r hr => ?_⟩
  · rw [cons_append, mem_cons, mem_append] at hw
    rw [Invocation.ownWords, cons_append, mem_cons, mem_append]
    rcases hw with rfl | hw | hw
    · exact .inl (.inl rfl)
    · obtain ⟨ws, hws, hw⟩ := mem_flatten.1 hw
      obtain ⟨f, hf, hspells⟩ := exists_of_forall₂ hflags.flip hws
      exact (hspells.names hw).imp_left fun hown => .inr (.inl (mem_flatMap.2 ⟨f, hf, hown⟩))
    · obtain ⟨o, ho, hspells⟩ := exists_of_forall₂ hoperands.flip hw
      exact hspells.names.imp_left fun hown => .inr (.inr (mem_flatMap.2 ⟨o, ho, hown⟩))
  · rcases mem_append.1 hr with hr | hr
    · obtain ⟨w, hw, hnames⟩ := hstdin.names hr
      exact ⟨w, .inl hw, hnames⟩
    · obtain ⟨w, hw, hnames⟩ := hstdout.names hr
      exact ⟨w, .inr hw, hnames⟩

/-! ### The pipes of a script -/

/-- Edges have channels with different numbers. -/
def Identified (g : Graph) : Prop :=
  ∀ i e j d, g.edge? i = some e → g.edge? j = some d → e.channel.ident = d.channel.ident → i = j

theorem nodup_pipes (htidy : g.Tidy) (hid : g.Identified) : g.pipes.Nodup := by
  have hentries : g.pipes =
      (g.edges.entries.filter fun e => e.2.channel.isEphemeral).map fun e =>
        e.2.channel.pipeWord := by
    simp [pipes, channels, Table.values, filter_map, Function.comp_def]
  rw [hentries]
  refine List.Nodup.map_on ?_ ((List.Nodup.of_map _ htidy.edges).filter _)
  rintro ⟨i, e⟩ hi ⟨j, d⟩ hj heq
  have hi' : g.edge? i = some e := Table.get?_of_mem htidy.edges (mem_filter.1 hi).1
  have hj' : g.edge? j = some d := Table.get?_of_mem htidy.edges (mem_filter.1 hj).1
  obtain rfl := hid i e j d hi' hj' (Channel.ident_of_pipeWord heq)
  rw [hi'] at hj'
  rw [Option.some.inj hj']

/-- Standard input, if there is one, is behind a pipe with a number of its own, and some commands
fill the pipe. -/
def BehindPipe (g g' : Graph) (calls : List Tree) : Prop :=
  (g.edgesWhere Channel.isStdin = [] ∧ g' = g ∧ calls = []) ∨
    ∃ i e c, g.edgesWhere Channel.isStdin = [i] ∧ g.edge? i = some e ∧ g.edge? c.ident = none ∧
      c.isEphemeral ∧ g' = g.putEdge i { e with channel := c } ∧ calls = [stdinCall c.pipeWord]

theorem behindPipe_of_redirectStdin {s : ChannelSource} (hlast : g.lastEdge = .ok (s.next - 1))
    (h : g.redirectStdin s = .ok (g', calls)) : g.BehindPipe g' calls := by
  rcases redirectStdin_eq_ok.1 h with ⟨hfound, rfl, rfl⟩ | ⟨i, e, hfound, he, rfl, rfl⟩
  · exact .inl ⟨(stdinEdge_eq_ok.1 hfound).2, rfl, rfl⟩
  · refine .inr ⟨i, e, s.freshEphemeral.1, (stdinEdge_eq_ok.1 hfound).2, he, ?_, rfl, rfl, rfl⟩
    rw [edge?, Table.get?_eq_none_iff]
    intro hmem
    have hle : s.next ≤ s.next - 1 := le_lastEdge hlast hmem
    omega

theorem startOrder_perm (htidy : g.Tidy) {k : Int} (hn : g.node? k = some n) :
    (g.startOrder k n).Perm g.nodes.entries := by
  have hnodup : g.nodes.entries.Nodup := List.Nodup.of_map _ htidy.nodes
  have hordered : (g.startOrder k n).Nodup := by
    refine nodup_append'.2 ⟨hnodup.filter _, nodup_singleton _, ?_⟩
    rintro m hm hk
    obtain rfl := mem_singleton.1 hk
    simpa using (mem_filter.1 hm).2
  refine (perm_ext_iff_of_nodup hordered hnodup).2 fun m => ?_
  rw [startOrder, mem_append, mem_filter, mem_singleton]
  constructor
  · rintro (⟨hm, -⟩ | rfl)
    · exact hm
    · exact Table.mem_entries_of_get? hn
  · intro hm
    by_cases hk : m.1 = k
    · have hm' : g.node? m.1 = some m.2 := Table.get?_of_mem htidy.nodes hm
      rw [hk, hn] at hm'
      exact .inr (Prod.ext hk (Option.some.inj hm').symm)
    · exact .inl ⟨hm, by simpa using hk⟩

/-- What is left as it was when standard input is put behind a pipe. -/
theorem BehindPipe.kept (h : g.BehindPipe g' calls) (htidy : g.Tidy)
    (hident : ∀ i e, g.edge? i = some e → e.channel.ident = i) :
    g'.nodes = g.nodes ∧ g'.Tidy ∧ g'.Identified ∧
      g'.edgesWhere Channel.isStdout = g.edgesWhere Channel.isStdout ∧
      g'.view.source = g.view.source := by
  rcases h with ⟨-, rfl, -⟩ | ⟨i, e, c, hstdin, he, hfree, hephemeral, rfl, -⟩
  · refine ⟨rfl, htidy, fun i e j d hi hj heq => ?_, rfl, rfl⟩
    rw [hident i e hi, hident j d hj] at heq
    exact heq
  · have hold : e.channel.isStdin = true := by
      have hmem : i ∈ g.edgesWhere Channel.isStdin := by simp [hstdin]
      obtain ⟨e', he', hp⟩ := (mem_edgesWhere htidy).1 hmem
      rw [he] at he'
      exact Option.some.inj he' ▸ hp
    refine ⟨rfl, ⟨htidy.nodes, Table.nodup_keys_insert htidy.edges _ _⟩, ?_, ?_, ?_⟩
    · -- the new number is that of no edge
      have hne : ∀ j d, g.edge? j = some d → d.channel.ident ≠ c.ident := by
        intro j d hj heq
        rw [hident j d hj] at heq
        rw [heq, hfree] at hj
        cases hj
      intro j d l f hj hl heq
      rw [edge?_putEdge] at hj hl
      split at hj <;> split at hl
      · next hj' hl' => rw [hj', hl']
      · cases hj
        exact absurd heq.symm (hne l f hl)
      · cases hl
        exact absurd heq (hne j d hj)
      · rw [hident j d hj, hident l f hl] at heq
        exact heq
    · refine edgesWhere_putEdge htidy he ?_
      rw [Channel.isStdout_of_isStdin hold, Channel.isStdout, Channel.isEphemeral_iff.1 hephemeral]
      rfl
    · rw [putEdge_view]
      show (g.view.setSource i e.source).source = _
      rw [View.setSource_self (by simp [view, he])]

/-- Standard input is redirected where it was put behind a pipe, and nowhere else. -/
theorem stdinCall_mem {stdin commands : List Tree} {termination : Termination}
    {logFile : Option String}
    (h : stdinCall w ∈ prologue words ++ (initProcesses :: stdin ++ commands.flatMap starting) ++
      epilogue termination logFile) : stdinCall w ∈ stdin := by
  have hcleanUp : Word.ofString (Settings.standard.program Settings.standard.redirectInput) ≠
      Word.ofString (Settings.standard.program Settings.standard.cleanUp) :=
        Word.ofString_ne (by decide +kernel)
  rw [List.append_assoc, mem_append, mem_append, mem_append, mem_cons] at h
  rcases h with h | ((h | h) | h) | h
  · simp [prologue, stdinCall, Tree.simple, Tree.texts] at h
  · simp [initProcesses, stdinCall, Tree.simple, Tree.assign] at h
  · exact h
  · obtain ⟨c, -, hc⟩ := mem_flatMap.1 h
    simp [starting, collectProcess, stdinCall, Tree.simple, Tree.assign, Tree.inBackground] at hc
  · unfold epilogue at h
    cases termination <;>
      simp [stdinCall, Tree.simple, Tree.texts, Tree.inSubshell, hcleanUp] at h

/-- The commands that fill the pipe of standard input only fill the pipe. -/
theorem BehindPipe.mem_calls (h : g.BehindPipe g' calls) (hc : c ∈ calls) :
    ∃ w ∈ g'.pipes, c = stdinCall w := by
  rcases h with ⟨-, -, rfl⟩ | ⟨i, e, channel, -, -, -, hephemeral, rfl, rfl⟩
  · cases hc
  · have hedge : (g.putEdge i { e with channel := channel }).edge? i =
        some { e with channel := channel } := by
      rw [edge?_putEdge, if_pos rfl]
    have hpipe := mem_pipes_of_edge hedge hephemeral
    exact ⟨channel.pipeWord, hpipe, mem_singleton.1 hc⟩

/-- The node that is started last writes standard output, if there is one. -/
theorem source_of_lastNode {order : SetOrder} {last : Option Int} (h : g.lastNode order = .ok last)
    (hi : (g.edgesWhere Channel.isStdout).getLast? = some i) : g.view.source i = last := by
  obtain ⟨found, hfound, h⟩ := bind_eq_ok.1 h
  obtain rfl : some i = found := hi.symm.trans (stdoutEdge_eq_ok.1 hfound).2
  obtain ⟨e, he, h⟩ := bind_eq_ok.1 h
  rw [← pure_eq_ok.1 h]
  simp [view, edge_eq_ok.1 he]

section Parts

variable {commands : List Tree} {termination : Termination} {logFile : Option String}

theorem started_script (hcalls : ∀ c ∈ calls, ∃ w, c = stdinCall w) :
    Script.started (prologue words ++ (initProcesses :: calls ++ commands.flatMap starting) ++
      epilogue termination logFile) = commands.map fun c => (c, some collectProcess) := by
  have hfront : ∀ t ∈ prologue words ++ initProcesses :: calls, Script.background? t = none := by
    intro t ht
    rcases mem_append.1 ht with ht | ht
    · simp only [prologue, mem_cons, not_mem_nil, or_false] at ht
      rcases ht with rfl | rfl | rfl | rfl <;> rfl
    · rcases mem_cons.1 ht with rfl | ht
      · rfl
      · obtain ⟨w, rfl⟩ := hcalls t ht
        rfl
  have hback : Script.started (epilogue termination logFile) = [] := by
    cases termination <;> rfl
  rw [← List.append_assoc, List.append_assoc, Script.started_append_of_none hfront,
    Script.started_starting, hback, append_nil]

theorem functionCommands_script (hcalls : ∀ c ∈ calls, ∃ w, c = stdinCall w) (name : String) :
    Script.functionCommands name
    (prologue words ++ (initProcesses :: calls ++ commands.flatMap starting) ++
      epilogue termination logFile) = Script.functionCommands name (prologue words) := by
  have hcallsNone : calls.flatMap (Script.definedCommands name) = [] := by
    refine flatMap_eq_nil_iff.2 fun c hc => ?_
    obtain ⟨w, rfl⟩ := hcalls c hc
    rfl
  have hback : (epilogue termination logFile).flatMap (Script.definedCommands name) = [] := by
    cases termination <;> rfl
  unfold Script.functionCommands
  rw [flatMap_append, flatMap_append, flatMap_append, flatMap_cons, hcallsNone, hback,
    Script.definedCommands_starting, append_nil, append_nil, append_nil]
  exact append_nil _

/-- One function makes the pipes, and the other removes them. -/
theorem functionCommands_prologue :
    Script.functionCommands makePipes (prologue words) =
      Script.orNothing (words.map fun w => [Word.ofString "mkfifo", w]) ∧
    Script.functionCommands removePipes (prologue words) =
      Script.orNothing (words.map fun w => [Word.ofString "rm", Word.ofString "-f", w]) := by
  have hmake : ¬ removePipes = makePipes := by decide
  have hremove : ¬ makePipes = removePipes := by decide
  simp only [Script.functionCommands, prologue, flatMap_cons, Script.definedCommands, if_neg hmake,
    if_neg hremove, if_true, Script.sequenceCommands_sequence]
  exact ⟨append_nil _, append_nil _⟩

end Parts

/-! ### The whole script -/

/-- A script runs every node of a graph once, over pipes of its own: nodes in an order, and pipes.
-/
structure Scripted (g g' : Graph) (script : List Tree) (order : List (Int × Node))
    (pipes : List Word) : Prop where
  nodes : order.Perm g.nodes.entries
  commands : ∃ commands, List.Forall₂ (fun n c => g'.nodeTree false n.2 = .ok c) order commands ∧
    Script.started script = commands.map fun c => (c, some collectProcess)
  last : ∀ i, (g.edgesWhere Channel.isStdout).getLast? = some i →
    ∃ n, order.getLast? = some n ∧ g.view.source i = some n.1
  made : Script.functionCommands makePipes script =
    Script.orNothing (pipes.map fun w => [Word.ofString "mkfifo", w])
  removed : Script.functionCommands removePipes script =
    Script.orNothing (pipes.map fun w => [Word.ofString "rm", Word.ofString "-f", w])
  mem_pipes : ∀ w, w ∈ pipes ↔ ∃ i e, g'.edge? i = some e ∧ e.channel.isEphemeral ∧
    e.channel.toWord false = .ok w
  nodup : pipes.Nodup
  distinct : ∀ i e j d w, g'.edge? i = some e → g'.edge? j = some d → e.channel.isEphemeral →
    d.channel.isEphemeral → e.channel.toWord false = .ok w → d.channel.toWord false = .ok w → i = j
  stdin : ∃ calls, g.BehindPipe g' calls ∧ ∀ w, stdinCall w ∈ script ↔ stdinCall w ∈ calls
  stdin_call : ∀ w, stdinCall w ∈ script → w ∈ pipes
  words : ∀ n ∈ order, ∀ c, g'.nodeTree false n.2 = .ok c →
    ∃ words redirections, c = .command 0 n.2.assignments words redirections ∧
      g'.SpellsNode n.2 words redirections ∧
      (∀ w ∈ words, w ∈ n.2.invocation.ownWords ∨ g'.Names pipes w) ∧
      ∀ r ∈ redirections, ∃ w, (r = .inputFrom w ∨ r = .outputTo w) ∧ g'.Names pipes w

variable {termination : Termination} {logFile : Option String} {t t' : Supply} {script : List Tree}

/-- A command that reads one edge and writes another. -/
def filterNode (k input output : Int) (command : String) (operands : List Operand) : Node where
  id := k
  invocation := .ofAccess command [] operands (some input) (some output)
    (.ofList [(input, .streamInput), (output, .streamOutput)])

/-- Two commands from standard input to standard output over a pipe; the second is listed first. -/
def twoFilters : Graph where
  nodes :=
    ⟨[(1, filterNode 1 1 2 "sort" []), (0, filterNode 0 0 1 "grep" [.literal (Word.ofString "x")])]⟩
  edges := ⟨[(0, ⟨{ ident := 0, resource := some (.descriptor (.int 0)) }, none, some 0⟩),
    (1, ⟨{ ident := 1, resource := some .ephemeral }, some 0, some 1⟩),
    (2, ⟨{ ident := 2, resource := some (.descriptor (.int 1)) }, some 1, none⟩)]⟩

end Graph

end ShellFlow
