import ShellFlow.Proofs.Compile.Chains
import ShellFlow.Proofs.Lists

/-!
# What a script keeps of a command

The script of a graph starts every command of the tree that the graph comes from, in order.  Each
command has its words and its own redirections; besides, it reads and writes pipes of the script.
Assignments in front of a command and redirections around it are not in the graph, so the script has
none of them.
-/

namespace ShellFlow

open List

variable {channel : ChannelLookup} {e : Tree} {file : FileRedirection} {g : Graph} {l : Link}
  {r : Redirection} {script : List Tree} {w : Word} {ws : List Word}

/-! ### The commands of a script -/

/-- The redirection of the standard stream that is written or read. -/
def redirection (write : Bool) (w : Word) : Redirection :=
    if write then .outputTo w else .inputFrom w

/-- What flows into a command or out of it: what its redirections make of the standard stream, or a
pipe if they leave the stream alone. -/
def Carries (files : List FileRedirection) (write : Bool) (c : Channel Int) : Prop :=
  Shows files write c ∨ (c.isEphemeral ∧ ∀ r ∈ files, r.write ≠ write)

section Stream

variable {files : List FileRedirection} {write : Bool} {c : Channel Int} {i : Int}
  {rs : List Redirection}

/-- **A stream of a command is redirected as it is written, and otherwise only to a pipe.** -/
theorem Carries.redirections (hc : Carries files write c) (hi : g.channel i = .ok c)
    (h : Invocation.streamRedirection g.channel (some i) (isStandard write) (redirection write) =
      .ok rs) :
    (∀ r ∈ files, r.write = write → r.fd.sameInt (standardFd write) ∧
      redirection write r.target ∈ rs) ∧
        ∀ r' ∈ rs, (∃ r ∈ files, r.write = write ∧ r' = redirection write r.target) ∨
        ∃ w ∈ g.pipes, r' = redirection write w := by
  obtain ⟨_, hchannel, h⟩ := bind_eq_ok.1 h
  obtain rfl := Except.ok.inj (hi.symm.trans hchannel)
  split at h
  · next hstandard =>
    cases h
    have hnone : ∀ r ∈ files, r.write ≠ write :=
      hc.elim (fun hc => hc.no_redirection hstandard) And.right
    exact ⟨fun r hr hwrite => absurd hwrite (hnone r hr), nofun⟩
  · next hstandard =>
    obtain ⟨w, hw, h⟩ := bind_eq_ok.1 h
    cases h
    rcases hc with hc | ⟨hpipe, hnone⟩
    · obtain ⟨r, hr, hwrite, hfile⟩ := hc.standard_or_file.resolve_left hstandard
      have htarget : ∀ {r : FileRedirection}, c.resource = some (.file r.target) →
          r.target = w := by
        intro r hfile
        rw [Channel.toWord, hfile] at hw
        exact Except.ok.inj hw
      constructor
      · intro r' hr' hwrite'
        obtain ⟨hfd, hfile'⟩ := hc.applied r' hr' hwrite'
        exact ⟨hfd, by rw [htarget hfile']; exact mem_cons_self⟩
      · intro r' hr'
        obtain rfl := mem_singleton.1 hr'
        exact .inl ⟨r, hr, hwrite, by rw [htarget hfile]⟩
    · refine ⟨fun r hr hwrite => absurd hwrite (hnone r hr),
        fun r' hr' => .inr ⟨w, ?_, mem_singleton.1 hr'⟩⟩
      obtain ⟨e, he, hchannel⟩ := bind_eq_ok.1 hi
      cases hchannel
      rw [Channel.toWord_of_isEphemeral hpipe] at hw
      exact Except.ok.inj hw ▸ Graph.mem_pipes_of_edge (Graph.edge_eq_ok.1 he) hpipe

/-- What a command reads is not standard output, and what it writes is not standard input. -/
theorem Carries.not_other (h : Carries files write c) : isStandard (!write) c = false := by
  rcases h with h | ⟨hpipe, -⟩
  · exact h.not_other
  · cases write with
    | false => exact (Channel.not_standard_of_isEphemeral hpipe).2
    | true => exact (Channel.not_standard_of_isEphemeral hpipe).1

end Stream

/-- A command of a script has the words of a command of a chain and its redirections, and besides it
only reads and writes some pipes. -/
def Issues (pipes : List Word) (l : Link) (e : Tree) : Prop :=
  ∃ rs, e = .command 0 [] (Word.ofString l.form.name :: l.form.words) rs ∧
    (∀ r ∈ l.files, r.fd.sameInt (standardFd r.write) ∧ redirection r.write r.target ∈ rs) ∧
    ∀ r' ∈ rs, (∃ r ∈ l.files, r' = redirection r.write r.target) ∨ ∃ w ∈ pipes, r' = .inputFrom w ∨
      r' = .outputTo w

/-- Only flags have words, so a command that has words has no options. -/
theorem Setting.words_of_toWords {st : Setting} (h : st.toFlag.toWords channel = .ok ws) :
    st.words = ws := by
  cases st with
  | flag => exact Except.ok.inj h
  | option => cases h

theorem CommandForm.words_invocation {f : CommandForm} {input output : Int}
    (h : (f.invocation input output).words channel = .ok ws) :
    ws = Word.ofString f.name :: f.words := by
  obtain ⟨flags, hflags, h⟩ := bind_eq_ok.1 h
  obtain ⟨operands, hoperands, h⟩ := bind_eq_ok.1 h
  cases h
  have hsettings : f.settings.map Setting.words = flags := by
    have hall := List.forall₂_map_left_iff.1 (Except.mapM_eq_ok_iff.1 hflags)
    exact List.forall₂_eq_eq_eq ▸ List.forall₂_map_left_iff.2
      (hall.imp fun _ _ => Setting.words_of_toWords)
  have hliteral : f.operands = operands := by
    have hall := List.forall₂_map_left_iff.1 (Except.mapM_eq_ok_iff.1 hoperands)
    exact List.forall₂_eq_eq_eq ▸ hall.imp fun _ _ h => Except.ok.inj h
  rw [CommandForm.words, flatMap_def, hsettings, hliteral]
  rfl

theorem issues_of_nodeTree {i : Int} {c d : Channel Int} (hi : g.channel i = .ok c)
    (ho : g.channel l.output = .ok d) (hin : Carries l.files false c)
    (hout : Carries l.files true d) (h : g.nodeTree false (l.node i) = .ok e) :
    Issues g.pipes l e := by
  obtain ⟨words, hwords, h⟩ := bind_eq_ok.1 h
  obtain ⟨stdin, hstdin, h⟩ := bind_eq_ok.1 h
  obtain ⟨stdout, hstdout, h⟩ := bind_eq_ok.1 h
  cases h
  obtain ⟨hread, hreadOnly⟩ := hin.redirections hi hstdin
  obtain ⟨hwritten, hwrittenOnly⟩ := hout.redirections ho hstdout
  rw [CommandForm.words_invocation hwords]
  refine ⟨stdin ++ stdout, rfl, fun r hr => ?_, fun r' hr' => ?_⟩
  · cases hwrite : r.write with
    | false => exact (hread r hr hwrite).imp_right (mem_append_left stdout)
    | true => exact (hwritten r hr hwrite).imp_right (mem_append_right stdin)
  · rcases mem_append.1 hr' with hr' | hr'
    · rcases hreadOnly r' hr' with ⟨r, hr, hwrite, rfl⟩ | ⟨w, hw, rfl⟩
      · exact .inl ⟨r, hr, by rw [hwrite]⟩
      · exact .inr ⟨w, hw, .inl rfl⟩
    · rcases hwrittenOnly r' hr' with ⟨r, hr, hwrite, rfl⟩ | ⟨w, hw, rfl⟩
      · exact .inl ⟨r, hr, by rw [hwrite]⟩
      · exact .inr ⟨w, hw, .inr rfl⟩

/-! ### The script of a chain -/

def Script.MakesPipe (script : List Tree) (w : Word) : Prop :=
  [Word.ofString "mkfifo", w] ∈ Script.functionCommands makePipes script

theorem Graph.channel_of_edge {e : Int × Edge} (h : g.edge? e.1 = some e.2) :
    g.channel e.1 = .ok e.2.channel :=
  bind_eq_ok.2 ⟨e.2, Graph.edge_eq_ok.2 h, rfl⟩

theorem Graph.drain_of_nodeTree {drain : Bool} {n : Node} (h : g.nodeTree drain n = .ok e) :
    drain = false := by
  unfold Graph.nodeTree at h
  split at h
  · cases h
  · next hdrain => simpa using hdrain

namespace CommandChain

variable {c : CommandChain} {b : Bool} {g' : Graph} {termination : Termination}
  {logFile : Option String} {t t' : Supply} {k : Int}

/-- From some edge on, the nodes of a chain become its commands. -/
theorem forall₂_issues {ls : List Link} {i : Int} {d : Channel Int} {es : List Tree}
    (hi : g.channel i = .ok d) (hin : Carries l.files false d)
    (hwrites : ∀ m ∈ l :: ls, Shows m.files true m.channel) (hled : Led l ls)
    (hedges : ∀ e ∈ between l ls ++ [exitOf (lastOf l ls)], g.edge? e.1 = some e.2)
    (h : List.Forall₂ (fun n e => g.nodeTree false n.2 = .ok e) (nodesFrom i (l :: ls)) es) :
    List.Forall₂ (Issues g.pipes) (l :: ls) es := by
  induction ls generalizing l i d es with
  | nil =>
    obtain ⟨e, es, hfirst, hrest, rfl⟩ := List.forall₂_cons_left_iff.1 h
    obtain rfl := List.forall₂_nil_left_iff.1 hrest
    have ho := Graph.channel_of_edge (hedges (exitOf l) mem_cons_self)
    exact .cons (issues_of_nodeTree hi ho hin (.inl (hwrites l mem_cons_self)) hfirst) .nil
  | cons m _ ih =>
    obtain ⟨e, es, hfirst, hrest, rfl⟩ := List.forall₂_cons_left_iff.1 h
    obtain ⟨hstdout, hread, hled⟩ := hled
    have ho := Graph.channel_of_edge (hedges (pipe l m) mem_cons_self)
    have hout : Carries l.files true (pipe l m).2.channel :=
      .inr ⟨rfl, (hwrites l mem_cons_self).no_redirection hstdout⟩
    have hpiped : Carries m.files false (pipe l m).2.channel :=
      .inr ⟨rfl, fun r hr => by simp [hread r hr]⟩
    refine .cons (issues_of_nodeTree hi ho hin hout hfirst) (ih ho hpiped ?_ hled ?_ hrest)
    · exact fun k hk => hwrites k (mem_cons_of_mem l hk)
    · exact fun e he => hedges e (mem_cons_of_mem _ he)

/-- Standard input of a chain is put behind a pipe. -/
theorem Sound.exists_of_redirectStdin (hc : c.Sound) {s : ChannelSource} {calls : List Tree}
    (h : (c.graph b).redirectStdin s = .ok (g', calls)) :
    ∃ d : CommandChain, g' = d.graph b ∧ d.Wired ∧ Carries d.first.files false d.channel ∧
    d.links = c.links := by
  rcases Graph.redirectStdin_eq_ok.1 h with ⟨-, rfl, -⟩ | ⟨i, e, hstdin, he, rfl, -⟩
  · exact ⟨c, rfl, hc.toWired, .inl hc.reads, rfl⟩
  · have hmem : i ∈ (c.graph b).edgesWhere Channel.isStdin := by
      rw [(Graph.stdinEdge_eq_ok.1 hstdin).2]
      exact mem_cons_self
    obtain ⟨e', he', hisStdin⟩ := (Graph.mem_edgesWhere (hc.tidy b)).1 hmem
    have hentry := hc.stdin_of_mem (hc.edge_iff.1 he') hisStdin
    obtain rfl := Option.mem_unique he he'
    cases hentry
    exact ⟨{ c with channel := s.freshEphemeral.1 }, c.putEdge_entry b _,
      ⟨hc.numbers, hc.ids, hc.named, hc.writes, hc.led⟩,
      .inr ⟨rfl, hc.reads.no_redirection hisStdin⟩, rfl⟩

/-- Of the edges of a chain, only the first and the last can be more than pipes. -/
theorem edgesWhere_eq {p : Channel Int → Bool}
    (hp : ∀ d : Channel Int, d.isEphemeral → p d = false) : (c.graph b).edgesWhere p =
      (if p c.channel then [c.input] else []) ++
        if p c.last.channel then [c.last.output] else [] := by
  have hbetween : (between c.first c.rest).filter (fun e => p e.2.channel) = [] :=
    filter_eq_nil_iff.2 fun e he => by simp [hp _ (mem_between he).1]
  show (c.edges.filter fun e => p e.2.channel).map (·.1) = _
  rw [edges, filter_cons, filter_append, hbetween]
  by_cases hfirst : p c.channel <;> by_cases hlast :
    p c.last.channel <;> simp [entry, exit, exitOf, hfirst, hlast]

/-- The last command of a chain is started last. -/
theorem lastNode_eq {order : SetOrder} (htidy : (c.graph b).Tidy)
    (hstdout : c.channel.isStdout = false) (h : (c.graph b).lastNode order = .ok (some k)) :
    k = c.last.id := by
  obtain ⟨found, hfound, h⟩ := bind_eq_ok.1 h
  cases found with
  | some i =>
    have hstandard := (Graph.stdoutEdge_eq_ok.1 hfound).2
    rw [edgesWhere_eq fun _ h => (Channel.not_standard_of_isEphemeral h).2, hstdout] at hstandard
    cases hexit : c.last.channel.isStdout with
    | false =>
      rw [hexit] at hstandard
      cases hstandard
    | true =>
      rw [hexit] at hstandard
      obtain rfl : c.last.output = i := Option.some.inj hstandard
      obtain ⟨e, he, h⟩ := bind_eq_ok.1 h
      have hedge := Table.get?_of_mem htidy.edges (mem_edges.2 (.inr (.inr rfl)))
      obtain rfl := Option.mem_unique hedge (Graph.edge_eq_ok.1 he)
      exact (Option.some.inj (pure_eq_ok.1 h)).symm
  | none =>
    have hbetween : (between c.first c.rest).filterMap
        ((fun e : Edge => if e.target.isNone then e.source else none) ∘ Prod.snd) = [] := by
      refine filterMap_eq_nil_iff.2 fun e he => ?_
      exact if_neg fun hnone => (mem_between he).2 (Option.isNone_iff_eq_none.1 hnone)
    have hsink : (c.graph b).sinkNodes = [c.last.id] := by
      show List.eraseDups ((c.edges.map Prod.snd).filterMap _) = _
      rw [filterMap_map, edges, filterMap_cons_none rfl, filterMap_append, hbetween]
      show List.eraseDups [c.last.id] = _
      simp [eraseDups_cons]
    rw [hsink, perm_singleton.1 (order.perm [c.last.id])] at h
    exact (Option.some.inj (pure_eq_ok.1 h)).symm

theorem exists_nodesFrom_eq (i : Int) (l : Link) (ls : List Link) :
    ∃ front j, nodesFrom i (l :: ls) = front ++ [((lastOf l ls).id, (lastOf l ls).node j)] := by
  induction ls generalizing i l with
  | nil => exact ⟨[], i, rfl⟩
  | cons m _ ih =>
    obtain ⟨front, j, hfront⟩ := ih l.output m
    exact ⟨(l.id, l.node i) :: front, j, congrArg ((l.id, l.node i) :: ·) hfront⟩

theorem Wired.forall₂_issues_of_start (hc : c.Wired) (hin : Carries c.first.files false c.channel)
    {n : Node} {drain : Bool} {commands : List Tree} {order : SetOrder}
    (hlast : (c.graph b).lastNode order = .ok (some k)) (hn : (c.graph b).node? k = some n)
    (h : ((c.graph b).startOrder k n).mapM (fun m => (c.graph b).nodeTree drain m.2) =
      .ok commands) :
    List.Forall₂ (Issues (c.graph b).pipes) c.links commands := by
  have htidy : (c.graph b).Tidy := hc.tidy b
  obtain rfl := lastNode_eq htidy hin.not_other hlast
  obtain ⟨front, j, hfront⟩ := exists_nodesFrom_eq c.input c.first c.rest
  have hentries : (c.graph b).nodes.entries = front ++ [(c.last.id, c.last.node j)] := hfront
  have hnode := Table.get?_of_mem htidy.nodes (hentries ▸ mem_append_right front mem_cons_self)
  obtain rfl := Option.mem_unique hn hnode
  rw [Graph.startOrder_eq htidy hentries, Except.mapM_eq_ok_iff] at h
  obtain ⟨e, es, hfirst, -, -⟩ := List.forall₂_cons_left_iff.1 h
  obtain rfl := Graph.drain_of_nodeTree hfirst
  have hinput : (c.graph b).channel c.input = .ok c.channel :=
    Graph.channel_of_edge (e := c.entry) (Table.get?_of_mem htidy.edges mem_cons_self)
  refine forall₂_issues hinput hin hc.writes hc.led (fun e he => ?_) h
  exact Table.get?_of_mem htidy.edges (mem_cons_of_mem _ he)

/-- **The script of a chain starts its commands in order.** -/
theorem Sound.forall₂_issues_of_emit (hc : c.Sound)
    (h : Yields ((c.graph b).emit termination logFile) t (g', script) t') :
    ∃ pipes, (∀ w ∈ pipes, Script.MakesPipe script w) ∧
      List.Forall₂ (Issues pipes) c.links ((Script.started script).map Prod.fst) := by
  obtain ⟨s, calls, k, n, commands, words, -, hstdin, hlast, hn, hcommands, hwords, rfl⟩ :=
    Graph.yields_emit_iff.1 h
  rw [Graph.pipeWords_eq] at hwords
  cases hwords
  have hcalls : ∀ e ∈ calls, ∃ w, e = Graph.stdinCall w := by
    rcases Graph.redirectStdin_eq_ok.1 hstdin with ⟨-, -, rfl⟩ | ⟨i, e, -, -, -, rfl⟩
    · exact nofun
    · exact fun e he => ⟨_, mem_singleton.1 he⟩
  obtain ⟨d, rfl, hwired, hin, hlinks⟩ := hc.exists_of_redirectStdin hstdin
  refine ⟨(d.graph b).pipes, fun w hw => ?_, ?_⟩
  · rw [Script.MakesPipe, Graph.functionCommands_script hcalls, Graph.functionCommands_prologue.1]
    have hmem := mem_map_of_mem (f := fun w => [Word.ofString "mkfifo", w]) hw
    rw [Script.orNothing, if_neg (by simpa using ne_nil_of_mem hmem)]
    exact hmem
  · rw [Graph.started_script hcalls, map_map, ← hlinks]
    exact (map_id commands).symm ▸ hwired.forall₂_issues_of_start hin hlast hn hcommands

end CommandChain

theorem Graph.Severed.not_emitted {g' : Graph} {termination : Termination} {logFile : Option String}
    {t t' : Supply} (hg : g.Severed) : ¬ Yields (g.emit termination logFile) t (g', script) t' := by
  intro h
  obtain ⟨s, calls, k, n, commands, words, -, hstdin, hlast, -⟩ := Graph.yields_emit_iff.1 h
  obtain ⟨hnoStdin, hnoStdout⟩ := hg.edgesWhere_eq_nil
  rcases Graph.redirectStdin_eq_ok.1 hstdin with ⟨-, rfl, -⟩ | ⟨i, e, hfound, -⟩
  · obtain ⟨found, hfound, hlast⟩ := bind_eq_ok.1 hlast
    have hnone := (Graph.stdoutEdge_eq_ok.1 hfound).2
    rw [hnoStdout] at hnone
    obtain rfl := hnone
    have hsink : g'.sinkNodes = [] := by
      have hopen : g'.edges.values.filterMap (fun e => if e.target.isNone then e.source else none) =
          [] := by
        refine filterMap_eq_nil_iff.2 fun e he => ?_
        split
        · next hread => exact (hg e he).2.2 (Option.isNone_iff_eq_none.1 hread)
        · rfl
      rw [Graph.sinkNodes, hopen]
      simp
    rw [hsink, perm_nil.1 (t'.order.perm [])] at hlast
    cases hlast
  · have hsome := (Graph.stdinEdge_eq_ok.1 hfound).2
    rw [hnoStdin] at hsome
    cases hsome

/-! ### The commands of a tree -/

/-- A command of a tree, with what is written on it and around it. -/
structure Written where
  assignments : List Assignment
  name : Word
  arguments : List Word
  redirections : List Redirection
  around : List Redirection

variable {c : Written}

mutual

/-- The commands of a tree that stands inside some redirections. -/
def Tree.commandsIn (around : List Redirection) : Tree → List Written
  | .command _ assignments (name :: arguments) redirections =>
    [{ assignments, name, arguments, redirections, around }]
  | .pipe _ items => Tree.allCommandsIn around items
  | .scope _ _ body redirections => Tree.commandsIn (redirections ++ around) body
  | _ => []

def Tree.allCommandsIn (around : List Redirection) : List Tree → List Written
  | [] => []
  | t :: ts => Tree.commandsIn around t ++ Tree.allCommandsIn around ts

end

/-- A redirection of a tree is a file that is written or read, once its target is compiled. -/
def Names (r : Redirection) (file : FileRedirection) : Prop :=
  ∃ w, r = .mk .file (.text file.mode) file.fd w ∧ CompilesTo (compileParts w) file.target

theorem names_of_checkRedirection {kind : RedirectionKind} {mode fd : Value} {w' : Word}
    (hw : CompilesTo (compileParts w) w') (h : checkRedirection (.mk kind mode fd w') = .ok file) :
    Names (.mk kind mode fd w) file := by
  unfold checkRedirection at h
  split at h
  · next heq =>
    obtain ⟨rfl, rfl, rfl, rfl⟩ := Redirection.mk.inj heq
    cases h
    exact ⟨w, rfl, hw⟩
  · next heq =>
    obtain ⟨rfl, rfl, rfl, rfl⟩ := Redirection.mk.inj heq
    cases h
    exact ⟨w, rfl, hw⟩
  · cases h

/-- All redirections of a command are files that are written or read. -/
theorem forall₂_names {redirections redirections' : List Redirection} {files : List FileRedirection}
    (h : CompilesTo (compileRedirections redirections) redirections')
    (hfiles : redirections'.mapM checkRedirection = .ok files) :
    List.Forall₂ Names redirections files := by
  obtain ⟨s, t, s', t', h⟩ := h
  rw [Except.mapM_eq_ok_iff] at hfiles
  induction redirections generalizing s t redirections' files with
  | nil =>
    obtain ⟨rfl, -, -⟩ := h.pure_pair
    obtain rfl := List.forall₂_nil_left_iff.1 hfiles
    exact .nil
  | cons r _ ih =>
    cases r with
    | mk =>
      obtain ⟨⟨w', s₁⟩, t₁, hw, h⟩ := h.bind
      obtain ⟨⟨rest', s₂⟩, t₂, hrest, h⟩ := h.bind
      obtain ⟨rfl, rfl, rfl⟩ := h.pure_pair
      obtain ⟨file, files, hfile, hrestFiles, rfl⟩ := List.forall₂_cons_left_iff.1 hfiles
      exact .cons (names_of_checkRedirection ⟨_, _, _, _, hw⟩ hfile) (ih hrestFiles _ _ hrest)
    | other =>
      obtain ⟨⟨rest', s₂⟩, t₂, hrest, h⟩ := h.bind
      obtain ⟨rfl, -, -⟩ := h.pure_pair
      obtain ⟨file, -, hfile, -⟩ := List.forall₂_cons_left_iff.1 hfiles
      cases hfile

/-- Some words stand for the words of a command: they are what its compiled words are read as. -/
def Written.Worded (c : Written) (words : List Word) : Prop :=
  ∃ arguments form, CompilesTo (compileWords c.arguments) arguments ∧
    CommandForm.read c.name arguments = .ok form ∧
    words = Word.ofString form.name :: form.words

/-- A command of a chain comes from a command of a tree. -/
structure Written.Links (c : Written) (l : Link) : Prop where
  read : ∃ arguments, CompilesTo (compileWords c.arguments) arguments ∧
    CommandForm.read c.name arguments = .ok l.form
  files : List.Forall₂ Names c.redirections l.files

/-- A graph is the chain of some commands, with numbers that were drawn between two numberings, or
it is severed. -/
def Strung (cs : List Written) (s : ChannelSource) (t : Supply) (g : Graph) (s' : ChannelSource)
    (t' : Supply) : Prop :=
  g.Severed ∨ ∃ c : CommandChain, c.Sound ∧ g = c.graph g.background ∧
    Fresh s.next c.numbers s'.next ∧
    Fresh t.nextNode (c.links.map Link.id) t'.nextNode ∧ List.Forall₂ Written.Links cs c.links

section Strung

variable {cs ds : List Written} {s s₁ s' : ChannelSource} {t t₁ t' : Supply} {g' u : Graph}

theorem Strung.withBackground (h : Strung cs s t g s' t') (b : Bool) :
    Strung cs s t { g with background := b } s' t' := by
  rcases h with hsevered | ⟨c, hc, hg, hrest⟩
  · exact .inl hsevered
  · exact .inr ⟨c, hc, by rw [hg]; rfl, hrest⟩

/-- Chains that are piped together are a chain of the commands of both. -/
theorem Strung.pipeAppend (h : Strung cs s t g s₁ t₁) (h' : Strung ds s₁ t₁ g' s' t')
    (hdrawn : Drawn s t s₁ t₁) (hdrawn' : Drawn s₁ t₁ s' t') (hu : g.pipeAppend g' = .ok u) :
    Strung (cs ++ ds) s t u s' t' := by
  rcases h with hsevered | ⟨c, hc, hg, hnumbers, hids, hlinks⟩
  · exact absurd hu hsevered.not_piped
  rcases h' with hsevered | ⟨d, hd, hg', hnumbers', hids', hlinks'⟩
  · exact absurd hu hsevered.not_piped_into
  have hnumbers := hnumbers.append hnumbers' hdrawn.channels hdrawn'.channels
  have hids := hids.append hids' (Int.ofNat_le.2 hdrawn.nodes) (Int.ofNat_le.2 hdrawn'.nodes)
  rw [hg, hg'] at hu
  obtain ⟨hsound, hu⟩ := hc.pipeAppend_cases hd hnumbers.nodup hids.nodup hu
  rcases hu with hu | hsevered
  · refine .inr ⟨c.append d, hsound, by rw [hu]; rfl, ⟨hsound.numbers, fun k hk => ?_⟩, ?_, ?_⟩
    · rw [CommandChain.numbers_append] at hk
      refine hnumbers.drawn k (mem_append.2 ((mem_append.1 hk).imp_right ?_))
      exact mem_cons_of_mem _
    · rw [CommandChain.links_append, map_append]
      exact hids
    · exact rel_append hlinks hlinks'
  · exact .inl hsevered

end Strung

mutual

/-- **A tree becomes the chain of its commands**, or a graph without a script. -/
theorem Becomes.strung (around : List Redirection) {tree : Tree} {s s' : ChannelSource}
    {t t' : Supply} {g : Graph} :
    Becomes tree s t g s' t' → Strung (tree.commandsIn around) s t g s' t'
  | .command words targets drawn read made => by
    obtain ⟨files, hfiles, hgraph, rfl, rfl⟩ := yields_commandGraph_iff.1 made
    obtain ⟨c, d, hsound, hg⟩ := CommandChain.nodeGraph_cases hgraph.symm
    obtain ⟨hchannels, hnodes⟩ := drawn
    rcases hg with hg | hsevered
    · refine .inr ⟨_, hsound, by rw [hg]; rfl, ⟨hsound.numbers, fun k hk => ?_⟩,
        ⟨hsound.ids, fun k hk => ?_⟩,
        .cons ⟨⟨_, words, read⟩, forall₂_names targets hfiles⟩ .nil⟩
      · rw [CommandForm.next_behind]
        rcases mem_cons.1 hk with rfl | hk
        · simp only [CommandChain.single]
          omega
        · obtain rfl := mem_singleton.1 hk
          simp only [CommandChain.single]
          omega
      · obtain rfl := mem_singleton.1 hk
        simp only [CommandChain.single]
        omega
    · exact .inl hsevered
  | .pipe .nil joined => nomatch joined
  | .pipe (.cons first rest) joined =>
    (rest.strung around first.drawn (first.strung around) joined).withBackground _
  | .scope inner => by
    rw [Tree.commandsIn]
    split
    · exact (inner.strung _).withBackground true
    · exact inner.strung _

/-- Trees that are piped together become the chain of their commands. -/
theorem BecomeAll.strung (around : List Redirection) {trees : List Tree} {s₀ s s' : ChannelSource}
    {t₀ t t' : Supply} {gs : List Graph} {cs : List Written} {front g : Graph} :
    BecomeAll trees s t gs s' t' → Drawn s₀ t₀ s t → Strung cs s₀ t₀ front s t →
    (gs.map some).foldlM (fun acc h => do acc.pipeAppend (← Graph.pure? h)) front = .ok g →
    Strung (cs ++ Tree.allCommandsIn around trees) s₀ t₀ g s' t'
  | .nil, _, hfront, h => by
    cases h
    rw [Tree.allCommandsIn, append_nil]
    exact hfront
  | .cons first rest, hdrawn, hfront, h => by
    obtain ⟨joined, hjoined, h⟩ := bind_eq_ok.1 h
    rw [Tree.allCommandsIn, ← List.append_assoc]
    exact rest.strung around (hdrawn.trans first.drawn)
      (hfront.pipeAppend (first.strung around) hdrawn first.drawn hjoined) h

end

/-! ### What the script keeps -/

/-- A redirection of a script applies a redirection of a tree: it does the same with the same
descriptor, and its target is compiled. -/
inductive Applies : Redirection → Redirection → Prop
  | intro {kind : RedirectionKind} {mode fd : Value} {n : Int} {w w' : Word}
      (descriptor : fd.sameInt n) (target : CompilesTo (compileParts w) w') :
      Applies (.mk kind mode fd w) (.mk kind mode (.int n) w')

theorem Names.applies (h : Names r file) (hfd : file.fd.sameInt (standardFd file.write)) :
    Applies r (redirection file.write file.target) := by
  obtain ⟨w, rfl, hw⟩ := h
  unfold FileRedirection.mode redirection
  cases hwrite : file.write with
  | false | true =>
    rw [hwrite] at hfd
    exact .intro hfd hw

/-- A command of a script has the assignments that are written in front of a command, and applies
the redirections that are written on it and around it. -/
def Written.Kept (c : Written) : Tree → Prop
  | .command _ assignments _ redirections =>
      CompilesTo (compileAssignments c.assignments) assignments ∧
      ∀ r ∈ c.redirections ++ c.around, ∃ r' ∈ redirections, Applies r r'
  | _ => False

theorem compilesTo_nil_iff {assignments : List Assignment} :
    CompilesTo (compileAssignments assignments) [] ↔ assignments = [] := by
  constructor
  · rintro ⟨s, t, s', t', h⟩
    cases assignments with
    | nil => rfl
    | cons a =>
      obtain ⟨name, w⟩ := a
      obtain ⟨⟨w', s₁⟩, t₁, -, h⟩ := h.bind
      obtain ⟨⟨rest', s₂⟩, t₂, -, h⟩ := h.bind
      obtain ⟨heq, -⟩ := h.pure
      cases (Prod.mk.inj heq).1
  · rintro rfl
    exact ⟨⟨0, ""⟩, {}, ⟨0, ""⟩, {}, yields_pure.2 ⟨rfl, rfl⟩⟩

/-- What a script keeps of a command: its words and its own redirections.  It has no assignments,
and redirects nothing else but to pipes of the script. -/
structure Written.Emitted (script : List Tree) (c : Written) (words : List Word)
    (redirections : List Redirection) : Prop where
  words : c.Worded words
  applied : ∀ r ∈ c.redirections, ∃ r' ∈ redirections, Applies r r'
  only : ∀ r' ∈ redirections, (∃ r ∈ c.redirections, Applies r r') ∨
    ∃ w, Script.MakesPipe script w ∧ (r' = .inputFrom w ∨ r' = .outputTo w)

theorem Written.Links.emitted {pipes : List Word} (hpipes : ∀ w ∈ pipes, Script.MakesPipe script w)
    (hl : c.Links l) (he : Issues pipes l e) :
    ∃ words redirections, e = .command 0 [] words redirections ∧
    c.Emitted script words redirections := by
  obtain ⟨rs, rfl, happlied, honly⟩ := he
  obtain ⟨arguments, hcompiled, hread⟩ := hl.read
  refine ⟨_, rs, rfl, ⟨arguments, l.form, hcompiled, hread, rfl⟩, fun r hr => ?_, fun r' hr' => ?_⟩
  · obtain ⟨file, hfile, hnames⟩ := exists_of_forall₂ hl.files hr
    obtain ⟨hfd, hmem⟩ := happlied file hfile
    exact ⟨_, hmem, hnames.applies hfd⟩
  · rcases honly r' hr' with ⟨file, hfile, rfl⟩ | ⟨w, hw, hr'⟩
    · obtain ⟨r, hr, hnames⟩ := exists_of_forall₂ hl.files.flip hfile
      exact .inl ⟨r, hr, Names.applies hnames (happlied file hfile).1⟩
    · exact .inr ⟨w, hpipes w hw, hr'⟩

/-- A command of a script that has what is written on a command keeps all if nothing stands in front
of the command, and everything around it is applied. -/
theorem Written.Emitted.kept_iff {words : List Word} {redirections : List Redirection}
    (h : c.Emitted script words redirections) :
    c.Kept (.command 0 [] words redirections) ↔
      c.assignments = [] ∧ ∀ r ∈ c.around, ∃ r' ∈ redirections, Applies r r' := by
  show CompilesTo _ _ ∧ (∀ r ∈ c.redirections ++ c.around, _) ↔ _
  rw [compilesTo_nil_iff, forall_mem_append]
  exact and_congr_right fun _ => and_iff_right h.applied

/-- **A script starts the commands of its tree in order, with their words and their own
redirections.**  It has none of the assignments in front of them, and applies none of the
redirections around them, unless a command has the same redirection itself or a pipe of the script
has its name. -/
theorem compileTree_emit_commands {tree : Tree} {g g' : Graph} {s s' : ChannelSource}
    {t t' u u' : Supply} {termination : Termination} {logFile : Option String} {script : List Tree}
    (hcompile : Yields (compileTree tree s) t (.graph g, s') t')
    (hemit : Yields (g.emit termination logFile) u (g', script) u') :
    List.Forall₂ (fun c e => ∃ words redirections, e = .command 0 [] words redirections ∧
        c.Emitted script words redirections ∧
        (c.Kept e ↔ c.assignments = [] ∧ ∀ r ∈ c.around, ∃ r' ∈ redirections, Applies r r'))
      (tree.commandsIn []) ((Script.started script).map Prod.fst) := by
  rcases (becomes_of_yields tree hcompile).strung [] with hsevered | ⟨c, hc, hg, -, -, hlinks⟩
  · exact absurd hemit hsevered.not_emitted
  · rw [hg] at hemit
    obtain ⟨pipes, hpipes, hissues⟩ := hc.forall₂_issues_of_emit hemit
    refine forall₂_of_forall₂ hlinks hissues fun c l e hl he => ?_
    obtain ⟨words, redirections, rfl, hemitted⟩ := hl.emitted hpipes he
    exact ⟨words, redirections, rfl, hemitted, hemitted.kept_iff⟩

/-- The graph of a tree, and its script. -/
def emitTree (tree : Tree) : Build (Graph × List Tree) := do
  match ← compileTree tree ⟨1, ""⟩ with
  | (.graph g, _) => g.emit .cleanUp none
  | (.tree _, _) => throw .broken

theorem exists_script_of_any {tree : Tree} {test : List Tree → Bool}
    (h : ((emitTree tree).outcome {}).1.toOption.any (fun r => test r.2)) : ∃ g s' t' g' script u',
    Yields (compileTree tree ⟨1, ""⟩) {} (.graph g, s') t' ∧
      Yields (g.emit .cleanUp none) t' (g', script) u' ∧ test script := by
  obtain ⟨⟨g', script⟩, u', hy, htest⟩ := exists_yields_of_any h
  obtain ⟨⟨compiled, s'⟩, t', hcompile, hemit⟩ := hy.bind
  cases compiled with
  | graph g => exact ⟨g, s', t', g', script, u', hcompile, hemit, htest⟩
  | tree => exact absurd hemit yields_throw.1

/-- `(sort < names | head > out)` -/
def sortedHead : Tree :=
  .scope .subshell 1
    (.pipe (.bool false) [.command 1 [] [Word.ofString "sort"] [.inputFrom (Word.ofString "names")],
    .command 1 [] [Word.ofString "head"] [.outputTo (Word.ofString "out")]]) []

theorem compileTree_emit_sortedHead : ∃ g s' t' g' script u',
    Yields (compileTree sortedHead ⟨1, ""⟩) {} (.graph g, s') t' ∧
      Yields (g.emit .cleanUp none) t' (g', script) u' ∧ (Script.started script).length = 2 ∧
      List.Forall₂ Written.Kept (sortedHead.commandsIn [])
      ((Script.started script).map Prod.fst) := by
  obtain ⟨g, s', t', g', script, u', hcompile, hemit, htest⟩ := @exists_script_of_any sortedHead
    (fun script => (Script.started script).length == 2) (by decide +kernel)
  refine ⟨g, s', t', g', script, u', hcompile, hemit, by simpa using htest, ?_⟩
  have hcommands := compileTree_emit_commands hcompile hemit
  generalize (Script.started script).map Prod.fst = es at hcommands
  obtain ⟨_, _, ⟨_, _, -, -, hsort⟩, hrest, rfl⟩ := List.forall₂_cons_left_iff.1 hcommands
  obtain ⟨_, _, ⟨_, _, -, -, hhead⟩, hnil, rfl⟩ := List.forall₂_cons_left_iff.1 hrest
  obtain rfl := List.forall₂_nil_left_iff.1 hnil
  exact .cons (hsort.2 ⟨rfl, nofun⟩) (.cons (hhead.2 ⟨rfl, nofun⟩) .nil)

/-- `{ X=1 a; } > out` -/
def assigned : Tree :=
  .scope .redirected 1 (.command 1 [.mk "X" (Word.ofString "1")] [Word.ofString "a"] [])
    [.outputTo (Word.ofString "out")]

/-- The redirection is one of input. -/
def Redirection.reads : Redirection → Bool
  | .mk .file (.text "From") _ _ => true
  | _ => false

/-- A command of a script neither assigns nor redirects its output. -/
def Tree.bare : Tree → Bool
  | .command _ [] _ redirections => redirections.all Redirection.reads
  | _ => false

/-- The script of `{ X=1 a; } > out` neither assigns `X` nor redirects to `out`. -/
theorem compileTree_emit_not_kept : ∃ g s' t' g' script u' line words redirections,
    Yields (compileTree assigned ⟨1, ""⟩) {} (.graph g, s') t' ∧
      Yields (g.emit .cleanUp none) t' (g', script) u' ∧
      (Script.started script).map Prod.fst = [.command line [] words redirections] ∧
      (∀ r' ∈ redirections, ¬ Applies (.outputTo (Word.ofString "out")) r') ∧
      ¬ List.Forall₂ Written.Kept (assigned.commandsIn [])
      ((Script.started script).map Prod.fst) := by
  obtain ⟨g, s', t', g', script, u', hcompile, hemit, htest⟩ := @exists_script_of_any assigned
    (fun script => (Script.started script).length == 1 &&
      (Script.started script).all fun e => e.1.bare)
    (by decide +kernel)
  obtain ⟨hlength, hbare⟩ := Bool.and_eq_true_iff.1 htest
  obtain ⟨⟨e, rest⟩, he⟩ := List.length_eq_one_iff.1 (beq_iff_eq.1 hlength)
  have hcommand : e.bare = true := List.all_eq_true.1 hbare (e, rest) (he ▸ List.mem_cons_self)
  unfold Tree.bare at hcommand
  split at hcommand
  · next line words redirections =>
    refine ⟨g, s', t', g', script, u', line, words, redirections, hcompile,
      hemit, by rw [he]; rfl, fun r hr => ?_,
      fun h => ?_⟩
    · have hreads := List.all_eq_true.1 hcommand r hr
      rintro ⟨-, -⟩
      cases hreads
    · rw [he] at h
      obtain ⟨⟨hassignments, -⟩, -⟩ := List.forall₂_cons.1 h
      cases compilesTo_nil_iff.1 hassignments
  · cases hcommand

end ShellFlow
