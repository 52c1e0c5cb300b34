import ShellFlow.Proofs.Compile.Becoming
import ShellFlow.Proofs.Graph.CommonFiles
import ShellFlow.Proofs.Graph.Script

/-!
# Chains of commands

A graph that comes from a command or a pipeline is a chain: every command writes the edge that the
next one reads, the first reads standard input or a file, and the last writes standard output or a
file.  The only other case is a chain whose last command writes the file that the first one reads.
Nothing leaves such a graph, so it can neither be piped nor be emitted.
-/

namespace ShellFlow

open List

/-! ### Chains -/

/-- A command of a chain, with the number of the edge that it writes, and what it writes if it is
not piped on. -/
structure Link where
  form : CommandForm
  files : List FileRedirection
  id : Int
  output : Int
  channel : Channel Int

/-- The node of a command that reads an edge. -/
def Link.node (l : Link) (input : Int) : Node := l.form.node l.files input l.output l.id

/-- Commands one behind the other, with the number of the edge that the first reads, and what it
stands for. -/
structure CommandChain where
  input : Int
  channel : Channel Int
  first : Link
  rest : List Link

namespace CommandChain

variable (c d : CommandChain)

def links : List Link := c.first :: c.rest

/-- The nodes of commands, the first of which reads an edge. -/
def nodesFrom : Int → List Link → List (Int × Node)
  | _, [] => []
  | i, l :: ls => (l.id, l.node i) :: nodesFrom l.output ls

/-- The pipe between two links. -/
def pipe (l m : Link) : Int × Edge :=
  (l.output, { channel := l.channel.makeEphemeral, source := some l.id, target := some m.id })

def between : Link → List Link → List (Int × Edge)
  | _, [] => []
  | l, m :: ls => pipe l m :: between m ls

def lastOf : Link → List Link → Link
  | l, [] => l
  | _, m :: ls => lastOf m ls

def last : Link := lastOf c.first c.rest

/-- The edge that the chain reads. -/
def entry : Int × Edge := (c.input, { channel := c.channel, target := some c.first.id })

/-- The edge that a command writes if it is not piped on. -/
def exitOf (l : Link) : Int × Edge := (l.output, { channel := l.channel, source := some l.id })

/-- The edge that the chain writes. -/
def exit : Int × Edge := exitOf c.last

def edges : List (Int × Edge) := c.entry :: (between c.first c.rest ++ [c.exit])

def numbers : List Int := c.input :: c.links.map Link.output

/-- The graph of a chain. -/
def graph (background : Bool) : Graph where
  nodes := ⟨nodesFrom c.input c.links⟩
  edges := ⟨c.edges⟩
  background := background

/-- One chain behind another. -/
def append : CommandChain := { c with rest := c.rest ++ d.links }

section Lists

variable {l m : Link} {ls ms : List Link} {i : Int}

theorem lastOf_mem (l : Link) (ls : List Link) : lastOf l ls ∈ l :: ls := by
  induction ls generalizing l with
  | nil => exact mem_cons_self
  | cons m _ ih => exact mem_cons_of_mem l (ih m)

theorem lastOf_append : lastOf l (ls ++ m :: ms) = lastOf m ms := by
  induction ls generalizing l with
  | nil => rfl
  | cons _ _ ih => exact ih

theorem between_append :
    between l (ls ++ m :: ms) = between l ls ++ pipe (lastOf l ls) m :: between m ms := by
  induction ls generalizing l with
  | nil => rfl
  | cons _ _ ih =>
    rw [cons_append, between, ih]
    rfl

theorem nodesFrom_append :
    nodesFrom i (l :: ls ++ ms) = nodesFrom i (l :: ls) ++ nodesFrom (lastOf l ls).output ms := by
  induction ls generalizing l i with
  | nil => rfl
  | cons _ _ ih =>
    rw [cons_append, nodesFrom, ih]
    rfl

theorem map_fst_nodesFrom : (nodesFrom i ls).map (·.1) = ls.map Link.id := by
  induction ls generalizing i with
  | nil => rfl
  | cons _ _ ih =>
    rw [nodesFrom, map_cons, map_cons, ih]

theorem map_fst_between :
    (between l ls).map (·.1) ++ [(lastOf l ls).output] = (l :: ls).map Link.output := by
  induction ls generalizing l with
  | nil => rfl
  | cons _ _ ih =>
    rw [between, map_cons, cons_append, lastOf, ih]
    rfl

/-- What is between commands is a pipe, written and read. -/
theorem mem_between {e : Int × Edge} (h : e ∈ between l ls) :
    e.2.channel.isEphemeral ∧ e.2.target ≠ none := by
  induction ls generalizing l with
  | nil => cases h
  | cons _ _ ih =>
    rcases mem_cons.1 h with rfl | h
    · exact ⟨rfl, nofun⟩
    · exact ih h

/-- Every node reads an edge that it does not write, and none reads what the last one writes. -/
theorem mem_nodesFrom {k : Int} {n : Node} (hnodup : (i :: (l :: ls).map Link.output).Nodup)
    (h : (k, n) ∈ nodesFrom i (l :: ls)) :
    ∃ m ∈ l :: ls, ∃ j, n = m.node j ∧ j ≠ m.output ∧ j ≠ (lastOf l ls).output := by
  obtain ⟨hi, htail⟩ := nodup_cons.1 hnodup
  have hne : ∀ m ∈ l :: ls, i ≠ m.output := fun m hm heq => hi (heq ▸ mem_map_of_mem hm)
  induction ls generalizing l i with
  | nil =>
    obtain ⟨-, rfl⟩ := Prod.mk.inj (mem_singleton.1 h)
    exact ⟨l, mem_cons_self, i, rfl, hne l mem_cons_self, hne l mem_cons_self⟩
  | cons p ls ih =>
    rcases mem_cons.1 h with heq | h
    · cases heq
      exact ⟨l, mem_cons_self, i, rfl, hne l mem_cons_self, hne _ (lastOf_mem l (p :: ls))⟩
    · obtain ⟨hl, htail'⟩ := nodup_cons.1 htail
      obtain ⟨m, hm, j, hnode, hj, hlast⟩ :=
        ih htail h hl htail' fun m hm heq => hl (heq ▸ mem_map_of_mem hm)
      exact ⟨m, mem_cons_of_mem l hm, j, hnode, hj, hlast⟩

end Lists

theorem last_mem : c.last ∈ c.links := lastOf_mem c.first c.rest

theorem map_fst_edges : c.edges.map (·.1) = c.numbers := by
  rw [edges, map_cons, map_append, numbers, links, ← map_fst_between]
  rfl

theorem links_append : (c.append d).links = c.links ++ d.links := rfl

theorem edges_append : (c.append d).edges =
    (c.entry :: between c.first c.rest ++ [pipe c.last d.first]) ++
    (between d.first d.rest ++ [d.exit]) := by
  have hbetween : between c.first (c.rest ++ d.links) = _ := between_append
  have hlast : (c.append d).last = d.last := lastOf_append
  have hexit : (c.append d).exit = d.exit := by rw [exit, hlast, exit]
  show c.entry :: (between c.first (c.rest ++ d.links) ++ [(c.append d).exit]) = _
  rw [hexit, hbetween]
  simp [last]

/-- An edge of a chain is read by the first command, or a pipe, or written by the last command. -/
theorem mem_edges {c : CommandChain} {e : Int × Edge} :
    e ∈ c.edges ↔ e = c.entry ∨ e ∈ between c.first c.rest ∨ e = c.exit := by
  rw [edges, mem_cons, mem_append, mem_singleton]

end CommandChain

/-! ### Channels and redirections -/

namespace Channel

variable {c : Channel Int}

theorem not_standard_of_isEphemeral (h : c.isEphemeral) :
    c.isStdin = false ∧ c.isStdout = false := by
  simp [isStdin, isStdout, isEphemeral_iff.1 h, Resource.isStdin, Resource.isStdout]

theorem not_standard_of_isFile (h : c.isFile) : c.isStdin = false ∧ c.isStdout = false := by
  obtain ⟨r, hr, hfile⟩ : ∃ r, c.resource = some r ∧ r.isFile = true := by
    simpa [isFile, Option.any_eq_true] using h
  cases r with
  | file => simp [isStdin, isStdout, hr, Resource.isStdin, Resource.isStdout]
  | _ => cases hfile

theorem isFile_of_resource {w : Word} (h : c.resource = some (.file w)) : c.isFile := by
  simp [isFile, h, Resource.isFile]

end Channel

/-- The descriptor of the standard stream that is written or read. -/
def standardFd (write : Bool) : Int := if write then 1 else 0

/-- Whether a channel is the standard stream that is written or read. -/
def isStandard (write : Bool) (c : Channel Int) : Bool := if write then c.isStdout else c.isStdin

/-- A channel is what redirections make of the standard stream that is written or read. -/
structure Shows (files : List FileRedirection) (write : Bool) (c : Channel Int) : Prop where
  standard_or_file : isStandard write c ∨ ∃ r ∈ files, r.write = write ∧
    c.resource = some (.file r.target)
  applied : ∀ r ∈ files, r.write = write → r.fd.sameInt (standardFd write) ∧
    c.resource = some (.file r.target)

section Shows

variable {files : List FileRedirection} {write : Bool} {c : Channel Int}

theorem isStandard_of_isFile (h : c.isFile) (write : Bool) : isStandard write c = false := by
  cases write with
  | false => exact (Channel.not_standard_of_isFile h).1
  | true => exact (Channel.not_standard_of_isFile h).2

/-- What is read is not standard output, and what is written is not standard input. -/
theorem Shows.not_other (h : Shows files write c) : isStandard (!write) c = false := by
  rcases h.standard_or_file with hstandard | ⟨r, -, -, hfile⟩
  · cases write with
    | false => exact Channel.isStdout_of_isStdin hstandard
    | true =>
      have hstdout : c.isStdout = true := hstandard
      have hnot : ¬ c.isStdin = true :=
        fun hstdin => by simp [Channel.isStdout_of_isStdin hstdin] at hstdout
      exact Bool.eq_false_iff.2 hnot
  · exact isStandard_of_isFile (Channel.isFile_of_resource hfile) _

theorem Shows.no_redirection (h : Shows files write c) (hstandard : isStandard write c) :
    ∀ r ∈ files, r.write ≠ write := by
  intro r hr hwrite
  have hfile := (h.applied r hr hwrite).2
  rw [isStandard_of_isFile (Channel.isFile_of_resource hfile)] at hstandard
  cases hstandard

end Shows

namespace CommandChain

/-- Between two commands nothing is redirected. -/
def Led : Link → List Link → Prop
  | _, [] => True
  | l, m :: ls => l.channel.isStdout ∧ (∀ r ∈ m.files, r.write) ∧ Led m ls

/-- Every number is used once, and what the commands of a chain write is what their redirections
make of it. -/
structure Wired (c : CommandChain) : Prop where
  numbers : c.numbers.Nodup
  ids : (c.links.map Link.id).Nodup
  named : ∀ l ∈ c.links, l.channel.ident = l.output
  writes : ∀ l ∈ c.links, Shows l.files true l.channel
  led : Led c.first c.rest

/-- Besides, what the first command reads is what its redirections make of it. -/
structure Sound (c : CommandChain) : Prop extends Wired c where
  reads : Shows c.first.files false c.channel

end CommandChain

/-! ### Redirections of a command -/

/-- What redirections make of a channel: the last that concerns it, if there is one, and there is
only one. -/
structure Redirected (rs : List FileRedirection) (write : Bool) (c c' : Channel Int) : Prop where
  ident : c'.ident = c.ident
  kept : (∀ r ∈ rs, r.write ≠ write) → c' = c
  applied : ∀ r ∈ rs, r.write = write →
    isStandard write c ∧ r.fd.sameInt (standardFd write) ∧ c'.resource = some (.file r.target)

section Redirected

variable {r : FileRedirection} {rs : List FileRedirection} {write : Bool} {c c' : Channel Int}

theorem Redirected.nil (write : Bool) (c : Channel Int) : Redirected [] write c c :=
    ⟨rfl, fun _ => rfl, nofun⟩

/-- A redirection of another stream. -/
theorem Redirected.cons_other (h : Redirected rs write c c') (hr : r.write ≠ write) :
    Redirected (r :: rs) write c c' := by
  refine ⟨h.ident, ?_, ?_⟩
  · intro hnone
    exact h.kept fun r' hr' => hnone r' (mem_cons_of_mem r hr')
  · intro r' hr' hwrite
    rcases mem_cons.1 hr' with rfl | hr'
    · exact absurd hwrite hr
    · exact h.applied r' hr' hwrite

/-- A redirection of this stream, behind which there is no other of it. -/
theorem Redirected.cons_self
    (h : Redirected rs write { c with resource := some (.file r.target) } c')
    (hr : r.write = write) (hstandard : isStandard write c)
      (hfd : r.fd.sameInt (standardFd write)) :
    Redirected (r :: rs) write c c' := by
  have hnone : ∀ r' ∈ rs, r'.write ≠ write := by
    intro r' hr' hwrite
    have hfile := (h.applied r' hr' hwrite).1
    cases write <;> cases hfile
  refine ⟨h.ident, ?_, ?_⟩
  · intro hnot
    exact absurd hr (hnot r mem_cons_self)
  · intro r' hr' hwrite
    rcases mem_cons.1 hr' with rfl | hr'
    · exact ⟨hstandard, hfd, by rw [h.kept hnone]⟩
    · exact absurd hwrite (hnone r' hr')

/-- All redirections of a command, applied to a standard stream. -/
theorem Redirected.shows (h : Redirected rs write c c') (hc : isStandard write c) :
    Shows rs write c' := by
  constructor
  · by_cases hsome : ∃ r ∈ rs, r.write = write
    · obtain ⟨r, hr, hwrite⟩ := hsome
      exact .inr ⟨r, hr, hwrite, (h.applied r hr hwrite).2.2⟩
    · left
      rw [h.kept fun r hr hwrite => hsome ⟨r, hr, hwrite⟩]
      exact hc
  · exact fun r hr hwrite => (h.applied r hr hwrite).2

end Redirected

theorem Graph.redirectEdges_singleton {g g' : Graph} {p : Channel Int → Bool} {w : Word}
    {i : Int} {k : Nat} (h : g.redirectEdges p w [i] = .ok (g', k)) (hk : k ≠ 0) :
    ∃ e, g.edge? i = some e ∧ p e.channel ∧
      g' = g.putEdge i { e with channel := { e.channel with resource := some (.file w) } } := by
  obtain ⟨acc, hstep, h⟩ := bind_eq_ok.1 h
  cases h
  obtain ⟨e, he, hstep⟩ := bind_eq_ok.1 hstep
  split at hstep
  · next hp =>
    cases hstep
    exact ⟨e, Graph.edge_eq_ok.1 he, hp, rfl⟩
  · exact absurd (Prod.mk.inj (pure_eq_ok.1 hstep)).2.symm hk

namespace CommandChain

theorem putEdge_entry (c : CommandChain) (b : Bool) (d : Channel Int) :
    (c.graph b).putEdge c.input { c.entry.2 with channel := d } = { c with channel := d }.graph b :=
  congrArg (fun edges => Graph.mk _ edges b) (congrArg Table.mk (if_pos rfl))

def single (input : Int) (channel : Channel Int) (l : Link) : CommandChain where
  input := input
  channel := channel
  first := l
  rest := []

section Single

variable {i : Int} {c : Channel Int} {l : Link} {b : Bool} {g' : Graph}

section

variable (hne : i ≠ l.output)
include hne

theorem putEdge_exit_single (d : Channel Int) :
    ((single i c l).graph b).putEdge l.output { channel := d, source := some l.id } =
      (single i c { l with channel := d }).graph b := by
  simp [Graph.putEdge, graph, single, edges, entry, exit, exitOf, last, lastOf, between, links,
    Table.insert, Table.put, hne, nodesFrom, Link.node]

/-- One redirection makes a standard stream of a command a file. -/
theorem redirect_single {r : FileRedirection}
    (h : ((single i c l).graph b).redirect (l.node i) r = .ok g') :
    (r.write ∧ r.fd.sameInt 1 ∧ l.channel.isStdout ∧
      g' = (single i c
        { l with channel := { l.channel with resource := some (.file r.target) } }).graph b) ∨
    (r.write = false ∧ r.fd.sameInt 0 ∧ c.isStdin ∧
      g' = (single i { c with resource := some (.file r.target) } l).graph b) := by
  unfold Graph.redirect at h
  split at h
  · next hwrite =>
    obtain ⟨hwrite, hfd⟩ := Bool.and_eq_true_iff.1 hwrite
    obtain ⟨⟨g₁, k⟩, hedges, h⟩ := bind_eq_ok.1 h
    obtain ⟨_, hk, h⟩ := bind_eq_ok.1 h
    cases h
    rw [Link.node, CommandForm.outputs_node hne] at hedges
    obtain ⟨e, he, hstdout, rfl⟩ :=
      Graph.redirectEdges_singleton hedges (by simpa [require_eq_ok] using hk)
    obtain rfl := Option.some.inj (((if_neg hne).trans (if_pos rfl)).symm.trans he)
    exact .inl ⟨hwrite, hfd, hstdout, putEdge_exit_single hne _⟩
  · split at h
    · next hread =>
      obtain ⟨hread, hfd⟩ := Bool.and_eq_true_iff.1 hread
      obtain ⟨⟨g₁, k⟩, hedges, h⟩ := bind_eq_ok.1 h
      obtain ⟨_, hk, h⟩ := bind_eq_ok.1 h
      cases h
      rw [Link.node, CommandForm.inputs_node hne] at hedges
      obtain ⟨e, he, hstdin, rfl⟩ :=
        Graph.redirectEdges_singleton hedges (by simpa [require_eq_ok] using hk)
      obtain rfl := Option.some.inj ((if_pos rfl).symm.trans he)
      exact .inr ⟨by simpa using hread, hfd, hstdin, putEdge_entry (single i c l) b _⟩
    · obtain ⟨_, -, h⟩ := bind_eq_ok.1 h
      cases h

/-- All redirections of a command. -/
theorem redirectNode_single {rs : List FileRedirection}
    (h : rs.foldlM (fun g r => g.redirect (l.node i) r) ((single i c l).graph b) = .ok g') :
    ∃ c' d', g' = (single i c' { l with channel := d' }).graph b ∧ Redirected rs false c c' ∧
      Redirected rs true l.channel d' := by
  induction rs generalizing c l with
  | nil =>
    cases h
    exact ⟨c, l.channel, rfl, .nil false c, .nil true l.channel⟩
  | cons r _ ih =>
    obtain ⟨g₁, hfirst, h⟩ := bind_eq_ok.1 h
    rcases redirect_single hne hfirst with ⟨hwrite, hfd, hstdout, rfl⟩ | ⟨hread, hfd, hstdin, rfl⟩
    · obtain ⟨c', d', hg', hreads, hwrites⟩ :=
        @ih c { l with channel := { l.channel with resource := some (.file r.target) } } hne h
      exact ⟨c', d', hg', hreads.cons_other (by simp [hwrite]),
        hwrites.cons_self hwrite hstdout hfd⟩
    · obtain ⟨c', d', hg', hreads, hwrites⟩ := ih hne h
      exact ⟨c', d', hg', hreads.cons_self hread hstdin hfd, hwrites.cons_other (by simp [hread])⟩

end

end Single

/-! ### Joining files in a chain -/

end CommandChain

/-- Nothing enters or leaves a graph by a standard stream, and an edge that nobody reads is written
by nobody. -/
def Graph.Severed (g : Graph) : Prop :=
  ∀ e ∈ g.edges.values, e.channel.isStdin = false ∧ e.channel.isStdout = false ∧
    (e.target = none → e.source = none)

namespace CommandChain

variable {c d : CommandChain} {b b' : Bool} {g : Graph} {e : Int × Edge}

theorem Wired.tidy (h : c.Wired) (b : Bool) : (c.graph b).Tidy :=
  ⟨by simpa [Table.keys, graph, map_fst_nodesFrom] using h.ids,
    by simpa [Table.keys, graph, map_fst_edges] using h.numbers⟩

theorem Wired.edge_iff (h : c.Wired) {i : Int} {e : Edge} : (c.graph b).edge? i = some e ↔
    (i, e) ∈ c.edges :=
  ⟨Table.mem_entries_of_get?, Table.get?_of_mem (h.tidy b).edges⟩

/-- The files of a chain are what it reads at first and what it writes at last. -/
theorem file_of_mem_edges (h : e ∈ c.edges) (hfile : e.2.channel.isFile) :
    e = c.entry ∨ e = c.exit := by
  rcases mem_edges.1 h with rfl | h | rfl
  · exact .inl rfl
  · simp [Channel.isFile, Channel.isEphemeral_iff.1 (mem_between h).1, Resource.isFile] at hfile
  · exact .inr rfl

theorem Wired.writesOnly (h : c.Wired) (b : Bool) : (c.graph b).WritesOnly c.last.output := by
  have hnode : ∀ k n, (c.graph b).node? k = some n →
      ∃ m ∈ c.links, ∃ j, n = m.node j ∧ j ≠ m.output ∧ j ≠ c.last.output :=
    fun k n hn => mem_nodesFrom h.numbers (Table.mem_entries_of_get? hn)
  have houtputs : ∀ {k i}, i ∈ (c.graph b).outputsAt k → i ∈ c.links.map Link.output := by
    intro k i hi
    obtain ⟨n, hn, hmem⟩ := Graph.mem_outputsAt.1 hi
    obtain ⟨m, hm, j, rfl, hj, -⟩ := hnode k n hn
    rw [Link.node, CommandForm.outputs_node hj, mem_singleton] at hmem
    exact hmem ▸ mem_map_of_mem hm
  refine ⟨fun k i hi => ?_, fun k hi => ?_, fun k i hi hfile => ?_⟩
  · rw [Table.keys, graph, map_fst_edges]
    exact mem_cons_of_mem _ (houtputs hi)
  · obtain ⟨n, hn, hmem⟩ := Graph.mem_inputsAt.1 hi
    obtain ⟨m, -, j, rfl, hj, hlast⟩ := hnode k n hn
    rw [Link.node, CommandForm.inputs_node hj, mem_singleton] at hmem
    exact hlast hmem.symm
  · obtain ⟨e, he, hfile⟩ := Graph.isFile_iff.1 hfile
    rcases file_of_mem_edges (h.edge_iff.1 he) hfile with heq | heq
    · -- what a command writes is not what the first one reads
      obtain rfl : i = c.input := congrArg Prod.fst heq
      exact absurd (houtputs hi) (nodup_cons.1 h.numbers).1
    · exact congrArg Prod.fst heq

/-- **Joining files leaves a chain as it is, or it severs the chain.** -/
theorem Wired.combineCommonFiles_cases (h : c.Wired) (hg : (c.graph b).combineCommonFiles = .ok g) :
    g = c.graph b ∨ g.Severed := by
  have hsevering := Graph.combineCommonFiles_severing (h.tidy b).nodes (h.writesOnly b) hg
  refine hsevering.severed.imp_right ?_
  rintro ⟨hunwritten, hexit, k, i, hi, hfile⟩ e he
  have hentry : c.channel.isFile = true := by
    obtain ⟨e, he, hfile⟩ := Graph.isFile_iff.1 hfile
    rcases file_of_mem_edges (h.edge_iff.1 he) hfile with heq | heq
    · rw [(Prod.mk.inj heq).2] at hfile
      exact hfile
    · obtain rfl : i = c.last.output := congrArg Prod.fst heq
      exact absurd hi ((h.writesOnly b).unread k)
  have hlast : c.last.channel.isFile = true := by
    obtain ⟨e, he, hexit⟩ := Graph.isFile_iff.1 hexit
    have hmem : c.exit ∈ c.edges := mem_edges.2 (.inr (.inr rfl))
    obtain rfl := Option.some.inj (he.symm.trans ((h.edge_iff (b := b)).2 hmem))
    exact hexit
  obtain ⟨⟨i, e'⟩, hmem, rfl⟩ := mem_map.1 he
  have he' : g.edge? i = some e' := Table.get?_of_mem (hsevering.edges ▸ (h.tidy b).edges) hmem
  have hkept := hsevering.edge i
  rw [he', Option.map_some, eq_comm, Option.map_eq_some_iff] at hkept
  obtain ⟨d, hd, hkept⟩ := hkept
  obtain ⟨hchannel, htarget⟩ := Prod.mk.inj hkept
  rw [← hchannel, ← htarget]
  rcases mem_edges.1 (h.edge_iff.1 hd) with heq | hbetween | heq
  · cases heq
    obtain ⟨hstdin, hstdout⟩ := Channel.not_standard_of_isFile hentry
    exact ⟨hstdin, hstdout, nofun⟩
  · obtain ⟨hpipe, hread⟩ := mem_between hbetween
    obtain ⟨hstdin, hstdout⟩ := Channel.not_standard_of_isEphemeral hpipe
    exact ⟨hstdin, hstdout, fun hnone => absurd hnone hread⟩
  · cases heq
    obtain ⟨hstdin, hstdout⟩ := Channel.not_standard_of_isFile hlast
    exact ⟨hstdin, hstdout, fun _ => by simpa [Graph.view, he'] using hunwritten⟩

/-! ### The graph of a command -/

/-- A command between two channels of its own, before it is redirected. -/
def fresh (form : CommandForm) (files : List FileRedirection) (s : ChannelSource) (id : Int) :
    CommandChain :=
  single s.next (CommandForm.stdinOf s) ⟨form, files, id, s.next + 1, CommandForm.stdoutOf s⟩

/-- A node between two channels is connected to both. -/
theorem connected_fresh {form : CommandForm} {files : List FileRedirection} {s : ChannelSource}
    {id : Int} : ∃ g₁, Graph.setTargets
        { nodes := .ofList [(id, form.node files s.next (s.next + 1) id)],
          edges := CommandForm.channels s }
        [s.next] (some id) = .ok g₁ ∧
      g₁.setSources [s.next + 1] (some id) = .ok ((fresh form files s id).graph false) := by
  have hne : s.next ≠ s.next + 1 := by omega
  refine ⟨_, bind_eq_ok.2
    ⟨_, bind_eq_ok.2 ⟨{ channel := CommandForm.stdinOf s }, Graph.edge_eq_ok.2 ?_, rfl⟩, rfl⟩,
    bind_eq_ok.2 ⟨_,
      bind_eq_ok.2 ⟨{ channel := CommandForm.stdoutOf s }, Graph.edge_eq_ok.2 ?_, rfl⟩, ?_⟩⟩
  · simp [Graph.edge?, CommandForm.channels, Table.ofList, Table.insert, Table.empty, Table.put,
      hne, Table.get?, Table.lookup]
  · simp [Graph.edge?, Graph.putEdge, CommandForm.channels, Table.ofList, Table.insert, Table.empty,
      Table.put, hne, Table.get?, Table.lookup]
  · simp [Graph.putEdge, CommandForm.channels, Table.ofList, Table.insert, Table.empty, Table.put,
      hne, pure, Except.pure, fresh, single, graph, edges, entry, exit, exitOf, last, lastOf,
      between, links, nodesFrom, Link.node]

/-- **The graph of a command is a chain of this command, or severed.** -/
theorem nodeGraph_cases {form : CommandForm} {files : List FileRedirection} {s : ChannelSource}
    {id : Int} (h : nodeGraph (form.node files s.next (s.next + 1) id) (CommandForm.channels s) =
      .ok g) :
    ∃ c d, (single s.next c ⟨form, files, id, s.next + 1, d⟩).Sound ∧
      (g = (single s.next c ⟨form, files, id, s.next + 1, d⟩).graph false ∨ g.Severed) := by
  have hne : s.next ≠ s.next + 1 := by omega
  obtain ⟨g₁, htargets, hsources⟩ := @connected_fresh form files s id
  obtain ⟨g₂, h₂, h⟩ := bind_eq_ok.1 h
  rw [CommandForm.inputs_node hne] at h₂
  obtain rfl := Except.ok.inj (h₂.symm.trans htargets)
  obtain ⟨g₃, h₃, h⟩ := bind_eq_ok.1 h
  rw [CommandForm.outputs_node hne] at h₃
  obtain rfl := Except.ok.inj (h₃.symm.trans hsources)
  obtain ⟨g₄, hnodes, h⟩ := bind_eq_ok.1 h
  obtain ⟨g₅, hredirect, hnil⟩ := bind_eq_ok.1 hnodes
  cases hnil
  obtain ⟨c, d, rfl, hreads, hwrites⟩ :=
    @redirectNode_single s.next _ ⟨form, files, id, s.next + 1, CommandForm.stdoutOf s⟩ false _ hne
      files hredirect
  have hsound : (single s.next c ⟨form, files, id, s.next + 1, d⟩).Sound := by
    refine ⟨⟨by simp [numbers, links, single], by simp [links, single], fun l hl => ?_,
      fun l hl => ?_, trivial⟩, hreads.shows rfl⟩
    · obtain rfl := mem_singleton.1 hl
      exact hwrites.ident
    · obtain rfl := mem_singleton.1 hl
      exact hwrites.shows rfl
  exact ⟨c, d, hsound, hsound.combineCommonFiles_cases h⟩

/-! ### Chains piped together -/

/-- Standard output of a chain is what it writes at last. -/
theorem Sound.stdout_of_mem (h : c.Sound) (he : e ∈ c.edges) (hstdout : e.2.channel.isStdout) :
    e = c.exit := by
  rcases mem_edges.1 he with rfl | he | rfl
  · rw [show c.entry.2.channel.isStdout = false from h.reads.not_other] at hstdout
    cases hstdout
  · rw [(Channel.not_standard_of_isEphemeral (mem_between he).1).2] at hstdout
    cases hstdout
  · rfl

/-- Standard input of a chain is what it reads at first. -/
theorem Sound.stdin_of_mem (h : c.Sound) (he : e ∈ c.edges) (hstdin : e.2.channel.isStdin) :
    e = c.entry := by
  rcases mem_edges.1 he with rfl | he | rfl
  · rfl
  · rw [(Channel.not_standard_of_isEphemeral (mem_between he).1).1] at hstdin
    cases hstdin
  · rw [show c.exit.2.channel.isStdin = false from (h.writes c.last c.last_mem).not_other] at hstdin
    cases hstdin

theorem led_append {l m : Link} {ls ms : List Link} (h : Led l ls)
    (hstdout : (lastOf l ls).channel.isStdout) (hm : ∀ r ∈ m.files, r.write) (hms : Led m ms) :
    Led l (ls ++ m :: ms) := by
  induction ls generalizing l with
  | nil => exact ⟨hstdout, hm, hms⟩
  | cons _ _ ih => exact ⟨h.1, h.2.1, ih h.2.2 hstdout⟩

theorem numbers_append (c d : CommandChain) :
    (c.append d).numbers = c.numbers ++ d.links.map Link.output := by
  rw [numbers, links_append, map_append]
  rfl

theorem Sound.append (hc : c.Sound) (hd : d.Sound) (hnumbers : (c.numbers ++ d.numbers).Nodup)
    (hids : (c.links.map Link.id ++ d.links.map Link.id).Nodup) (hstdout : c.last.channel.isStdout)
    (hstdin : d.channel.isStdin) : (c.append d).Sound := by
  refine ⟨⟨?_, ?_, forall_mem_append.2 ⟨hc.named, hd.named⟩,
    forall_mem_append.2 ⟨hc.writes, hd.writes⟩, ?_⟩, hc.reads⟩
  · rw [numbers_append]
    exact hnumbers.sublist ((List.Sublist.refl _).append (sublist_cons_self _ _))
  · rw [links_append, map_append]
    exact hids
  · refine led_append hc.led hstdout (fun r hr => ?_) hd.led
    simpa using hd.reads.no_redirection hstdin r hr

theorem Sound.nodes_seam (hd : d.Sound) (hcd : (c.append d).Sound)
    (hfree : c.last.output ≠ d.first.output) :
      (c.graph b).nodes.merge
      ((d.graph b').leadIn c.last.output d.input (d.first.node d.input)).nodes =
      ((c.append d).graph b).nodes := by
  have hne : d.input ≠ d.first.output := by
    intro heq
    exact (nodup_cons.1 hd.numbers).1 (mem_map.2 ⟨d.first, mem_cons_self, heq.symm⟩)
  have hreader : (d.first.node d.input).replaceEdge d.input c.last.output =
    d.first.node c.last.output :=
    CommandForm.node_replaceEdge hne hfree d.first.id
  have hput : ((d.graph b').leadIn c.last.output d.input (d.first.node d.input)).nodes =
      ⟨nodesFrom c.last.output d.links⟩ := by
    show (d.graph b').nodes.insert d.first.id _ = _
    rw [hreader]
    exact congrArg Table.mk (if_pos rfl)
  have hkeys : ((c.append d).graph b).nodes.keys.Nodup := (hcd.tidy b).nodes
  have hwhole : ((c.append d).graph b).nodes =
    (c.graph b).nodes.append ⟨nodesFrom c.last.output d.links⟩ :=
    congrArg Table.mk nodesFrom_append
  rw [hwhole, Table.keys_append] at hkeys
  rw [hput, hwhole, Table.merge_eq_append hkeys]

theorem Sound.edges_seam (hc : c.Sound) (hd : d.Sound) (hcd : (c.append d).Sound) :
    ((c.graph b).leadOut c.last.output c.exit.2 d.entry.2).edges.merge
    ((d.graph b').edges.erase d.input) =
      ((c.append d).graph b).edges := by
  have hput : ((c.graph b).leadOut c.last.output c.exit.2 d.entry.2).edges =
      ⟨c.entry :: between c.first c.rest ++ [pipe c.last d.first]⟩ := by
    have hnumbers := hc.numbers
    rw [← map_fst_edges, edges, ← cons_append, map_append, nodup_append] at hnumbers
    have hnew : c.last.output ∉ (c.entry :: between c.first c.rest).map (·.1) :=
      fun hmem => hnumbers.2.2 _ hmem c.last.output mem_cons_self rfl
    exact congrArg Table.mk (Table.put_append_cons hnew _ _)
  have herase : (d.graph b').edges.erase d.input = ⟨between d.first d.rest ++ [d.exit]⟩ := by
    have hnumbers := hd.numbers
    rw [← map_fst_edges, edges, map_cons, nodup_cons] at hnumbers
    exact Table.erase_cons_self hnumbers.1
  have hkeys : ((c.append d).graph b).edges.keys.Nodup := (hcd.tidy b).edges
  have hwhole : ((c.append d).graph b).edges =
      (⟨c.entry :: between c.first c.rest ++ [pipe c.last d.first]⟩ : Table Int Edge).append
        ⟨between d.first d.rest ++ [d.exit]⟩ :=
    congrArg Table.mk (edges_append c d)
  rw [hwhole, Table.keys_append] at hkeys
  rw [hput, herase, hwhole, Table.merge_eq_append hkeys]

/-- Along the seam, two chains are one. -/
theorem Sound.union_seam (hc : c.Sound) (hd : d.Sound) (hcd : (c.append d).Sound)
    (hfree : c.last.output ≠ d.first.output) :
    ((c.graph b).leadOut c.last.output c.exit.2 d.entry.2).union
        ((d.graph b').leadIn c.last.output d.input (d.first.node d.input)) =
      ((c.append d).graph b).combineCommonFiles :=
  congrArg₂ (fun nodes edges => Graph.combineCommonFiles ⟨nodes, edges, b⟩)
    (hd.nodes_seam (b := b) hcd hfree)
    (hc.edges_seam hd hcd)

/-- **One chain piped into another is a chain, or severed.** -/
theorem Sound.pipeAppend_cases (hc : c.Sound) (hd : d.Sound)
    (hnumbers : (c.numbers ++ d.numbers).Nodup)
    (hids : (c.links.map Link.id ++ d.links.map Link.id).Nodup)
    (h : (c.graph b).pipeAppend (d.graph b') = .ok g) :
    (c.append d).Sound ∧ (g = (c.append d).graph b ∨ g.Severed) := by
  obtain ⟨out, into, o, e, reader, hseam, h⟩ := Graph.pipeAppend_eq_ok h
  obtain ⟨o', ho', hstdout⟩ := (Graph.mem_edgesWhere (hc.tidy b)).1
    (mem_of_getLast? (Graph.stdoutEdge_eq_ok.1 hseam.stdout).2)
  have hinto : into ∈ (d.graph b').edgesWhere Channel.isStdin := by
    rw [(Graph.stdinEdge_eq_ok.1 hseam.stdin).2]
    exact mem_cons_self
  obtain ⟨e', he', hstdin⟩ := (Graph.mem_edgesWhere (hd.tidy b')).1 hinto
  obtain rfl := Option.some.inj (hseam.left.symm.trans ho')
  obtain rfl := Option.some.inj (hseam.right.symm.trans he')
  have hexit := hc.stdout_of_mem (hc.edge_iff.1 ho') hstdout
  have hentry := hd.stdin_of_mem (hd.edge_iff.1 he') hstdin
  cases hexit
  cases hentry
  obtain ⟨k, hk, hreader⟩ := hseam.reads
  cases hk
  obtain rfl := Option.mem_unique hreader (Table.get?_of_mem (hd.tidy _).nodes mem_cons_self)
  have hcd := hc.append hd hnumbers hids hstdout hstdin
  have hfree : c.last.output ≠ d.first.output := by
    intro heq
    refine (nodup_append.1 hnumbers).2.2 c.last.output ?_ d.first.output ?_ heq
    · exact mem_cons_of_mem _ (mem_map_of_mem c.last_mem)
    · exact mem_cons_of_mem _ (mem_cons_self)
  have hunion := (hc.union_seam hd hcd hfree).symm.trans h
  exact ⟨hcd, hcd.combineCommonFiles_cases hunion⟩

end CommandChain

/-! ### Severed graphs -/

namespace Graph.Severed

variable {g g' u : Graph}

theorem edgesWhere_eq_nil (h : g.Severed) :
    g.edgesWhere Channel.isStdin = [] ∧ g.edgesWhere Channel.isStdout = [] := by
  have hmem : ∀ e ∈ g.edges.entries, e.2.channel.isStdin = false ∧ e.2.channel.isStdout = false :=
    fun e he => ⟨(h e.2 (mem_map_of_mem he)).1, (h e.2 (mem_map_of_mem he)).2.1⟩
  constructor
  · exact map_eq_nil_iff.2 (filter_eq_nil_iff.2 fun e he => by simp [(hmem e he).1])
  · exact map_eq_nil_iff.2 (filter_eq_nil_iff.2 fun e he => by simp [(hmem e he).2])

theorem not_piped (h : g.Severed) : g.pipeAppend g' ≠ .ok u := by
  intro hu
  obtain ⟨out, into, o, e, reader, hseam, -⟩ := pipeAppend_eq_ok hu
  have hout := (stdoutEdge_eq_ok.1 hseam.stdout).2
  rw [h.edgesWhere_eq_nil.2] at hout
  cases hout

theorem not_piped_into (h : g.Severed) : g'.pipeAppend g ≠ .ok u := by
  intro hu
  obtain ⟨out, into, o, e, reader, hseam, -⟩ := pipeAppend_eq_ok hu
  have hinto := (stdinEdge_eq_ok.1 hseam.stdin).2
  rw [h.edgesWhere_eq_nil.1] at hinto
  cases hinto

end Graph.Severed

end ShellFlow
