import Mathlib.Data.List.Nodup
import ShellFlow.Graph.Emit
import ShellFlow.Proofs.Graph.Validity
import ShellFlow.Proofs.Words

/-!
# Emission, taken apart

What a script is made of, as an equation, and the names that its pipes get.
-/

namespace ShellFlow

open List

variable {α β ε : Type}

/-! ### Names of pipes -/

/-- A path below a directory ends in its name. -/
theorem Path.exists_join (dir name : String) : ∃ front, Path.join dir name = front ++ name := by
  unfold Path.join
  split
  · exact ⟨"", by simp⟩
  · split
    · exact ⟨dir, rfl⟩
    · exact ⟨dir ++ "/", rfl⟩

namespace Channel

variable {c : Channel Int}

theorem isEphemeral_iff : c.isEphemeral ↔ c.resource = some .ephemeral := by
  unfold isEphemeral
  split
  · next h => simp [h]
  · next h => simpa using h

/-- The name of a pipe in a script. -/
def pipeWord (c : Channel Int) : Word :=
    [.quoted (Word.ofString (Settings.standard.scratchPath c.fifoName))]

theorem toWord_of_isEphemeral (h : c.isEphemeral) (dash : Bool) :
    c.toWord dash = .ok c.pipeWord := by
  rw [toWord, isEphemeral_iff.1 h]
  rfl

/-- The code points of the name of a pipe end in the digits of its number. -/
theorem exists_codes_fifoName (c : Channel Int) :
    ∃ front, Text.codes (Settings.standard.scratchPath c.fifoName) =
      front ++ 'o'.toNat :: c.ident.repr.toList.map Char.toNat := by
  obtain ⟨directory, hpath⟩ := Path.exists_join Settings.standard.scratch c.fifoName
  have hname : (Settings.standard.scratchPath c.fifoName).toList =
      (directory ++ c.dir).toList ++ '#' :: ("fifo".toList ++ c.ident.repr.toList) := by
    rw [Settings.scratchPath, hpath, fifoName, Int.toString_eq_repr]
    simp
  have hmark : Text.mark ∉ "fifo".toList ++ c.ident.repr.toList := by
    rw [mem_append, not_or]
    refine ⟨by decide, fun hmem => ?_⟩
    rcases Int.mem_toList_repr hmem with hc | hc
    · exact absurd hc (by decide)
    · exact absurd hc (by decide)
  obtain ⟨front, hfront⟩ := Text.exists_codesOf_append (c := '#') (by decide)
    ("fifo".toList ++ c.ident.repr.toList) (directory ++ c.dir).toList
  have hcodes : Text.codesOf ("fifo".toList ++ c.ident.repr.toList) =
      ("fifo".toList ++ c.ident.repr.toList).map Char.toNat := by
    rw [← append_nil ("fifo".toList ++ c.ident.repr.toList), Text.codesOf_append hmark, append_nil]
    exact append_nil _
  refine ⟨front ++ "fif".toList.map Char.toNat, ?_⟩
  rw [Text.codes, hname, hfront, hcodes]
  simp

/-- **Pipes with different numbers have different names**, whatever their directories are. -/
theorem ident_of_pipeWord {d : Channel Int} (h : c.pipeWord = d.pipeWord) : c.ident = d.ident := by
  have hcodes : Text.codes (Settings.standard.scratchPath c.fifoName) =
      Text.codes (Settings.standard.scratchPath d.fifoName) := by
    have hword : Word.ofString (Settings.standard.scratchPath c.fifoName) =
        Word.ofString (Settings.standard.scratchPath d.fifoName) := by
      simpa [pipeWord] using h
    refine map_injective_iff.2 ?_ hword
    intro m n hmn
    exact Int.ofNat_inj.1 (Part.char.inj hmn)
  obtain ⟨front, hfront⟩ := exists_codes_fifoName c
  obtain ⟨front', hfront'⟩ := exists_codes_fifoName d
  -- the digits are what stands behind the last `o`
  have hlast : ∀ (front : List Nat) (n : Int),
      ((front ++ 'o'.toNat :: n.repr.toList.map Char.toNat).reverse.takeWhile
        (· ≠ 'o'.toNat)).reverse =
        n.repr.toList.map Char.toNat := by
    intro front n
    have hdigits : ∀ a ∈ (n.repr.toList.map Char.toNat).reverse, decide (a ≠ 'o'.toNat) = true := by
      intro a ha
      obtain ⟨c, hc, rfl⟩ := mem_map.1 (mem_reverse.1 ha)
      rw [decide_eq_true_eq]
      intro heq
      obtain rfl := Char.toNat_inj.1 heq
      rcases Int.mem_toList_repr hc with hc | hc
      · exact absurd hc (by decide)
      · exact absurd hc (by decide)
    rw [reverse_append, reverse_cons, List.append_assoc, takeWhile_append_of_pos hdigits]
    simp
  have hdigits := congrArg (fun codes => (codes.reverse.takeWhile (· ≠ 'o'.toNat)).reverse) hcodes
  simp only [hfront, hfront', hlast] at hdigits
  have hchars : c.ident.repr.toList = d.ident.repr.toList :=
    map_injective_iff.2 (fun _ _ => Char.toNat_inj.1) hdigits
  exact Int.repr_injective (String.toList_inj.1 hchars)

end Channel

/-! ### What a script is made of -/

namespace Graph

variable {g g' : Graph} {termination : Termination} {logFile : Option String} {t t' : Supply}
  {drain : Bool} {n : Node}

/-- A command is started in the background, and its process is noted. -/
def starting (c : Tree) : List Tree := [.inBackground c, collectProcess]

/-- All nodes in the order in which they are started: one of them comes last. -/
def startOrder (g : Graph) (last : Int) (n : Node) : List (Int × Node) :=
  (g.nodes.entries.filter fun m => some m.1 != some last) ++ [(last, n)]

/-- The node that is filed last may as well be started last. -/
theorem startOrder_eq (htidy : g.Tidy) {front : List (Int × Node)} {k : Int}
    (h : g.nodes.entries = front ++ [(k, n)]) : g.startOrder k n = g.nodes.entries := by
  have hnodup : ((front ++ [(k, n)]).map (·.1)).Nodup := h ▸ htidy.nodes
  rw [map_append, nodup_append'] at hnodup
  have hfront : front.filter (fun m => some m.1 != some k) = front := by
    refine filter_eq_self.2 fun m hm => ?_
    have hne : m.1 ≠ k := fun heq => hnodup.2.2 (mem_map_of_mem hm) (by simp [heq])
    simpa using hne
  rw [startOrder, h, filter_append, hfront]
  simp

theorem startNode_eq_ok {trees : List Tree} :
    g.startNode drain n = .ok trees ↔ ∃ c, g.nodeTree drain n = .ok c ∧ trees = starting c := by
  constructor
  · intro h
    obtain ⟨c, hc, h⟩ := bind_eq_ok.1 h
    exact ⟨c, hc, (pure_eq_ok.1 h).symm⟩
  · rintro ⟨c, hc, rfl⟩
    exact bind_eq_ok.2 ⟨c, hc, rfl⟩

theorem mapM_startNode {nodes : List (Int × Node)} {trees : List (List Tree)} :
    nodes.mapM (fun m => g.startNode drain m.2) = .ok trees ↔
      ∃ commands, nodes.mapM (fun m => g.nodeTree drain m.2) = .ok commands ∧
      trees = commands.map starting := by
  induction nodes generalizing trees with
  | nil =>
    show Except.ok [] = Except.ok trees ↔ ∃ commands, Except.ok [] = Except.ok commands ∧
      trees = commands.map starting
    simp [eq_comm]
  | cons _ _ ih =>
    simp only [mapM_cons, bind_eq_ok, ih, pure_eq_ok, startNode_eq_ok]
    constructor
    · rintro ⟨_, ⟨c, hc, rfl⟩, _, ⟨commands, hcommands, rfl⟩, rfl⟩
      exact ⟨c :: commands, ⟨c, hc, commands, hcommands, rfl⟩, rfl⟩
    · rintro ⟨_, ⟨c, hc, commands, hcommands, rfl⟩, rfl⟩
      exact ⟨_, ⟨c, hc, rfl⟩, _, ⟨commands, hcommands, rfl⟩, rfl⟩

/-- **A script is made of these parts.** -/
theorem yields_emit_iff {script : List Tree} :
    Yields (g.emit termination logFile) t (g', script) t' ↔ ∃ s stdin k n commands pipes,
      Yields g.channelSource t s t' ∧ g.redirectStdin s = .ok (g', stdin) ∧
        g'.lastNode t'.order = .ok (some k) ∧ g'.node? k = some n ∧
        (g'.startOrder k n).mapM (fun m => g'.nodeTree (termination == .drain) m.2) = .ok commands ∧
        g'.pipeWords = .ok pipes ∧
        script = prologue pipes ++ (initProcesses :: stdin ++ commands.flatMap starting) ++
          epilogue termination logFile := by
  constructor
  · intro h
    obtain ⟨⟨g₁, trees⟩, t₁, hbody, h⟩ := h.bind
    obtain ⟨pipes, hpipes, h⟩ := h.lift_bind
    obtain ⟨rfl, rfl, rfl⟩ := h.pure_pair
    obtain ⟨s, t₂, hs, h⟩ := hbody.bind
    obtain ⟨⟨g₂, stdin⟩, hstdin, h⟩ := h.lift_bind
    obtain ⟨last, hlast, h⟩ := (yields_get_bind.1 h).lift_bind
    obtain ⟨others, hothers, h⟩ := h.lift_bind
    obtain ⟨final, hfinal, h⟩ := h.lift_bind
    obtain ⟨rfl, rfl, rfl⟩ := h.pure_pair
    obtain ⟨n, hn, hstart⟩ := bind_eq_ok.1 hfinal
    obtain ⟨k, rfl, hk⟩ := nodeAt_eq_ok hn
    obtain ⟨c, hc, rfl⟩ := startNode_eq_ok.1 hstart
    obtain ⟨commands, hcommands, rfl⟩ := mapM_startNode.1 hothers
    refine ⟨s, stdin, k, n, commands ++ [c], pipes, hs, hstdin, hlast, hk, ?_, hpipes, ?_⟩
    · rw [startOrder, mapM_append]
      exact bind_eq_ok.2 ⟨commands, hcommands, bind_eq_ok.2 ⟨[c],
        Except.mapM_eq_ok_iff.2 (List.Forall₂.cons hc .nil), rfl⟩⟩
    · simp [List.flatMap, List.append_assoc]
  · rintro ⟨s, stdin, k, n, commands, pipes, hs, hstdin, hlast, hk, hcommands, hpipes, rfl⟩
    rw [startOrder, mapM_append] at hcommands
    obtain ⟨others, hothers, hcommands⟩ := bind_eq_ok.1 hcommands
    obtain ⟨final, hfinal, hcommands⟩ := bind_eq_ok.1 hcommands
    cases hcommands
    obtain ⟨c, _, hc, hnil, rfl⟩ := List.forall₂_cons_left_iff.1 (Except.mapM_eq_ok_iff.1 hfinal)
    obtain rfl := List.forall₂_nil_left_iff.1 hnil
    have hlastNode :
        (do g'.startNode (termination == .drain) (← g'.nodeAt (some k)) : Except Fault
          (List Tree)) =
        .ok (starting c) :=
      bind_eq_ok.2 ⟨n, node_eq_ok.2 hk, startNode_eq_ok.2 ⟨c, hc, rfl⟩⟩
    have hbody : Yields (g.body (termination == .drain)) t
        (g', initProcesses :: stdin ++ (others.map starting).flatten ++ starting c) t' :=
      yields_bind.2 ⟨s, t', hs,
        yields_lift_bind.2
          ⟨(g', stdin), hstdin, yields_get_bind.2 (yields_lift_bind.2 ⟨some k, hlast,
        yields_lift_bind.2 ⟨others.map starting, mapM_startNode.2 ⟨others, hothers, rfl⟩,
          yields_lift_bind.2 ⟨starting c, hlastNode, yields_pure.2 ⟨rfl, rfl⟩⟩⟩⟩)⟩⟩
    refine yields_bind.2 ⟨_, t', hbody, yields_lift_bind.2 ⟨pipes, hpipes, yields_pure.2 ⟨?_, rfl⟩⟩⟩
    simp [List.flatMap, List.append_assoc]

/-! ### Standard input behind a pipe -/

/-- The command that fills a pipe from standard input. -/
def stdinCall (w : Word) : Tree :=
  .simple [Word.ofString "source",
    Word.ofString (Settings.standard.program Settings.standard.redirectInput), w]

theorem redirectStdin_eq_ok {s : ChannelSource} {stdin : List Tree} :
    g.redirectStdin s = .ok (g', stdin) ↔
      (g.stdinEdge = .ok none ∧ g' = g ∧ stdin = []) ∨ ∃ i e, g.stdinEdge = .ok (some i) ∧
          g.edge? i = some e ∧ g' = g.putEdge i { e with channel := s.freshEphemeral.1 } ∧
          stdin = [stdinCall s.freshEphemeral.1.pipeWord] := by
  unfold redirectStdin
  rw [bind_eq_ok]
  constructor
  · rintro ⟨found, hfound, h⟩
    cases found with
    | none =>
      cases h
      exact .inl ⟨hfound, rfl, rfl⟩
    | some i =>
      obtain ⟨w, hw, h⟩ := bind_eq_ok.1 h
      obtain ⟨e, he, h⟩ := bind_eq_ok.1 h
      cases h
      cases hw
      exact .inr ⟨i, e, hfound, edge_eq_ok.1 he, rfl, rfl⟩
  · rintro (⟨hfound, rfl, rfl⟩ | ⟨i, e, hfound, he, rfl, rfl⟩)
    · exact ⟨none, hfound, rfl⟩
    · exact ⟨some i, hfound, bind_eq_ok.2 ⟨_, Channel.toWord_of_isEphemeral rfl false,
        bind_eq_ok.2 ⟨e, edge_eq_ok.2 he, rfl⟩⟩⟩

end Graph

end ShellFlow
