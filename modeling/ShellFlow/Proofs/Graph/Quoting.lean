import ShellFlow.Graph.Node
import ShellFlow.Proofs.Outcome
import ShellFlow.Variables.Environment

/-!
# Wrapped commands as one argument

A wrapped command is put between two quotes as it is, with a blank in front of each of its words and
of the closing quote.  A shell that reads the argument gets these words back unless one of them
holds a quote of its own, which ends the argument there.
-/

namespace ShellFlow

open List

def Operand.string? : Operand → Option Word
  | .literal w | .positional (.literal w) => some w
  | _ => none

/-- The words of a flag, or of an option whose argument is a string. -/
def Flag.strings? : Flag → Option (List Word)
  | .flag name => some [Word.ofString name]
  | .connected name (.literal w) => some [Word.ofString name, w]
  | _ => none

/-- The words of a command all of whose arguments are strings. -/
def Invocation.strings? (i : Invocation) : Option (List Word) := do
  let flags ← i.flags.mapM Flag.strings?
  let operands ← i.operands.mapM Operand.string?
  return Word.ofString i.command :: flags.flatten ++ operands

/-- Texts with a blank in front of each and one behind the last. -/
def spaced (texts : List String) : String :=
    String.ofList (texts.flatMap (fun t => ' ' :: t.toList) ++ [' '])

variable {i : Invocation} {parts : List Word} {texts : List String}

theorem Invocation.toWrapped_of_strings (h : i.strings? = some parts) (channel : ChannelLookup) :
    i.toWrapped channel = .ok (quotedCommand parts) := by
  simp only [strings?, Option.bind_eq_bind, Option.bind_eq_some_iff, Option.pure_def,
    Option.some.injEq] at h
  obtain ⟨flags, hflags, operands, hoperands, rfl⟩ := h
  have hflag : ∀ f ws, Flag.strings? f = some ws → f.toWrappedWords channel = .ok ws := by
    intro f ws hf
    unfold Flag.strings? at hf
    split at hf <;> cases hf <;> rfl
  have hoperand : ∀ o w, Operand.string? o = some w → o.toWrappedWord channel = .ok w := by
    intro o w ho
    unfold Operand.string? at ho
    split at ho <;> cases ho <;> rfl
  rw [toWrapped, Except.mapM_eq_ok_of_some hflag hflags,
    Except.mapM_eq_ok_of_some hoperand hoperands]
  rfl

/-! ### Texts -/

theorem Word.format_append {u v : Word} {a b : String} (hu : format u = .ok a)
    (hv : format v = .ok b) : format (u ++ v) = .ok (a ++ b) := by
  induction u generalizing a with
  | nil =>
    cases hu
    rw [nil_append, hv, String.empty_append]
  | cons p u ih =>
    rw [format] at hu
    obtain ⟨first, hfirst, hu⟩ := bind_eq_ok.1 hu
    obtain ⟨rest, hrest, hu⟩ := bind_eq_ok.1 hu
    obtain rfl := pure_eq_ok.1 hu
    rw [cons_append, format, hfirst, ih hrest, String.append_assoc]
    rfl

theorem format_quotedCommand (h : parts.mapM Word.format = .ok texts) :
    Word.format (Invocation.quotedCommand parts) = .ok ("'" ++ spaced texts ++ "'") := by
  have hparts : Word.format (parts.flatMap fun w => .char 32 :: w) =
      .ok (String.ofList (texts.flatMap fun t => ' ' :: t.toList)) := by
    induction parts generalizing texts with
    | nil =>
      cases h
      rfl
    | cons w _ ih =>
      obtain ⟨t, rest, ht, hrest, rfl⟩ := mapM_cons_eq_ok.1 h
      have hblank : Word.format (.char 32 :: w) = .ok (" " ++ t) :=
        @Word.format_append [.char 32] w _ _ rfl ht
      rw [flatMap_cons, Word.format_append hblank (ih hrest), Except.ok.injEq, ← String.toList_inj]
      simp
  have hfront : Word.format (Word.ofString "'") = .ok "'" := by decide +kernel
  have hback : Word.format (Word.ofString " '") = .ok " '" := by decide +kernel
  rw [Invocation.quotedCommand, Word.format_append (Word.format_append hfront hparts) hback, spaced]
  simp [← String.toList_inj]

theorem quote_notMem_spaced : '\'' ∉ (spaced texts).toList ↔ ∀ t ∈ texts, '\'' ∉ t.toList := by
  simp [spaced]

/-- A text without quotes is read back from between two. -/
theorem shellTokens_quoted {body : String} (h : '\'' ∉ body.toList) :
    shellTokens ("'" ++ body ++ "'") = .ok [body] := by
  have hread : ∀ (cs current : List Char), '\'' ∉ cs →
      tokensFrom (.quotation '\'') current (cs ++ ['\'']) = .ok [current.reverse ++ cs] := by
    intro cs
    induction cs with
    | nil => simp [tokensFrom]
    | cons _ _ ih =>
      intro current hcs
      rw [mem_cons, not_or] at hcs
      rw [cons_append, tokensFrom, if_neg (Ne.symm hcs.1), if_neg (by simp), ih _ hcs.2]
      simp
  have hopen : tokensFrom .between [] ("'" ++ body ++ "'").toList =
      tokensFrom (.quotation '\'') [] (body.toList ++ ['\'']) := by
    simp [tokensFrom, isTokenBlank, isQuote]
  rw [shellTokens, hopen, hread _ _ h]
  simp [bind, Except.bind, pure, Except.pure]

/-- **A wrapped command is one argument exactly if none of its words holds a quote.**  A node that
reads one edge and writes one, and whose arguments are strings, is wrapped, unless it has
redirections.  The command is handed over between two quotes; no other quote is there, and a shell
reads the words back, exactly if no word holds a quote. -/
theorem Node.wrap_argument_iff {n : Node} {input output : Int} (hinputs : n.inputs = [input])
    (houtputs : n.outputs = [output]) (hparts : n.invocation.strings? = some parts)
    (htexts : parts.mapM Word.format = .ok texts) (channel : ChannelLookup) (s : Supply) :
    (n.redirections ≠ [] → ∃ s', (n.wrap channel).outcome s = (.error .lacking, s')) ∧
    (n.redirections = [] →
      ∃ inner wrapper quoted s', Yields (n.wrap channel) s (inner, wrapper) s' ∧
      wrapper.invocation.operands = [.word (Word.ofString "bash -c"), .word quoted] ∧
      Word.format quoted = .ok ("'" ++ spaced texts ++ "'") ∧
      ('\'' ∉ (spaced texts).toList ∧ shellTokens ("'" ++ spaced texts ++ "'") =
        .ok [spaced texts] ↔ ∀ t ∈ texts, '\'' ∉ t.toList)) := by
  have hwrapped : n.invocation.withoutStreams.toWrapped channel =
    .ok (Invocation.quotedCommand parts) :=
    Invocation.toWrapped_of_strings hparts channel
  rw [wrap, hinputs, houtputs]
  dsimp only
  rw [hwrapped]
  cases n.redirections with
  | cons r rs => exact ⟨fun _ => ⟨_, rfl⟩, fun h => by cases h⟩
  | nil =>
    refine ⟨fun h => absurd rfl h, fun _ => ?_⟩
    refine ⟨_, _, _, _, rfl, rfl, format_quotedCommand htexts, fun h => quote_notMem_spaced.1 h.1,
      fun h => ?_⟩
    have hfree := quote_notMem_spaced.2 h
    exact ⟨hfree, shellTokens_quoted hfree⟩

/-- A node that searches for a text. -/
def seeking (pattern : Word) : Node where
  id := 0
  invocation :=
    { command := "grep", flags := [.flag "-n"], operands := [.literal pattern]
      streaming := [0], outputs := [1] }

/-- A text in double quotes is handed over as it is. -/
theorem wrap_argument_phrase :
    ∃ inner wrapper quoted s',
      Yields ((seeking [.quoted (Word.ofString "a b")]).wrap fun _ => .error .lacking) {}
      (inner, wrapper) s' ∧ wrapper.invocation.operands =
      [.word (Word.ofString "bash -c"), .word quoted] ∧
      Word.format quoted = .ok "' grep -n \"a b\" '" ∧
      shellTokens "' grep -n \"a b\" '" = .ok [" grep -n \"a b\" "] := by
  have htexts : [Word.ofString "grep", Word.ofString "-n", [.quoted (Word.ofString "a b")]].mapM
      Word.format =
      .ok ["grep", "-n", "\"a b\""] := by decide +kernel
  obtain ⟨inner, wrapper, quoted, s', hwrap, hoperands, hformat, hone⟩ :=
    (Node.wrap_argument_iff (n := seeking [.quoted (Word.ofString "a b")]) rfl rfl rfl htexts
      (fun _ => .error .lacking) {}).2 rfl
  have hspaced : spaced ["grep", "-n", "\"a b\""] = " grep -n \"a b\" " := by decide +kernel
  rw [hspaced] at hformat hone
  exact ⟨inner, wrapper, quoted, s', hwrap, hoperands, hformat, (hone.2 (by simp)).2⟩

/-- A quote in a word leaves the argument open. -/
theorem wrap_argument_apostrophe :
    ∃ inner wrapper quoted s',
      Yields ((seeking (Word.ofString "it's")).wrap fun _ => .error .lacking) {}
      (inner, wrapper) s' ∧ wrapper.invocation.operands =
      [.word (Word.ofString "bash -c"), .word quoted] ∧
      Word.format quoted = .ok "' grep -n it's '" ∧ shellTokens "' grep -n it's '" =
        .error .malformed :=
  ⟨_, _, _, _, rfl, rfl, by decide +kernel, by decide +kernel⟩

end ShellFlow
