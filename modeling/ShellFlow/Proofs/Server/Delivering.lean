import Mathlib.Data.List.Forall2
import ShellFlow.Proofs.Text
import ShellFlow.Server.PipeReader

/-!
# Commands are delivered once

Clients write lines into sessions of a pipe, and several of them may share one session.  The reader
hands out one line at a time and opens a session only if it has nothing left.  So the commands come
out as they went in, however they are spread over sessions and however the reads cut a session.
-/

namespace ShellFlow

open List

namespace PipeReader

variable {commands reads : List String} {r : PipeReader} (c : String)

/-- A line without blanks at its end. -/
structure IsCommand (c : String) : Prop where
  no_newline : '\n' ∉ c.toList
  no_return : '\r' ∉ c.toList
  trimmed (x : Char) : c.toList.getLast? = some x → Text.isBlank x = false

def lines (commands : List String) : String := String.join (commands.map (· ++ "\n"))

theorem toList_lines_cons (commands : List String) :
    (lines (c :: commands)).toList = c.toList ++ '\n' :: (lines commands).toList := by
  simp [lines]

theorem no_return_lines (h : ∀ c ∈ commands, IsCommand c) : '\r' ∉ (lines commands).toList := by
  induction commands with
  | nil => simp [lines]
  | cons _ _ ih =>
    obtain ⟨hc, hcommands⟩ := forall_mem_cons.1 h
    rw [toList_lines_cons, mem_append, mem_cons]
    rintro (hmem | hmem | hmem)
    · exact hc.no_return hmem
    · exact absurd hmem (by decide)
    · exact ih hcommands hmem

/-- **The cuts between reads leave no trace.** -/
theorem gather_eq_join (hne : ∀ text ∈ reads, text ≠ "")
    (hreturn : '\r' ∉ (String.join reads).toList) : gather reads = String.join reads := by
  induction reads with
  | nil => rfl
  | cons text _ ih =>
    obtain ⟨htext, hreads⟩ := forall_mem_cons.1 hne
    rw [String.join_cons, String.toList_append, mem_append, not_or] at hreturn
    have hunify : Text.unifyLines text = text := by
      rw [Text.unifyLines, Text.unifyLinesFrom_of_notMem hreturn.1, String.ofList_toList]
    rw [gather, String.isEmpty_eq_false_iff.2 htext, hunify, ih hreads hreturn.2, String.join_cons]
    rfl

theorem cutLine_append {line : List Char} (h : '\n' ∉ line) (rest : List Char) :
    cutLine (line ++ '\n' :: rest) = (line, rest) := by
  have hline : ∀ c ∈ line, (c != '\n') = true := fun c hc => bne_iff_ne.2 fun heq => h (heq ▸ hc)
  unfold cutLine
  rw [takeWhile_append_of_pos hline, dropWhile_append_of_pos hline]
  simp

theorem next_eq_bind (r : PipeReader) (pipe : Except Fault String) :
    r.next pipe = (if r.kept.isEmpty then pipe else pure r.kept).bind fun text =>
      .ok (Text.trimEnd (String.ofList (cutLine text.toList).1),
        ⟨String.ofList (cutLine text.toList).2⟩) := by
  unfold next
  split <;> rfl

/-- **One call takes one line**, be it from what is kept or from a session. -/
theorem next_lines {pipe : Except Fault String} {c : String} (hc : IsCommand c)
    (htext : (if r.kept.isEmpty then pipe else pure r.kept) = .ok (lines (c :: commands))) :
    r.next pipe = .ok (c, ⟨lines commands⟩) := by
  have htrim : Text.trimEnd (String.ofList c.toList) = c := by
    rw [String.ofList_toList, Text.trimEnd, Text.dropTrailing_of_getLast? hc.trimmed,
      String.ofList_toList]
  rw [next_eq_bind, htext, Except.bind, toList_lines_cons, cutLine_append hc.no_newline, htrim,
    String.ofList_toList]

theorem isEmpty_lines_cons (commands : List String) : (lines (c :: commands)).isEmpty = false := by
  rw [String.isEmpty_eq_false_iff, ne_eq, ← String.toList_eq_nil_iff, toList_lines_cons]
  simp

/-! ### One session -/

/-- The deliveries in front of others. -/
def before (ds : List Delivery) (rest : List Delivery × PipeReader × List (List String)) :
    List Delivery × PipeReader × List (List String) :=
  (ds ++ rest.1, rest.2)

theorem deliveries_succ {n : Nat} {r' : PipeReader} {sessions sessions' : List (List String)}
    {d : Delivery} (h : r.deliver sessions = .ok (d, r', sessions')) :
    deliveries (n + 1) r sessions = (deliveries n r' sessions').map (before [d]) := by
  rw [deliveries, h]
  show (deliveries n r' sessions').bind _ = _
  cases deliveries n r' sessions' <;> rfl

/-- Lines that are kept are delivered before a session is opened. -/
theorem deliveries_kept (h : ∀ c ∈ commands, IsCommand c) (n : Nat)
    (sessions : List (List String)) : deliveries (commands.length + n) ⟨lines commands⟩ sessions =
      (deliveries n {} sessions).map (before (commands.map (⟨·, false⟩))) := by
  induction commands with
  | nil =>
    rw [length_nil, Nat.zero_add]
    show deliveries n {} sessions = _
    cases deliveries n {} sessions <;> rfl
  | cons c commands ih =>
    obtain ⟨hc, hcommands⟩ := forall_mem_cons.1 h
    have hkept := isEmpty_lines_cons c commands
    have hdeliver : deliver ⟨lines (c :: commands)⟩ sessions =
        .ok (⟨c, false⟩, ⟨lines commands⟩, sessions) := by
      unfold deliver
      rw [next_lines hc (by simp only [hkept]; rfl)]
      simp only [hkept]
      rfl
    rw [length_cons, Nat.add_right_comm, deliveries_succ hdeliver, ih hcommands]
    cases deliveries n {} sessions <;> rfl

/-- The reads of a session together are some commands. -/
structure Carries (reads commands : List String) : Prop where
  some : commands ≠ []
  clean (c : String) : c ∈ commands → IsCommand c
  brings (text : String) : text ∈ reads → text ≠ ""
  join : String.join reads = lines commands

/-- The commands of a session as they should be delivered: the session is opened for the first one.
-/
def announced : List String → List Delivery
  | [] => []
  | c :: commands => ⟨c, true⟩ :: commands.map (⟨·, false⟩)

/-- **The calls for one session.** -/
theorem deliveries_session (h : Carries reads commands) (n : Nat) (sessions : List (List String)) :
    deliveries (commands.length + n) {} (reads :: sessions) =
      (deliveries n {} sessions).map (before (announced commands)) := by
  cases commands with
  | nil => exact absurd rfl h.some
  | cons c commands =>
    obtain ⟨hc, hcommands⟩ := forall_mem_cons.1 h.clean
    have hgather : gather reads = lines (c :: commands) := by
      rw [gather_eq_join h.brings (h.join ▸ no_return_lines h.clean), h.join]
    have hdeliver : deliver {} (reads :: sessions) =
        .ok (⟨c, true⟩, ⟨lines commands⟩, sessions) := by
      unfold deliver
      rw [head?_cons, Option.elim_some, next_lines (r := {}) hc (congrArg Except.ok hgather)]
      rfl
    rw [length_cons, Nat.add_right_comm, deliveries_succ hdeliver, deliveries_kept hcommands]
    cases deliveries n {} sessions <;> rfl

/-! ### All sessions -/

/-- **Commands are delivered once**, in their order, and a session is opened when the commands of
those before it were all delivered.  Behind the last command nothing is kept, and the next call
waits for another session. -/
theorem deliveries_eq_announced {sessions groups : List (List String)}
    (h : List.Forall₂ Carries sessions groups) :
      deliveries groups.flatten.length {} sessions = .ok (groups.flatMap announced, {}, []) ∧
      deliveries (groups.flatten.length + 1) {} sessions = .error .exhausted := by
  have hall : ∀ n, deliveries (groups.flatten.length + n) {} sessions =
      (deliveries n {} []).map (before (groups.flatMap announced)) := by
    intro n
    induction h with
    | nil =>
      rw [List.flatten_nil, List.length_nil, Nat.zero_add]
      cases deliveries n {} [] <;> rfl
    | @cons reads commands sessions groups hcarries _ ih =>
      rw [List.flatten_cons, List.length_append, Nat.add_assoc, deliveries_session hcarries, ih,
        List.flatMap_cons]
      cases deliveries n {} [] with
      | error e => rfl
      | ok rest =>
        show Except.ok (announced commands ++ (groups.flatMap announced ++ rest.1), rest.2) = _
        rw [← List.append_assoc]
        rfl
  refine ⟨?_, hall 1⟩
  have hend := hall 0
  rw [Nat.add_zero] at hend
  rw [hend]
  show Except.ok (groups.flatMap announced ++ [], _) = _
  rw [List.append_nil]

/-- Two clients share a session that comes in three reads, and a third one has a session of its own.
-/
theorem deliveries_eq_announced_shared :
    List.Forall₂ Carries [["Compile:a", "\nEx", "it:4\n"], ["Done\n"]] [["Compile:a", "Exit:4"],
      ["Done"]] ∧ deliveries 3 {} [["Compile:a", "\nEx", "it:4\n"], ["Done\n"]] =
        .ok ([⟨"Compile:a", true⟩, ⟨"Exit:4", false⟩, ⟨"Done", true⟩], {}, []) := by
  have hcarries : List.Forall₂ Carries [["Compile:a", "\nEx", "it:4\n"], ["Done\n"]]
      [["Compile:a", "Exit:4"], ["Done"]] := by
    have hcommand : ∀ c ∈ ["Compile:a", "Exit:4", "Done"], IsCommand c := by
      intro c hc
      simp only [List.mem_cons, List.not_mem_nil, or_false] at hc
      rcases hc with rfl | rfl | rfl <;> exact ⟨by simp, by simp, by simp [Text.isBlank]⟩
    refine .cons ⟨by simp, fun c hc => hcommand c ?_, by simp, rfl⟩
      (.cons ⟨by simp, fun c hc => hcommand c ?_, by simp, rfl⟩ .nil)
    · simp only [List.mem_cons, List.not_mem_nil, or_false] at hc ⊢
      tauto
    · simp only [List.mem_cons, List.not_mem_nil, or_false] at hc ⊢
      tauto
  exact ⟨hcarries, (deliveries_eq_announced hcarries).1⟩

end PipeReader

end ShellFlow
