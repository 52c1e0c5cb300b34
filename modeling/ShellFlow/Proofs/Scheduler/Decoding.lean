import Mathlib.Data.List.TakeWhile
import ShellFlow.Proofs.Text
import ShellFlow.Scheduler.Request

/-!
# Requests to compile are decoded

A request to compile holds the names of three files, each behind a label and a colon, with bars
between them.  It is cut at the bars, and each piece at its colons, of which only the first is meant
to be there: a name that holds a colon comes out without what stands behind it, and nobody is told.
-/

namespace ShellFlow

open List

/-- What stands in front of the first colon of a name. -/
def untilColon (name : String) : String := String.ofList (name.toList.takeWhile (· ≠ ':'))

theorem untilColon_eq_self_iff {name : String} : untilColon name = name ↔ ':' ∉ name.toList := by
  rw [untilColon, ← String.toList_inj, String.toList_ofList, takeWhile_eq_self_iff]
  simp only [decide_eq_true_eq]
  exact ⟨fun h hmem => h _ hmem rfl, fun h c hc heq => h (heq ▸ hc)⟩

/-- Behind a label, a name is read up to its first colon. -/
theorem afterColon?_label {label : List Char} (h : ':' ∉ label) (name : String) :
    afterColon? (String.ofList (label ++ ':' :: name.toList)) = some (untilColon name) := by
  have hsplit := Text.splitList_append_cons h name.toList
  have hhead := Text.head?_splitList ':' name.toList
  rw [afterColon?, Text.splitAt, String.toList_ofList, hsplit, map_cons, getElem?_cons_succ,
    ← head?_eq_getElem?, head?_map, hhead]
  rfl

namespace CompileRequest

/-- The text in which a client asks for a region to be compiled. -/
def text (r : CompileRequest) : String :=
  "Compile:" ++ r.script ++ "| Variable File:" ++ r.declarations ++ "| Input IR File:" ++ r.region

def names (r : CompileRequest) : List String := [r.script, r.declarations, r.region]

/-- What stands in front of the first colon of each name. -/
def untilColons (r : CompileRequest) : CompileRequest :=
  ⟨untilColon r.script, untilColon r.declarations, untilColon r.region⟩

def piece (label : String) (name : String) : List Char := label.toList ++ ':' :: name.toList

theorem toList_text (r : CompileRequest) :
    r.text.toList = piece "Compile" r.script ++ '|' :: (piece " Variable File" r.declarations ++
      '|' :: piece " Input IR File" r.region) := by
  simp [text, piece]

variable {r : CompileRequest}

/-- A text that does not end in a blank is cut at its two bars. -/
theorem splitAt_text (hbars : ∀ n ∈ r.names, '|' ∉ n.toList)
    (hend : ∀ c, r.region.toList.getLast? = some c → Text.isBlank c = false) :
    Text.splitAt '|' (Text.trimEnd r.text) =
      [piece "Compile" r.script, piece " Variable File" r.declarations,
        piece " Input IR File" r.region].map String.ofList := by
  simp only [names, forall_mem_cons] at hbars
  obtain ⟨hscript, hdeclarations, hregion, -⟩ := hbars
  have hlast : ∀ c, r.text.toList.getLast? = some c → Text.isBlank c = false := by
    intro c hc
    have htext : r.text.toList =
      piece ("Compile:" ++ r.script ++ "| Variable File:" ++ r.declarations ++
      "| Input IR File") r.region := by simp [text, piece]
    rw [htext, piece, getLast?_append, getLast?_cons] at hc
    cases hname : r.region.toList.getLast? with
    | none =>
      obtain rfl : ':' = c := by simpa [hname] using hc
      rfl
    | some d =>
      obtain rfl : d = c := by simpa [hname] using hc
      exact hend d hname
  rw [Text.trimEnd, Text.dropTrailing_of_getLast? hlast, Text.splitAt, String.toList_ofList,
    toList_text, Text.splitList_append_cons (by simpa [piece] using hscript),
    Text.splitList_append_cons (by simpa [piece] using hdeclarations),
    Text.splitList_of_notMem (by simpa [piece] using hregion)]

/-- **A request to compile is decoded exactly if no name holds a colon.**  It is always accepted; a
name with a colon comes out as what stands in front of it. -/
theorem parse_text_eq_iff (hbars : ∀ n ∈ r.names, '|' ∉ n.toList)
    (hend : ∀ c, r.region.toList.getLast? = some c → Text.isBlank c = false) :
    parse r.text = .ok r.untilColons ∧ (parse r.text = .ok r ↔ ∀ n ∈ r.names, ':' ∉ n.toList) := by
  have hparse : parse r.text = .ok r.untilColons := by
    rw [parse, parse?, splitAt_text hbars hend]
    simp only [map_cons, piece]
    rw [afterColon?_label (by decide), afterColon?_label (by decide), afterColon?_label (by decide)]
    rfl
  refine ⟨hparse, ?_⟩
  rw [hparse, Except.ok.injEq]
  obtain ⟨script, declarations, region⟩ := r
  simp only [untilColons, mk.injEq, untilColon_eq_self_iff, names, forall_mem_cons, not_mem_nil,
    false_implies, implies_true, and_true]

/-- Names with blanks, dots and slashes come out as they are. -/
theorem parse_text_spaced :
    (∀ n ∈ names ⟨"/tmp/a b", "v.d", "i"⟩, '|' ∉ n.toList) ∧
      parse (text ⟨"/tmp/a b", "v.d", "i"⟩) = .ok ⟨"/tmp/a b", "v.d", "i"⟩ := by
  have hbars : ∀ n ∈ names ⟨"/tmp/a b", "v.d", "i"⟩, '|' ∉ n.toList := by simp [names]
  exact ⟨hbars, (parse_text_eq_iff hbars (by simp [Text.isBlank])).2.2 (by simp [names])⟩

/-- A directory with a colon in its name: another script than the one asked for is written. -/
theorem parse_text_cuts_script :
    (∀ n ∈ names ⟨"/tmp/a:b/s", "v", "i"⟩, '|' ∉ n.toList ∧ '\n' ∉ n.toList ∧
      ∀ c, n.toList.getLast? = some c → Text.isBlank c = false) ∧
    parse (text ⟨"/tmp/a:b/s", "v", "i"⟩) = .ok ⟨"/tmp/a", "v", "i"⟩ := by
  refine ⟨by simp [names, Text.isBlank], ?_⟩
  decide +kernel

end CompileRequest

end ShellFlow
