import Mathlib.Data.List.Basic
import ShellFlow.Proofs.Text
import ShellFlow.Shell.Tree

/-!
# Words of texts

A text without stand-ins is made of its characters alone, and nothing is lost when it is made a
word.
-/

namespace ShellFlow

open List

namespace Word

variable {s : String}

theorem same_ofString (s : String) : same (ofString s) (ofString s) := by
  unfold ofString
  induction Text.codes s with
  | nil => rfl
  | cons _ _ ih => simp only [map_cons, same, Part.same, beq_self_eq_true, ih, Bool.and_self]

theorem same_both (s t : String) :
    same (ofString s) (ofString s) && same (ofString t) (ofString t) := by
  rw [same_ofString, same_ofString, Bool.and_self]

theorem ofString_ne {a b : String} (h : Text.codes a ≠ Text.codes b) : ofString a ≠ ofString b := by
  intro heq
  refine h (map_injective_iff.2 (fun m n hmn => ?_) heq)
  exact Int.ofNat_inj.1 (Part.char.inj hmn)

theorem ofString_append {a b : String} (h : Text.mark ∉ a.toList) :
    ofString (a ++ b) = ofString a ++ ofString b := by
  rw [ofString, Text.codes_append h, map_append]
  rfl

theorem ofString_of_notMem (h : Text.mark ∉ s.toList) :
    ofString s = s.toList.map fun c => Part.char c.toNat := by
  rw [ofString, Text.codes_of_notMem h, map_map]
  rfl

theorem format_ofString (h : Text.mark ∉ s.toList) : format (ofString s) = .ok s := by
  have hgo : ∀ cs : List Char, Text.mark ∉ cs →
      format (cs.map fun c => Part.char c.toNat) = .ok (String.ofList cs) := by
    intro cs hcs
    induction cs with
    | nil => rfl
    | cons c cs ih =>
      rw [mem_cons, not_or] at hcs
      rw [map_cons, format, Part.format, codeText, Text.ofNumbers_toNat (Ne.symm hcs.1), ih hcs.2]
      show Except.ok (String.ofList [c] ++ String.ofList cs) = _
      rw [← String.ofList_append]
      rfl
  rw [ofString_of_notMem h, hgo s.toList h, String.ofList_toList]

end Word

end ShellFlow
