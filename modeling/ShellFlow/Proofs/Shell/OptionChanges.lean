import Mathlib.Data.Multiset.Filter
import Mathlib.Data.Multiset.UnionInter
import ShellFlow.Shell.OptionLetters

/-!
# The changes of option letters

Two sorted lists of letters are compared from the front.  The smaller of the two first letters
cannot occur in the other list any more, so it is a difference; equal letters are struck out, one
against the other.  In the end each side lists what it has more often than the other.
-/

namespace ShellFlow.OptionLetters

open List

variable {a b : UInt8} {as bs : Octets} (letters : Octets)

/-! ### Sorted letters -/

def Ascending : Prop := letters.Pairwise fun a b => a.toInt8 ≤ b.toInt8

theorem Ascending.notMem (h : Ascending (b :: bs)) (hlt : a.toInt8 < b.toInt8) : a ∉ b :: bs := by
  intro hmem
  rcases mem_cons.1 hmem with rfl | hmem
  · exact Int8.lt_irrefl hlt
  · exact Int8.lt_irrefl (Int8.lt_of_lt_of_le hlt ((pairwise_cons.1 h).1 a hmem))

theorem lt_of_le_of_ne (hle : b.toInt8 ≤ a.toInt8) (hne : a ≠ b) : b.toInt8 < a.toInt8 := by
  refine Int8.lt_iff_le_and_ne.2 ⟨hle, fun heq => hne ?_⟩
  rw [← UInt8.toUInt8_toInt8 a, ← heq, UInt8.toUInt8_toInt8]

theorem ascending_sorted : Ascending (sorted letters) := by
  have hsorted := @pairwise_mergeSort _ (fun a b => !before b a)
    (fun a b c hab hbc => by
      simp only [before, Bool.not_eq_true', decide_eq_false_iff_not, Int8.not_lt] at hab hbc ⊢
      exact Int8.le_trans hab hbc)
    (fun a b => by simpa [before] using Int8.le_total a.toInt8 b.toInt8) letters
  refine hsorted.imp fun {a b} hab => ?_
  simpa [before] using hab

theorem cons_sub_of_notMem {s t : Multiset UInt8} (h : a ∉ t) : a ::ₘ s - t = a ::ₘ (s - t) := by
  ext x
  have hcount : t.count a = 0 := Multiset.count_eq_zero_of_notMem h
  rw [Multiset.count_sub, Multiset.count_cons, Multiset.count_cons, Multiset.count_sub]
  split
  · next hx =>
    subst hx
    omega
  · rfl

theorem sub_cons_of_notMem {s t : Multiset UInt8} (h : a ∉ s) : s - a ::ₘ t = s - t := by
  rw [Multiset.sub_cons, Multiset.erase_of_notMem h]

theorem filter_changeable_cons (h : ¬ (!changeable a) = true) :
    (a :: as).filter changeable = a :: as.filter changeable :=
  filter_cons_of_pos (by simpa using h)

/-- **Comparing sorted letters gives the differences of the multisets.**  Letters that cannot be
changed are passed over. -/
theorem coe_difference (has : Ascending as) (hbs : Ascending bs) :
    ((difference as bs).1 : Multiset UInt8) = ↑(as.filter changeable) - ↑(bs.filter changeable) ∧
      ((difference as bs).2 : Multiset UInt8) =
        ↑(bs.filter changeable) - ↑(as.filter changeable) := by
  fun_induction difference as bs with
  | case1 => exact ⟨(Multiset.zero_sub _).symm, (Multiset.sub_zero _).symm⟩
  | case2 => exact ⟨(Multiset.sub_zero _).symm, (Multiset.zero_sub _).symm⟩
  | case3 _ _ _ _ hfixed ih =>
    rw [filter_cons_of_neg (by simpa using hfixed)]
    exact ih has.of_cons hbs
  | case4 _ _ b bs _ hfixed ih =>
    have hpassed : (b :: bs).filter changeable = bs.filter changeable :=
      filter_cons_of_neg (by simpa using hfixed)
    rw [hpassed]
    exact ih has hbs.of_cons
  | case5 a as b bs hfree _ hlt _ _ hrest ih =>
    have ha : a ∉ (b :: bs).filter changeable := fun hmem =>
      hbs.notMem (decide_eq_true_iff.1 hlt) (mem_of_mem_filter hmem)
    rw [hrest] at ih
    obtain ⟨hoff, hon⟩ := ih has.of_cons hbs
    rw [filter_changeable_cons hfree]
    exact ⟨(congrArg (a ::ₘ ·) hoff).trans (cons_sub_of_notMem ha).symm,
      hon.trans (sub_cons_of_notMem ha).symm⟩
  | case6 _ _ _ hfree _ _ ih =>
    rw [filter_changeable_cons hfree, filter_changeable_cons hfree, ← Multiset.cons_coe,
      ← Multiset.cons_coe, Multiset.sub_cons, Multiset.sub_cons, Multiset.erase_cons_head,
      Multiset.erase_cons_head]
    exact ih has.of_cons hbs.of_cons
  | case7 a as b _ _ hfree hlt hne _ _ hrest ih =>
    have hlt : b.toInt8 < a.toInt8 := lt_of_le_of_ne (by simpa [before] using hlt) hne
    have hb : b ∉ (a :: as).filter changeable := fun hmem => has.notMem hlt (mem_of_mem_filter hmem)
    rw [hrest] at ih
    obtain ⟨hoff, hon⟩ := ih has hbs.of_cons
    rw [filter_changeable_cons hfree]
    exact ⟨hoff.trans (sub_cons_of_notMem hb).symm,
      (congrArg (b ::ₘ ·) hon).trans (cons_sub_of_notMem hb).symm⟩

theorem difference_sublist (as bs : Octets) :
    (difference as bs).1.Sublist as ∧ (difference as bs).2.Sublist bs := by
  fun_induction difference as bs with
  | case1 => exact ⟨.refl _, filter_sublist⟩
  | case2 => exact ⟨filter_sublist, nil_sublist _⟩
  | case3 a _ _ _ _ ih => exact ⟨ih.1.cons a, ih.2⟩
  | case4 _ _ b _ _ _ ih => exact ⟨ih.1, ih.2.cons b⟩
  | case5 a _ _ _ _ _ _ _ _ hrest ih =>
    rw [hrest] at ih
    exact ⟨ih.1.cons_cons a, ih.2⟩
  | case6 _ b _ _ _ _ ih => exact ⟨ih.1.cons b, ih.2.cons b⟩
  | case7 _ _ b _ _ _ _ _ _ _ hrest ih =>
    rw [hrest] at ih
    exact ⟨ih.1, ih.2.cons_cons b⟩

/-! ### The changes -/

/-- The letters of a word that are neither `c` nor `s`, each as often as it occurs. -/
def free (letters : Multiset UInt8) : Multiset UInt8 :=
  letters.filter fun a => a ≠ 'c'.toUInt8 ∧ a ≠ 's'.toUInt8

theorem coe_sorted : ((sorted letters).filter changeable : Multiset UInt8) = free letters := by
  rw [free, sorted, ← Multiset.coe_eq_coe.2 (mergeSort_perm letters fun a b => !before b a),
    Multiset.filter_coe]
  exact congrArg _ (filter_congr fun a _ => Bool.eq_iff_iff.2 (by simp [changeable, Char.toUInt8]))

/-- **The changes are the differences of the letters, without `c` and `s`.**  Both sides are sorted
and fit, with their end, into the room of the longer of the two words; turning them off and on leads
from the old letters to the new. -/
theorem changesText_eq_differences (old new : Octets) :
    ∃ off on : Octets, changesText old new = off ++ Octets.ofText "," ++ on ++ [Octets.newline] ∧
      Ascending off ∧ Ascending on ∧
      (off : Multiset UInt8) = free (↑old - ↑new) ∧ (on : Multiset UInt8) = free (↑new - ↑old) ∧
      free (↑old - ↑off + ↑on) = free new ∧
      off.length + 1 ≤ max old.length new.length + 1 ∧
      on.length + 1 ≤ max old.length new.length + 1 := by
  have hold := ascending_sorted old
  have hnew := ascending_sorted new
  obtain ⟨hoff, hon⟩ := coe_difference hold hnew
  obtain ⟨hoffs, hons⟩ := difference_sublist (sorted old) (sorted new)
  rw [coe_sorted, coe_sorted, free, free, ← Multiset.filter_sub] at hoff hon
  refine ⟨(changes old new).1, (changes old new).2, rfl, hold.sublist hoffs, hnew.sublist hons,
    hoff, hon, ?_, ?_, ?_⟩
  · ext x
    rw [changes, hoff, hon]
    simp only [free, Multiset.count_filter, Multiset.count_add, Multiset.count_sub]
    split <;> omega
  · exact Nat.succ_le_succ
      ((hoffs.length_le.trans (length_mergeSort old).le).trans (le_max_left _ _))
  · exact Nat.succ_le_succ
      ((hons.length_le.trans (length_mergeSort new).le).trans (le_max_right _ _))

end ShellFlow.OptionLetters
