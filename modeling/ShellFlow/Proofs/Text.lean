import Mathlib.Data.List.Induction
import Mathlib.Tactic.IntervalCases
import ShellFlow.Stream.Octets
import ShellFlow.Text.Code
import ShellFlow.Text.Number

/-!
# Texts and octets

What the operations on texts and octets give, for those that the programs write.

## Contents

* **Code points** (`codes_ofCodes`, `codes_append`): the code points that are kept as a text are
  read back, and a text without stand-ins is made of its characters alone.
* **Cutting** (`splitList_append_cons`, `splitList_intercalate`, `find_append`, `slice_append`):
  where a text is cut at a separator, and where a piece of it is found.
* **Numbers** (`readInt_toString`): the digits of a number are read back, unless there are too many
  of them.
* **Blanks** (`unifyLinesFrom_of_notMem`, `dropTrailing_of_getLast?`): what there is to be left out.
* **Octets** (`Octets.ofLittle_little`, `Octets.ofBig_big`, `Octets.flatten_lines`): a number that
  fits reads back from its octets, and lines make up what they were cut from.
-/

namespace ShellFlow

open List

theorem Int.mem_toList_repr {n : Int} {c : Char} (h : c ∈ n.repr.toList) : c = '-' ∨ c.isDigit := by
  have hdigits : ∀ m : Nat, c ∈ m.repr.toList → c.isDigit = true := by
    intro m hm
    rw [Nat.repr_eq_ofList_toDigits, String.toList_ofList] at hm
    exact Nat.isDigit_of_mem_toDigits (by decide) (by decide) hm
  rw [Int.repr_eq_if] at h
  split at h
  · exact .inr (hdigits _ h)
  · rw [String.toList_append, mem_append] at h
    rcases h with h | h
    · exact .inl (by simpa using h)
    · exact .inr (hdigits _ h)

/-- Different numbers have different digits. -/
theorem Int.repr_injective : Function.Injective Int.repr := by
  have hnat : ∀ m n : Nat, m.repr = n.repr → m = n := by
    intro m n h
    rw [Nat.repr_eq_ofList_toDigits, Nat.repr_eq_ofList_toDigits, String.ofList_inj] at h
    rw [← @Nat.ofDigitChars_ten_toDigits m, h, Nat.ofDigitChars_ten_toDigits]
  have hsign : ∀ m n : Nat, m.repr ≠ "-" ++ n.repr := by
    intro m n h
    have hmem : '-' ∈ m.repr.toList := by simp [h]
    rw [Nat.repr_eq_ofList_toDigits, String.toList_ofList] at hmem
    exact absurd (Nat.isDigit_of_mem_toDigits (by decide) (by decide) hmem) (by decide)
  intro m n h
  cases m with
  | ofNat m =>
    cases n with
    | ofNat n => exact congrArg Int.ofNat (hnat m n h)
    | negSucc n => exact absurd h (hsign m _)
  | negSucc m =>
    cases n with
    | ofNat n => exact absurd h.symm (hsign n _)
    | negSucc n =>
      have hrepr : "-" ++ (m + 1).repr = "-" ++ (n + 1).repr := h
      rw [String.append_right_inj] at hrepr
      exact congrArg Int.negSucc (Nat.succ.inj (hnat _ _ hrepr))

namespace Text

/-! ## Code points -/

variable {c : Char}

theorem codesOf_cons_of_ne_mark {c : Char} (h : c ≠ mark) (rest : List Char) :
    codesOf (c :: rest) = c.toNat :: codesOf rest := by
  cases rest with
  | nil => simp [codesOf]
  | cons b rest => simp [codesOf, h]

theorem toNat_ofNat_of_valid {n : Nat} (h : n.isValidChar) : (Char.ofNat n).toNat = n := by
  unfold Char.ofNat
  rw [dif_pos h]
  rfl

theorem codesOf_ofCode_append {code : Nat} (h : code < 0x110000) (rest : List Char) :
    codesOf (ofCode code ++ rest) = code :: codesOf rest := by
  unfold ofCode
  by_cases hh : isHalf code = true
  · have hb : 0xD800 ≤ code ∧ code < 0xE000 := by simpa [isHalf] using hh
    have hv : (code + standInOffset).isValidChar := by
      simp only [standInOffset, Nat.isValidChar]
      omega
    have hn : (Char.ofNat (code + standInOffset)).toNat = code + standInOffset :=
      toNat_ofNat_of_valid hv
    have hm : Char.ofNat (code + standInOffset) ≠ mark := by
      intro he
      rw [he] at hn
      simp only [mark, standInOffset] at hn
      have : ('\uFDD0' : Char).toNat = 0xFDD0 := rfl
      omega
    simp [hh, codesOf, hm, hn]
  · have hv : code.isValidChar := by
      simp only [isHalf, Bool.and_eq_true, decide_eq_true_eq, not_and, Nat.not_lt] at hh
      simp only [Nat.isValidChar]
      omega
    have hn := toNat_ofNat_of_valid hv
    by_cases hm : code = mark.toNat
    · rw [if_neg hh, if_pos hm]
      simp [codesOf, hm]
    · have hne : Char.ofNat code ≠ mark := fun he => hm (by rw [← hn, he])
      simp [hh, hm, codesOf_cons_of_ne_mark hne, hn]

theorem codesOf_flatMap_ofCode (cs : List Nat) (h : ∀ c ∈ cs, c < 0x110000) :
    codesOf (cs.flatMap ofCode) = cs := by
  induction cs with
  | nil => simp [codesOf]
  | cons c cs ih =>
    rw [List.flatMap_cons, codesOf_ofCode_append (h c (by simp)), ih fun d hd => h d (by simp [hd])]

theorem codes_ofCodes (cs : List Nat) (h : ∀ c ∈ cs, c < 0x110000) : codes (ofCodes cs) = cs := by
  simp [codes, ofCodes, codesOf_flatMap_ofCode cs h]

theorem codesOf_append {cs ds : List Char} (h : mark ∉ cs) :
    codesOf (cs ++ ds) = cs.map Char.toNat ++ codesOf ds := by
  induction cs with
  | nil => rfl
  | cons _ _ ih =>
    rw [mem_cons, not_or] at h
    rw [cons_append, codesOf_cons_of_ne_mark (Ne.symm h.1), ih h.2]
    rfl

theorem codes_of_notMem {s : String} (h : mark ∉ s.toList) : codes s = s.toList.map Char.toNat := by
  have hs := @codesOf_append s.toList [] h
  rwa [append_nil, codesOf, append_nil] at hs

theorem codes_append {a b : String} (h : mark ∉ a.toList) :
    codes (a ++ b) = codes a ++ codes b := by
  rw [codes_of_notMem h, codes, String.toList_append, codesOf_append h]
  rfl

theorem ofCode_toNat (h : c ≠ mark) : ofCode c.toNat = [c] := by
  have hhalf : isHalf c.toNat = false := by
    have hvalid : c.toNat.isValidChar := c.valid
    simp only [Nat.isValidChar] at hvalid
    simp only [isHalf, Bool.and_eq_false_iff, decide_eq_false_iff_not]
    omega
  have hmark : c.toNat ≠ mark.toNat := fun heq => h (Char.toNat_inj.1 heq)
  simp [ofCode, hhalf, hmark]

theorem ofNumbers_toNat (h : c ≠ mark) : ofNumbers [(c.toNat : Int)] = .ok (String.ofList [c]) := by
  have hvalid : c.toNat.isValidChar := c.valid
  have hbound : c.toNat < 0x110000 := by
    simp only [Nat.isValidChar] at hvalid
    omega
  have hcode : codePoint c.toNat = .ok c.toNat := by
    rw [codePoint, if_neg (by simp only [codeBound]; omega), if_pos (by omega), Int.toNat_natCast]
  rw [ofNumbers, mapM_cons, hcode]
  show Except.ok (ofCodes [c.toNat]) = _
  rw [ofCodes, flatMap_cons, flatMap_nil, append_nil, ofCode_toNat h]

/-- Whatever stands in front of a character that is no mark, what is behind the character is read by
itself. -/
theorem exists_codesOf_append {c : Char} (hc : c ≠ mark) (rest : List Char) (cs : List Char) :
    ∃ front, codesOf (cs ++ c :: rest) = front ++ codesOf rest := by
  induction cs using codesOf.induct with
  | case1 => exact ⟨[c.toNat], codesOf_cons_of_ne_mark hc rest⟩
  | case2 a =>
    by_cases ha : a = mark
    · exact ⟨[if c = mark then mark.toNat else c.toNat - standInOffset], by simp [codesOf, ha]⟩
    · refine ⟨[a.toNat, c.toNat], ?_⟩
      rw [singleton_append, codesOf_cons_of_ne_mark ha, codesOf_cons_of_ne_mark hc]
      rfl
  | case3 b _ ih =>
    obtain ⟨front, hfront⟩ := ih
    refine ⟨(if b = mark then mark.toNat else b.toNat - standInOffset) :: front, ?_⟩
    simp only [cons_append, codesOf, if_true, hfront]
  | case4 a _ _ ha ih =>
    obtain ⟨front, hfront⟩ := ih
    refine ⟨a.toNat :: front, ?_⟩
    rw [cons_append, codesOf_cons_of_ne_mark ha, hfront]
    rfl

theorem mark_notMem_toString (n : Int) : mark ∉ (toString n).toList := by
  intro h
  rcases Int.mem_toList_repr h with h | h
  · exact absurd h (by decide)
  · exact absurd h (by decide)

/-! ## Cutting -/

section Cutting

variable {α : Type} {sep : α} {as before after sought : List α} {x : α}

section

variable [DecidableEq α]

theorem splitList_of_notMem (h : sep ∉ as) : splitList sep as = [as] := by
  induction as with
  | nil => rfl
  | cons _ _ ih =>
    rw [mem_cons, not_or] at h
    rw [splitList, if_neg (Ne.symm h.1), ih h.2]

theorem splitList_append_cons (h : sep ∉ as) (bs : List α) :
    splitList sep (as ++ sep :: bs) = as :: splitList sep bs := by
  induction as with
  | nil => exact if_pos rfl
  | cons _ _ ih =>
    rw [mem_cons, not_or] at h
    rw [cons_append, splitList, if_neg (Ne.symm h.1), ih h.2]

theorem head?_splitList (sep : α) (as : List α) :
    (splitList sep as).head? = some (as.takeWhile (· ≠ sep)) := by
  induction as with
  | nil => rfl
  | cons a as ih =>
    by_cases h : a = sep
    · simp [splitList, h]
    · rw [splitList, if_neg h, takeWhile_cons_of_pos (by simpa using h)]
      cases hrest : splitList sep as with
      | nil => simp [hrest] at ih
      | cons w ws => simp_all

theorem splitList_intercalate {parts : List (List α)} (hne : parts ≠ [])
    (h : ∀ as ∈ parts, x ∉ as) : splitList x ([x].intercalate parts) = parts := by
  induction parts with
  | nil => exact absurd rfl hne
  | cons as parts ih =>
    obtain ⟨has, h⟩ := forall_mem_cons.1 h
    cases parts with
    | nil => simpa using splitList_of_notMem has
    | cons bs parts =>
      rw [intercalate_cons_cons, append_assoc, singleton_append, splitList_append_cons has,
        ih (cons_ne_nil _ _) h]

end

theorem position_of_le {k n : Nat} (h : k ≤ n) : position n k = k := by
  simp [position, h]

theorem slice_append (before xs after : List α) :
    slice (before ++ (xs ++ after)) before.length (before.length + xs.length : Nat) = xs := by
  rw [slice, position_of_le (by simp), position_of_le (by simp), ← append_assoc, ← length_append,
    take_left, drop_left]

variable [BEq α] [LawfulBEq α]

/-- A sequence that begins nowhere in front of a place is found there. -/
theorem find_append (h : ∀ k < before.length, ¬ sought <+: (before ++ (sought ++ after)).drop k) :
    find sought (before ++ (sought ++ after)) = before.length := by
  suffices hfind : find? sought (before ++ (sought ++ after)) = some before.length by
    rw [find, hfind]
  induction before with
  | nil =>
    have hprefix : sought <+: sought ++ after := prefix_append sought after
    rw [nil_append]
    cases hxs : sought ++ after with
    | nil => simp [find?, (append_eq_nil_iff.1 hxs).1]
    | cons x xs => exact if_pos <| isPrefixOf_iff_prefix.2 (hxs ▸ hprefix)
  | cons x before ih =>
    have hfirst : ¬ sought.isPrefixOf (x :: (before ++ (sought ++ after))) := fun hprefix =>
      h 0 (Nat.succ_pos _) <| isPrefixOf_iff_prefix.1 hprefix
    rw [cons_append, find?, if_neg hfirst, ih fun k hk => h (k + 1) (Nat.succ_lt_succ hk)]
    rfl

theorem find_singleton (h : x ∉ before) (after : List α) :
    find [x] (before ++ x :: after) = before.length := by
  refine @find_append α before after [x] _ _ fun k hk hprefix => h ?_
  rw [drop_append_of_le_length hk.le, drop_eq_getElem_cons hk, cons_append,
    cons_prefix_cons] at hprefix
  exact hprefix.1 ▸ getElem_mem hk

/-- A sequence is found behind an item that it does not hold, if it is not in front of it. -/
theorem find_behind (h : ¬ sought <:+: before) (hx : x ∉ sought) (after : List α) :
    find sought (before ++ x :: (sought ++ after)) = before.length + 1 := by
  have hfind := @find_append α (before ++ [x]) after sought _ _ fun k hk hprefix => h ?_
  · simpa using hfind
  · rw [append_assoc, drop_append_of_le_length (by simpa [Nat.lt_succ_iff] using hk)] at hprefix
    have hdrop : sought <+: before.drop k := by
      rcases prefix_or_prefix_of_prefix hprefix
        (prefix_append _ _) with hprefix | ⟨_ | ⟨y, more⟩, rfl⟩
      · exact hprefix
      · simp
      · simp_all
    exact hdrop.isInfix.trans (drop_suffix k before).isInfix

theorem findLast_append (before : List α) (h : x ∉ after) :
    findLast x (before ++ x :: after) = before.length := by
  have hfind : (before ++ x :: after).reverse.findIdx? (· == x) = some after.length := by
    rw [reverse_append, reverse_cons, append_assoc, findIdx?_append,
      findIdx?_eq_none_iff.2 (by grind)]
    simp [findIdx?_cons]
  rw [findLast, hfind]
  simp
  omega

end Cutting

/-! ## Numbers -/

theorem mem_toDigits (h : c ∈ Nat.toDigits 10 n) : ∃ d < 10, c = Nat.digitChar d := by
  induction n using Nat.strongRecOn with
  | _ n ih =>
    rw [Nat.toDigits_eq_if (by decide)] at h
    split at h
    case isTrue hlt => exact ⟨n, hlt, mem_singleton.1 h⟩
    case isFalse =>
      rcases mem_append.1 h with h | h
      · exact ih _ (by omega) h
      · exact ⟨n % 10, by omega, mem_singleton.1 h⟩

theorem readDigits_digitChar {d : Nat} (h : d < 10) (sofar : Nat) (afterDigit : Bool)
    (cs : List Char) : readDigits sofar afterDigit (Nat.digitChar d :: cs) =
      readDigits (10 * sofar + d) true cs := by
  have hne : Nat.digitChar d ≠ '_' := by interval_cases d <;> decide
  have hdigit : digit? (Nat.digitChar d) = some d := by interval_cases d <;> rfl
  rw [readDigits, if_neg hne, hdigit]

/-- The digits of a number stand for it, whatever is behind them. -/
theorem readDigits_toDigits (n : Nat) (cs : List Char) :
    readDigits 0 false (Nat.toDigits 10 n ++ cs) = readDigits n true cs := by
  induction n using Nat.strongRecOn generalizing cs with
  | _ n ih =>
    rw [Nat.toDigits_eq_if (by decide)]
    split
    case isTrue h => rw [singleton_append, readDigits_digitChar h, Nat.mul_zero, Nat.zero_add]
    case isFalse h =>
      rw [List.append_assoc, ih _ (by omega), singleton_append, readDigits_digitChar (by omega),
        Nat.div_add_mod]

theorem readSigned_toDigits (n : Nat) : readSigned (Nat.toDigits 10 n) = some (n : Int) := by
  have hread := readDigits_toDigits n []
  rw [append_nil, readDigits, if_pos rfl] at hread
  obtain ⟨c, cs, hcs⟩ := exists_cons_of_ne_nil (Nat.toDigits_ne_nil (n := n) (b := 10))
  obtain ⟨d, hd, rfl⟩ := mem_toDigits (hcs ▸ mem_cons_self)
  have hsign : Nat.digitChar d ≠ '-' ∧ Nat.digitChar d ≠ '+' := by interval_cases d <;> decide
  rw [hcs] at hread ⊢
  rw [readSigned, hread]
  · rfl
  · simp [hsign.1]
  · simp [hsign.2]

/-- A number is read from its digits, if they are not too many. -/
theorem readInt_toString (n : Nat) :
    readInt (toString n) = if digitLimit < (toString n).length then none else some (n : Int) := by
  have htext : (toString n).toList = Nat.toDigits 10 n := by simp
  have hblank : ∀ c ∈ Nat.toDigits 10 n, isBlank c = false := by
    intro c hc
    obtain ⟨d, hd, rfl⟩ := mem_toDigits hc
    interval_cases d <;> decide
  have hdigit : ∀ c ∈ Nat.toDigits 10 n, (digit? c).isSome = true := by
    intro c hc
    obtain ⟨d, hd, rfl⟩ := mem_toDigits hc
    interval_cases d <;> rfl
  have hdrop : ∀ cs : List Char, (∀ c ∈ cs, isBlank c = false) → cs.dropWhile isBlank = cs := by
    intro cs hcs
    cases cs with
    | nil => rfl
    | cons => rw [dropWhile_cons_of_neg (by simp [hcs])]
  have htrim : (trim (toString n)).toList = Nat.toDigits 10 n := by
    rw [trim, htext, hdrop _ hblank, dropTrailing, hdrop _ (by simpa using hblank), reverse_reverse,
      String.toList_ofList]
  rw [readInt, htrim, filter_eq_self.2 hdigit, readSigned_toDigits, ← htext, String.length_toList]

/-! ## Blanks -/

theorem unifyLinesFrom_of_notMem {cs : List Char} (h : '\r' ∉ cs) : unifyLinesFrom cs = cs := by
  fun_induction unifyLinesFrom cs with
  | case1 => rfl
  | case2 | case3 => simp at h
  | case4 c _ _ _ ih => rw [ih fun hmem => h (mem_cons_of_mem c hmem)]

theorem dropTrailing_of_getLast? {cs : List Char}
    (h : ∀ c, cs.getLast? = some c → isBlank c = false) : dropTrailing cs = cs := by
  unfold dropTrailing
  rcases eq_nil_or_concat cs with rfl | ⟨front, c, rfl⟩
  · rfl
  · have hlast : isBlank c = false := h c (by simp)
    simp [hlast]

end Text

/-! ## Octets -/

namespace Octets

@[simp]
theorem length_little (width n : Nat) : (little width n).length = width := by
  induction width generalizing n with
  | zero => rfl
  | succ width ih => simp [little, ih]

@[simp]
theorem length_big (width n : Nat) : (big width n).length = width := by simp [big]

/-- A number that fits reads back from its octets. -/
theorem ofLittle_little (width n : Nat) (h : n < Nat.pow 256 width) :
    ofLittle (little width n) = n := by
  induction width generalizing n with
  | zero => simp_all [little, ofLittle]
  | succ width ih =>
    have hq : n / 256 < Nat.pow 256 width := by
      refine Nat.div_lt_of_lt_mul ?_
      simpa [Nat.pow_succ, Nat.mul_comm] using h
    simp only [little, ofLittle, ih (n / 256) hq, UInt8.toNat_ofNat']
    omega

theorem ofBig_big (width n : Nat) (h : n < Nat.pow 256 width) : ofBig (big width n) = n := by
  simp [ofBig, big, ofLittle_little width n h]

@[simp]
theorem flatten_lines (xs : Octets) : (lines xs).flatten = xs := by
  induction xs with
  | nil => rfl
  | cons x xs ih =>
    rw [lines]
    split
    · simp [ih]
    · cases h : lines xs with
      | nil => simp_all
      | cons l ls => simp_all

theorem behindLast_le (x : UInt8) (xs : Octets) : behindLast x xs ≤ xs.length := by
  have h := (dropWhile_sublist (l := xs.reverse) (p := (· != x))).length_le
  simpa [behindLast] using h

end Octets

end ShellFlow
