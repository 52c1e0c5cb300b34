import ShellFlow.Proofs.Lists
import ShellFlow.Proofs.Outcome
import ShellFlow.Proofs.Text
import ShellFlow.Variables.Array

/-!
# Reading the items of an array

The items of a declared array are written in the order of their indices, the last one with the
closing parenthesis.  Reading puts every item at its index, provided that the gaps are not too wide,
and stops at the first item that ends with a parenthesis: an item with a value of that kind hides
those behind it.

## Contents

* **Items as they are written** (`itemText`, `closedText`, `itemTokens`), and where they belong
  (`placed`).
* **What is read of them** (`cutItems`): the items up to the first one whose value ends with a
  parenthesis.  That value loses its parenthesis, and the items behind it are left over.
* **Placing and reading** (`Ascending.placed_append`, `Ascending.addItem_eq_ok`,
  `Ascending.readItems_eq_ok`): one item goes behind those with smaller indices, after a gap, and by
  induction all that are read are placed.

## Design Notes

An index is refused for three reasons: it has more digits than are read, no list is as long as the
gap in front of it, or there is no memory for that gap (`IndexFits`).  How much memory there is
depends on the host, so that every statement is about an arbitrary one.
-/

namespace ShellFlow

open List

section Cutting

variable {c : Char} {before after cs : List Char}

theorem cutAtEquals_append (h : '=' ∉ before) :
    cutAtEquals (before ++ '=' :: after) = some (before, after) := by
  rw [cutAtEquals, span_append_cons h]

theorem cutAtEquals_of_notMem (h : '=' ∉ cs) : cutAtEquals cs = none := by
  rw [cutAtEquals, span_of_notMem h]

end Cutting

/-! ## Items as they are written -/

variable {host : Host} {item : Nat × String} {items rest earlier : List (Nat × String)} {i : Nat}
  {v : String}

def itemText (item : Nat × String) : String := "[" ++ toString item.1 ++ "]=" ++ item.2

/-- An item with the closing parenthesis, if no other item follows. -/
def closedText (item : Nat × String) (rest : List (Nat × String)) : String :=
  itemText item ++ if rest = [] then ")" else ""

def itemTokens : List (Nat × String) → List String
  | [] => []
  | item :: rest => closedText item rest :: itemTokens rest

/-- How many places an array has. -/
def extent (items : List (Nat × String)) : Nat := (items.getLast?.map (·.1 + 1)).getD 0

/-- Every value at its index, and nothing at the others. -/
def placed (items : List (Nat × String)) : List (Option Value) :=
  (List.range (extent items)).map fun i => (items.lookup i).map .text

/-- A gap that a list can have, and that there is room for. -/
def GapFits (room : Nat) (gap : Int) : Prop := gap ≤ Value.longestList ∧ gap ≤ room

/-- An index that can be read and that does not leave too wide a gap behind the end of a list. -/
def IndexFits (room size i : Nat) : Prop :=
  (toString i).length ≤ Text.digitLimit ∧ GapFits room ((i : Int) - size)

/-- Items that can be placed behind a list of some length. -/
def ItemsFit (room size : Nat) : List (Nat × String) → Prop
  | [] => True
  | item :: rest => IndexFits room size item.1 ∧ ItemsFit room (item.1 + 1) rest

/-- Items in the order of their indices, without quotations. -/
structure Ascending (items : List (Nat × String)) : Prop where
  increasing : items.Pairwise (·.1 < ·.1)
  plain : ∀ item ∈ items, item.2.toList.head? ≠ some '$'

/-- Only the last value may end with a parenthesis. -/
def ClosesLast (items : List (Nat × String)) : Prop :=
  ∀ item ∈ items.dropLast, isClosing item.2.toList = false

/-- What a value is read as: it loses a parenthesis at its end, if other items follow. -/
def valueRead (v : String) (rest : List (Nat × String)) : String :=
  if rest ≠ [] ∧ isClosing v.toList then String.ofList v.toList.dropLast else v

/-- The items as they are read, up to the first one with a parenthesis at its end, and the items
behind it. -/
def cutItems : List (Nat × String) → List (Nat × String) × List (Nat × String)
  | [] => ([], [])
  | item :: rest =>
    if isClosing item.2.toList then ([(item.1, valueRead item.2 rest)], rest)
    else (item :: (cutItems rest).1, (cutItems rest).2)

theorem toList_itemText :
    (itemText (i, v)).toList = ('[' :: Nat.toDigits 10 i ++ [']']) ++ '=' :: v.toList := by
  simp [itemText]

theorem notMem_index {c : Char} (hc : c ∈ [' ', '=']) : c ∉ '[' :: Nat.toDigits 10 i ++ [']'] := by
  have hdigits : c ∉ Nat.toDigits 10 i := by
    intro hmem
    obtain ⟨d, hd, rfl⟩ := Text.mem_toDigits hmem
    interval_cases d <;> simp at hc
  simp only [mem_cons, not_mem_nil, or_false] at hc
  rcases hc with rfl | rfl <;> simpa using hdigits

theorem ArrayItem.read_itemText (hplain : v.toList.head? ≠ some '$') {a : ArrayItem} :
    ArrayItem.read host (itemText (i, v)).toList = .ok a ↔
      (toString i).length ≤ Text.digitLimit ∧ a = ⟨i, .text v⟩ := by
  have hvalue : ArrayItem.readValue host v.toList = .ok (.text v) := by
    rw [ArrayItem.readValue, String.ofList_toList]
    rintro cs heq
    exact hplain (heq ▸ rfl)
  have hindex : String.ofList (('[' :: Nat.toDigits 10 i ++ [']']).drop 1).dropLast =
      toString i := by
    simp [Nat.repr_eq_ofList_toDigits]
  rw [ArrayItem.read, toList_itemText, cutAtEquals_append (notMem_index (by simp))]
  simp only [Option.getD_some, hvalue, bind, Except.bind, ArrayItem.readIndex, hindex,
    Text.readInt_toString]
  split_ifs with h
  · exact iff_of_false (by simp) fun hfits => absurd h (Nat.not_lt.2 hfits.1)
  · rw [and_iff_right (Nat.not_lt.1 h)]
    exact ⟨fun heq => (Except.ok.inj heq).symm, fun heq => heq ▸ rfl⟩

theorem placeItem_eq_ok {values values' : List (Option Value)} (hle : values.length ≤ i) :
    placeItem host values ⟨i, .text v⟩ = .ok values' ↔
      GapFits host.room ((i : Int) - values.length) ∧
      values' = values ++ List.replicate (i - values.length) none ++ [some (.text v)] := by
  rw [placeItem, Value.gapCount, GapFits]
  simp only [Value.longestList]
  split_ifs <;> simp [bind, Except.bind, pure, Except.pure] <;> grind

/-! ## What is read of the items -/

theorem closesLast_cons :
    ClosesLast (item :: rest) ↔ (rest ≠ [] → isClosing item.2.toList = false) ∧
    ClosesLast rest := by
  cases rest with
  | nil => simp [ClosesLast]
  | cons => simp [ClosesLast]

/-- **Nothing is left over exactly if only the last value may end with a parenthesis.**  Then the
items are read as they are. -/
theorem cutItems_eq_iff : cutItems items = (items, []) ↔ ClosesLast items := by
  induction items with
  | nil => simp [cutItems, ClosesLast]
  | cons item rest ih =>
    rw [cutItems, closesLast_cons, ← ih]
    cases hclosing : isClosing item.2.toList with
    | true =>
      rw [if_pos rfl]
      cases rest with
      | nil => simp [valueRead, cutItems]
      | cons => simp
    | false => simp [Prod.ext_iff]

/-- What is left over are the last of the items behind the first. -/
theorem snd_cutItems (item : Nat × String) (rest : List (Nat × String)) :
    ∃ n ≤ rest.length, (cutItems (item :: rest)).2 = rest.drop n := by
  induction rest generalizing item with
  | nil => exact ⟨0, Nat.le_refl 0, by rw [cutItems]; split <;> rfl⟩
  | cons next rest ih =>
    rw [cutItems]
    split
    · exact ⟨0, Nat.zero_le _, rfl⟩
    · obtain ⟨n, hn, hdrop⟩ := ih next
      exact ⟨n + 1, Nat.succ_le_succ hn, hdrop⟩

/-! ## Placing items -/

theorem Ascending.of_append {more : List (Nat × String)} (h : Ascending (items ++ more)) :
    Ascending items :=
  ⟨(pairwise_append.1 h.increasing).1, fun item hitem => h.plain item (mem_append_left _ hitem)⟩

theorem Ascending.append_valueRead (h : Ascending (items ++ [(i, v)]))
    (rest : List (Nat × String)) : Ascending (items ++ [(i, valueRead v rest)]) := by
  obtain ⟨hincreasing, hplain⟩ := h
  rw [pairwise_append] at hincreasing
  refine ⟨pairwise_append.2 ⟨hincreasing.1, pairwise_singleton _ _, ?_⟩, ?_⟩
  · simpa using hincreasing.2.2
  · simp only [forall_mem_append, forall_mem_singleton] at hplain ⊢
    refine ⟨hplain.1, ?_⟩
    rw [valueRead]
    split
    · rw [String.toList_ofList]
      intro hhead
      -- what a list starts with is what it starts with before its end is dropped
      cases hv : v.toList with
      | nil => simp [hv] at hhead
      | cons c cs =>
        cases cs with
        | nil => simp [hv] at hhead
        | cons => exact hplain.2 (by simpa [hv] using hhead)
    · exact hplain.2

theorem Ascending.lt_extent (h : Ascending items) (hitem : item ∈ items) :
    item.1 < extent items := by
  obtain rfl | ⟨init, last, rfl⟩ := eq_nil_or_concat items
  · cases hitem
  · rw [concat_eq_append] at h hitem ⊢
    have hlast : extent (init ++ [last]) = last.1 + 1 := by simp [extent]
    rw [hlast]
    rcases mem_append.1 hitem with hmem | hmem
    · exact Nat.lt_succ_of_lt ((pairwise_append.1 h.increasing).2.2 _ hmem _ mem_cons_self)
    · rw [mem_singleton.1 hmem]
      exact Nat.lt_succ_self _

theorem Ascending.extent_le (h : Ascending (items ++ [(i, v)])) : extent items ≤ i := by
  obtain rfl | ⟨init, last, rfl⟩ := eq_nil_or_concat items
  · exact Nat.zero_le i
  · rw [concat_eq_append] at h ⊢
    have hlast : extent (init ++ [last]) = last.1 + 1 := by simp [extent]
    rw [hlast]
    exact (pairwise_append.1 h.increasing).2.2 last (by simp) (i, v) mem_cons_self

@[simp] theorem length_placed : (placed items).length = extent items := by simp [placed]

/-- **An item goes behind those with smaller indices, after a gap.** -/
theorem Ascending.placed_append (h : Ascending (items ++ [(i, v)])) :
    placed (items ++ [(i, v)]) = placed items ++ List.replicate (i - extent items) none ++
    [some (.text v)] := by
  have hbehind : ∀ j, extent items ≤ j → items.lookup j = none := by
    intro j hj
    refine List.lookup_eq_none_iff.2 fun item hitem => ?_
    have := h.of_append.lt_extent hitem
    simp only [bne_iff_ne]
    omega
  have hle := h.extent_le
  have hextent : extent (items ++ [(i, v)]) = extent items + (i - extent items) + 1 := by
    rw [Nat.add_sub_cancel' hle]
    simp [extent]
  have hlookup : ∀ j, (items ++ [(i, v)]).lookup j =
      (items.lookup j).or (if j = i then some v else none) := by
    intro j
    rw [lookup_append]
    by_cases hj : j = i
    · simp [hj]
    · simp [lookup_cons, hj, beq_false_of_ne hj]
  rw [placed, hextent, range_succ, range_add, map_append, map_append, map_map]
  congr 1
  · congr 1
    · refine map_congr_left fun j hj => ?_
      have hj := mem_range.1 hj
      rw [hlookup, if_neg (by omega), Option.or_none]
    · refine eq_replicate_iff.2 ⟨by simp, forall_mem_map.2 fun j hj => ?_⟩
      have hj := mem_range.1 hj
      rw [Function.comp_apply, hlookup, hbehind _ (by omega), if_neg (by omega)]
      rfl
  · rw [Nat.add_sub_cancel' hle, map_singleton, hlookup, hbehind i hle, if_pos rfl]
    rfl

/-! ## Reading items -/

theorem isClosing_closedText :
    isClosing (closedText (i, v) rest).toList = (decide (rest = []) || isClosing v.toList) := by
  by_cases hrest : rest = []
  · simp [closedText, isClosing, hrest]
  · rw [closedText, if_neg hrest, String.append_empty, toList_itemText, isClosing, getLast?_append,
      getLast?_cons]
    cases hv : v.toList.getLast? <;> simp [isClosing, hrest, hv]

/-- **An item is added at its index, if that fits.**  Its value may lose a parenthesis. -/
theorem Ascending.addItem_eq_ok (h : Ascending (items ++ [(i, v)])) {values : List (Option Value)} :
    addItem host (placed items) (closedText (i, v) rest).toList = .ok values ↔
      IndexFits host.room (extent items) i ∧
      values = placed (items ++ [(i, valueRead v rest)]) := by
  have hitem : (if isClosing (closedText (i, v) rest).toList = true then
      (closedText (i, v) rest).toList.dropLast else (closedText (i, v) rest).toList) =
        (itemText (i, valueRead v rest)).toList := by
    rw [isClosing_closedText]
    by_cases hrest : rest = []
    · simp [closedText, hrest, valueRead]
    · cases hclosing : isClosing v.toList with
      | false => simp [closedText, hrest, valueRead, hclosing]
      | true =>
        have hne : v.toList ≠ [] := by
          intro hnil
          simp [isClosing, hnil] at hclosing
        rw [if_pos (by simp), closedText, if_neg hrest, String.append_empty, valueRead,
          if_pos ⟨hrest, hclosing⟩, toList_itemText, toList_itemText, String.toList_ofList,
          dropLast_append_of_ne_nil (cons_ne_nil _ _), dropLast_cons_of_ne_nil hne]
  have hread := h.append_valueRead rest
  have hplain : (valueRead v rest).toList.head? ≠ some '$' :=
    hread.plain (i, valueRead v rest) (by simp)
  have hle : (placed items).length ≤ i := by
    rw [length_placed]
    exact h.extent_le
  rw [addItem, hitem, bind_eq_ok, hread.placed_append]
  simp only [ArrayItem.read_itemText hplain, IndexFits]
  constructor
  · rintro ⟨_, ⟨hdigits, rfl⟩, hplace⟩
    obtain ⟨hgap, rfl⟩ := (placeItem_eq_ok hle).1 hplace
    rw [length_placed] at hgap ⊢
    exact ⟨⟨hdigits, hgap⟩, rfl⟩
  · rintro ⟨⟨hdigits, hgap⟩, rfl⟩
    refine ⟨_, ⟨hdigits, rfl⟩, (placeItem_eq_ok hle).2 ?_⟩
    rw [length_placed]
    exact ⟨hgap, rfl⟩

/-- **Reading items succeeds if those that are read fit and there is a token behind them.**  Then it
places them all, and tells how many of the other tokens it took. -/
theorem Ascending.readItems_eq_ok (h : Ascending (earlier ++ (i, v) :: rest)) {tail : List String}
    {values : List (Option Value)} {used : Nat} :
    readItems host (placed earlier) (closedText (i, v) rest).toList (itemTokens rest ++ tail) =
      .ok (values, used) ↔ (ItemsFit host.room (extent earlier) (cutItems ((i, v) :: rest)).1 ∧
        ((cutItems ((i, v) :: rest)).2 = [] → tail ≠ [])) ∧
      values = placed (earlier ++ (cutItems ((i, v) :: rest)).1) ∧
      used + (cutItems ((i, v) :: rest)).2.length = rest.length := by
  induction rest generalizing earlier i v values used with
  | nil =>
    have hclosing : isClosing (closedText (i, v) []).toList = true := by simp [isClosing_closedText]
    have hcut : cutItems [(i, v)] = ([(i, v)], []) := cutItems_eq_iff.2 (by simp [ClosesLast])
    have hvalue : valueRead v [] = v := if_neg (by simp)
    rw [itemTokens, nil_append, hcut]
    cases tail with
    | nil => simp [readItems, bind_eq_ok]
    | cons =>
      rw [readItems, bind_eq_ok]
      simp only [if_pos hclosing, h.addItem_eq_ok, hvalue]
      constructor
      · rintro ⟨_, ⟨hindex, rfl⟩, heq⟩
        cases heq
        exact ⟨⟨⟨hindex, trivial⟩, fun _ => cons_ne_nil _ _⟩, rfl, rfl⟩
      · rintro ⟨⟨hfit, -⟩, rfl, hused⟩
        obtain rfl : used = 0 := hused
        exact ⟨_, ⟨hfit.1, rfl⟩, rfl⟩
  | cons item rest ih =>
    obtain ⟨j, w⟩ := item
    rw [append_cons] at h
    rw [itemTokens, cons_append, readItems, bind_eq_ok, cutItems]
    simp only [h.of_append.addItem_eq_ok]
    cases hclosing : isClosing v.toList with
    | true =>
      have hcloses : isClosing (closedText (i, v) ((j, w) :: rest)).toList = true := by
        simp [isClosing_closedText, hclosing]
      simp only [if_pos hcloses, if_true]
      constructor
      · rintro ⟨_, ⟨hindex, rfl⟩, heq⟩
        cases heq
        exact ⟨⟨⟨hindex, trivial⟩, fun hnil => absurd hnil (cons_ne_nil _ _)⟩, rfl, Nat.zero_add _⟩
      · rintro ⟨⟨hfit, -⟩, rfl, hused⟩
        obtain rfl : used = 0 := by omega
        exact ⟨_, ⟨hfit.1, rfl⟩, rfl⟩
    | false =>
      have hcloses : ¬ isClosing (closedText (i, v) ((j, w) :: rest)).toList = true := by
        simp [isClosing_closedText, hclosing]
      have hvalue : valueRead v ((j, w) :: rest) = v := if_neg (by simp [hclosing])
      have hextent : extent (earlier ++ [(i, v)]) = i + 1 := by simp [extent]
      have hrest := @ih (earlier ++ [(i, v)]) j w h
      rw [append_assoc, hextent] at hrest
      simp only [if_neg hcloses, if_neg Bool.false_ne_true, hvalue, bind_eq_ok]
      constructor
      · rintro ⟨_, ⟨hindex, rfl⟩, ⟨values', used'⟩, hread, heq⟩
        obtain ⟨⟨hfit, htail⟩, rfl, hused⟩ := hrest.1 hread
        cases heq
        exact ⟨⟨⟨hindex, hfit⟩, htail⟩, rfl, by rw [length_cons, ← hused]; omega⟩
      · rintro ⟨⟨⟨hindex, hfit⟩, htail⟩, rfl, hused⟩
        rw [length_cons] at hused
        obtain ⟨used', rfl⟩ : ∃ used', used = used' + 1 := by
          obtain ⟨n, -, hdrop⟩ := snd_cutItems (j, w) rest
          rw [hdrop, length_drop] at hused
          exact ⟨used - 1, by omega⟩
        exact ⟨_, ⟨hindex, rfl⟩, _, hrest.2 ⟨⟨hfit, htail⟩, rfl, by omega⟩, rfl⟩

end ShellFlow
