import ShellFlow.Proofs.Table
import ShellFlow.Proofs.Variables.Arrays
import ShellFlow.Variables.Environment

/-!
# Reading a listing of variables

A shell lists its variables as declarations: scalars, variables without a value, and arrays.
Reading a listing gives every variable back, unless an array with items is the last declaration, the
gaps between the items of one are too wide, a value stands between two double quotes, which it
loses, or a value in the middle of an array ends with a parenthesis.

## Contents

* **Declarations** (`Declaration`): how each is written (`tokens`), what it declares (`entry`), and
  what it is read as (`readAs`).  Most declarations are read as themselves, and
  `Declaration.readAs_eq_iff` tells which.  An array that is closed too early is read as the items
  up to there, and what is left of it is read as a scalar.
* **One declaration** (`Declaration.Printed.read_eq_ok`): what it is read as goes into the
  environment, and reading goes on behind it.
* **A listing** (`readDeclarations_recovers_iff`): when every name gets the value of its last
  declaration.
* **Sparse arrays** (`ArrayDeclaration.read_places_iff`): when every value of a single array is at
  its index.

## Design Notes

The statements are about declarations, not about texts: a listing is written by `tokens`, and
`readAs` gives declarations again.  So the same `entry` says what was meant and what was read, and
the two can be compared name by name (`latest`).
-/

namespace ShellFlow

open List

/-- A variable as a shell lists it. -/
inductive Declaration where
  | scalar (attributes name value : String)
  | unset (attributes name : String)
  | array (attributes name : String) (items : List (Nat × String))

namespace Declaration

def name : Declaration → String
  | scalar _ name _ | unset _ name | array _ name _ => name

/-- How a declaration is printed. -/
def tokens : Declaration → List String
  | scalar attributes name value => [declareKeyword, attributes, name ++ "=" ++ value]
  | unset attributes name => [declareKeyword, attributes, name]
  | array attributes name [] => [declareKeyword, attributes, name ++ "=()"]
  | array attributes name (item :: rest) =>
    declareKeyword :: attributes :: (name ++ "=(" ++ closedText item rest) :: itemTokens rest

/-- What is declared.  Two dashes are no attributes, but they are kept for a variable without a
value. -/
def entry : Declaration → Entry
  | scalar attributes _ value =>
      .declared (if attributes = "--" then .null else .text attributes) (.text value)
  | unset attributes _ =>
      .declared (if isArrayAttributes attributes then .null else .text attributes) (.text "")
  | array _ _ items => .declared .null (.list ((placed items).map (·.getD .null)))

/-- A declaration that a shell writes. -/
def Printed : Declaration → Prop
  | scalar attributes name _ => isArrayAttributes attributes = false ∧ ' ' ∉ attributes.toList ∧
      '=' ∉ attributes.toList ∧ '=' ∉ name.toList
  | unset attributes name => ' ' ∉ attributes.toList ∧ '=' ∉ attributes.toList ∧ '=' ∉ name.toList
  | array attributes name items =>
      isArrayAttributes attributes ∧ '=' ∉ name.toList ∧ Ascending items

/-- Only the last value of an array may end with a parenthesis. -/
def ClosesLast : Declaration → Prop
  | array _ _ items => ShellFlow.ClosesLast items
  | _ => True

/-- The items of an array fit. -/
def Fits (room : Nat) : Declaration → Prop
  | array _ _ items => ItemsFit room 0 items
  | _ => True

/-- An array with items. -/
def IsFilled : Declaration → Prop
  | array _ _ items => items ≠ []
  | _ => False

/-- A scalar with a value between two double quotes. -/
def IsQuoted : Declaration → Prop
  | scalar _ _ value => ∃ inner, value.toList = '"' :: inner ++ ['"']
  | _ => False

/-- What items are read as that an array has left over: a scalar with the index of the first one as
its name, and all that is behind its equals sign as its value. -/
def ofItems : List (Nat × String) → Declaration
  | [] => scalar "--" "" ""
  | (i, v) :: rest =>
    scalar "--" ("[" ++ toString i ++ "]")
      (" ".intercalate ((v ++ if rest = [] then ")" else "") :: itemTokens rest))

/-- What a declaration is read as.  A value loses the quotes around it, and an array the items
behind one that ends with a parenthesis: the first of them is dropped, and the others are read as a
scalar. -/
def readAs : Declaration → List Declaration
  | scalar attributes name value =>
      [scalar attributes name (String.ofList (stripQuotes value.toList))]
  | unset attributes name => [unset attributes name]
  | array attributes name items =>
    match cutItems items with
    | (kept, []) => [array attributes name kept]
    | (kept, _ :: left) => [array attributes name kept, ofItems left]

end Declaration

open Declaration

variable {host : Host} {d : Declaration} {ds es : List Declaration} {env env' : Environment}
  {tail : List String} {attributes name token : String} {item : Nat × String}
    {rest items : List (Nat × String)}

theorem stripQuotes_eq_self_iff {cs : List Char} :
    stripQuotes cs = cs ↔ ¬ ∃ inner, cs = '"' :: inner ++ ['"'] := by
  constructor
  · rintro hstrip ⟨inner, rfl⟩
    have hlength := congrArg List.length hstrip
    simp [stripQuotes] at hlength
    omega
  · intro h
    unfold stripQuotes
    split
    case h_1 rest =>
      refine if_neg fun hlast => h ⟨rest.dropLast, ?_⟩
      rw [cons_append, dropLast_append_getLast? _ hlast]
    case h_2 => rfl

/-- **A declaration is read as itself exactly if its value is in no quotes and its items are not
closed early.** -/
theorem Declaration.readAs_eq_iff : d.readAs = [d] ↔ d.ClosesLast ∧ ¬ d.IsQuoted := by
  cases d with
  | scalar =>
    simp only [readAs, IsQuoted, ← stripQuotes_eq_self_iff, Declaration.ClosesLast, true_and,
      cons.injEq, scalar.injEq, and_true]
    rw [← String.toList_inj, String.toList_ofList]
  | unset => simp [readAs, Declaration.ClosesLast, IsQuoted]
  | array attributes name items =>
    simp only [readAs, Declaration.ClosesLast, IsQuoted, not_false_eq_true, and_true,
      ← cutItems_eq_iff]
    obtain ⟨kept, left⟩ := cutItems items
    cases left with
    | nil => simp
    | cons => simp

/-! ## One declaration -/

theorem readDeclarations_scalar (h : isArrayAttributes attributes = false) :
    readDeclarations host env (declareKeyword :: attributes :: token :: tail) =
      readDeclarations host (env.insert (ScalarDeclaration.read (attributes ++ " " ++ token)).name
        (ScalarDeclaration.read (attributes ++ " " ++ token)).entry) tail := by
  rw [readDeclarations]
  simp [h]

theorem readDeclarations_array (h : isArrayAttributes attributes) :
    readDeclarations host env (declareKeyword :: attributes :: token :: tail) = (do
      let d ← ArrayDeclaration.read host (declareKeyword :: attributes :: token :: tail)
      readDeclarations host (env.insert d.name (.declared .null d.value))
        ((token :: tail).drop (d.used - 2))) := by
  rw [readDeclarations]
  simp only [if_true, h]
  cases ArrayDeclaration.read host (declareKeyword :: attributes :: token :: tail) <;> rfl

/-- Reading takes the items of an array up to one with a closing parenthesis. -/
theorem ArrayDeclaration.read_items (h : isArrayAttributes attributes) (hname : '=' ∉ name.toList) :
    ArrayDeclaration.read host ((array attributes name (item :: rest)).tokens ++ tail) = (do
      let (values, used) ← readItems host [] (closedText item rest).toList (itemTokens rest ++ tail)
      return { name, value := .list (values.map (·.getD .null)), used := used + 3 }) := by
  have htoken : (name ++ "=(" ++ closedText item rest).toList =
      name.toList ++ '=' :: '(' :: (closedText item rest).toList := by
    simp
  have hne : '(' :: (closedText item rest).toList ≠ ['(', ')'] := by
    rw [closedText, String.toList_append, toList_itemText]
    simp
  rw [tokens, cons_append, cons_append, cons_append, ArrayDeclaration.read]
  simp only [h, htoken, cutAtEquals_append hname, if_neg hne, drop_one, tail_cons,
    String.ofList_toList]
  rfl

theorem readDeclarations_items (h : isArrayAttributes attributes) (hname : '=' ∉ name.toList) :
    readDeclarations host env ((array attributes name (item :: rest)).tokens ++ tail) = (do
      let (values, used) ← readItems host [] (closedText item rest).toList (itemTokens rest ++ tail)
      readDeclarations host (env.insert name (.declared .null (.list (values.map (·.getD .null)))))
        ((itemTokens rest ++ tail).drop used)) := by
  have hread := @ArrayDeclaration.read_items host tail attributes name item rest h hname
  rw [tokens, cons_append, cons_append, cons_append] at hread ⊢
  rw [readDeclarations_array h, hread]
  cases readItems host [] (closedText item rest).toList (itemTokens rest ++ tail) <;> rfl

theorem length_itemTokens (items : List (Nat × String)) :
    (itemTokens items).length = items.length := by
  induction items with
  | nil => rfl
  | cons _ _ ih => rw [itemTokens, length_cons, ih, length_cons]

theorem drop_itemTokens (n : Nat) (items : List (Nat × String)) :
    (itemTokens items).drop n = itemTokens (items.drop n) := by
  induction items generalizing n with
  | nil => simp [itemTokens]
  | cons _ _ ih =>
    cases n with
    | zero => rfl
    | succ n => exact ih n

/-- A token of an item is no keyword. -/
theorem ne_declareKeyword_of_mem (h : token ∈ itemTokens items) : token ≠ declareKeyword := by
  induction items with
  | nil => cases h
  | cons item rest ih =>
    rcases mem_cons.1 h with rfl | h
    · rw [Ne, ← String.toList_inj, closedText, String.toList_append, toList_itemText]
      simp [declareKeyword]
    · exact ih h

/-- The last token of some items closes the array. -/
theorem getLast?_intercalate_itemTokens (v : String) (rest : List (Nat × String)) :
    (" ".intercalate ((v ++ if rest = [] then ")" else "") :: itemTokens rest)).toList.getLast? =
      some ')' := by
  induction rest generalizing v with
  | nil => simp [itemTokens]
  | cons item rest ih =>
    have hitem : closedText item rest = itemText item ++ if rest = [] then ")" else "" := rfl
    rw [itemTokens, hitem, String.intercalate_cons_cons, String.toList_append, getLast?_append, ih]
    rfl

theorem read_ofItems (items : List (Nat × String)) :
    (ScalarDeclaration.read (" ".intercalate (itemTokens items))).name = (ofItems items).name ∧
      (ScalarDeclaration.read (" ".intercalate (itemTokens items))).entry =
      (ofItems items).entry := by
  cases items with
  | nil => exact ⟨by decide +kernel, rfl⟩
  | cons item rest =>
    obtain ⟨i, v⟩ := item
    set value := " ".intercalate
      ((v ++ if rest = [] then ")" else "") :: itemTokens rest) with hvalue
    have hlast : value.toList.getLast? = some ')' := getLast?_intercalate_itemTokens v rest
    have hstrip : stripQuotes value.toList = value.toList := by
      refine stripQuotes_eq_self_iff.2 ?_
      rintro ⟨inner, hinner⟩
      rw [hinner, getLast?_append] at hlast
      simp at hlast
    have htext : (" ".intercalate (itemTokens ((i, v) :: rest))).toList =
        ('[' :: Nat.toDigits 10 i ++ [']']) ++ '=' :: value.toList := by
      rw [itemTokens, closedText, itemText, String.append_assoc, String.intercalate_cons_append,
        ← hvalue]
      simp
    have hname : String.ofList ('[' :: Nat.toDigits 10 i ++ [']']) = "[" ++ toString i ++ "]" := by
      rw [← String.toList_inj]
      simp
    rw [ScalarDeclaration.read, htext, cutAtEquals_append (notMem_index (by simp))]
    simp only [span_of_notMem (notMem_index (c := ' ') (by simp)), hstrip, String.ofList_toList,
      hname]
    exact ⟨rfl, rfl⟩

/-- The items of an array are read up to one with a closing parenthesis, and then what is behind
them. -/
theorem readDeclarations_cut (harray : isArrayAttributes attributes) (hname : '=' ∉ name.toList)
    (hlisted : Ascending (item :: rest)) :
    readDeclarations host env ((array attributes name (item :: rest)).tokens ++ tail) = .ok env' ↔
      (ItemsFit host.room 0 (cutItems (item :: rest)).1 ∧
        ((cutItems (item :: rest)).2 = [] → tail ≠ [])) ∧
        readDeclarations host
        (env.insert name (array attributes name (cutItems (item :: rest)).1).entry)
          (itemTokens (cutItems (item :: rest)).2 ++ tail) = .ok env' := by
  obtain ⟨i, v⟩ := item
  have hitems := @Ascending.readItems_eq_ok host rest [] i v hlisted tail
  obtain ⟨n, hn, hdrop⟩ := snd_cutItems (i, v) rest
  have hlength : n + (cutItems ((i, v) :: rest)).2.length = rest.length := by
    rw [hdrop, length_drop]
    omega
  have hbehind : (itemTokens rest ++ tail).drop n = itemTokens (cutItems ((i, v) :: rest)).2 ++
      tail := by
    rw [hdrop, drop_append_of_le_length (by rwa [length_itemTokens]), drop_itemTokens]
  rw [readDeclarations_items harray hname, bind_eq_ok]
  constructor
  · rintro ⟨⟨values, used⟩, hread, hnext⟩
    obtain ⟨hfit, rfl, hused⟩ := hitems.1 hread
    obtain rfl : used = n := by omega
    exact ⟨hfit, hbehind ▸ hnext⟩
  · rintro ⟨hfit, hnext⟩
    refine ⟨_, hitems.2 ⟨hfit, rfl, hlength⟩, ?_⟩
    show readDeclarations host _ ((itemTokens rest ++ tail).drop n) = _
    rw [hbehind]
    exact hnext

/-- What an array leaves over is read as a scalar. -/
theorem readDeclarations_left (htail : ∀ t ∈ tail.head?, t = declareKeyword) :
    readDeclarations host env (itemTokens (item :: rest) ++ tail) =
      readDeclarations host (env.insert (ofItems rest).name (ofItems rest).entry) tail := by
  have hfirst : closedText item rest ≠ declareKeyword :=
    @ne_declareKeyword_of_mem _ (item :: rest) mem_cons_self
  have hwords : ∀ t ∈ itemTokens rest, (t != declareKeyword) = true := fun t ht =>
    bne_iff_ne.2 (ne_declareKeyword_of_mem ht)
  have htake : (itemTokens rest ++ tail).takeWhile (· != declareKeyword) = itemTokens rest := by
    rw [takeWhile_append_of_pos hwords]
    cases tail with
    | nil => simp
    | cons t => simp [htail t rfl]
  have hdrop : (itemTokens rest ++ tail).dropWhile (· != declareKeyword) = tail := by
    rw [dropWhile_append_of_pos hwords]
    cases tail with
    | nil => simp
    | cons t => simp [htail t rfl]
  rw [itemTokens, cons_append, readDeclarations.eq_def]
  simp only [if_neg hfirst, htake, hdrop, (read_ofItems rest).1, (read_ofItems rest).2]

theorem readAs_ne_nil (d : Declaration) : d.readAs ≠ [] := by
  cases d with
  | scalar | unset => exact cons_ne_nil _ _
  | array =>
    rw [readAs]
    split <;> exact cons_ne_nil _ _

/-- Puts what is declared into an environment, in order. -/
def declareAll (env : Environment) (ds : List Declaration) : Environment :=
  ds.foldl (fun e d => e.insert d.name d.entry) env

/-- **A declaration is read if what it is read as fits and, for an array with items, a token is
behind it.**  What is behind it is read next. -/
theorem Declaration.Printed.read_eq_ok (h : d.Printed)
    (htail : ∀ t ∈ tail.head?, t = declareKeyword) :
    readDeclarations host env (d.tokens ++ tail) = .ok env' ↔
      ((∀ e ∈ d.readAs, e.Fits host.room) ∧ ∀ e ∈ d.readAs.getLast?, e.IsFilled → tail ≠ []) ∧
        readDeclarations host (declareAll env d.readAs) tail = .ok env' := by
  cases d with
  | scalar attributes name value =>
    obtain ⟨hscalar, hblank, hattributes, hname⟩ := h
    have htext : (attributes ++ " " ++ (name ++ "=" ++ value)).toList =
        (attributes.toList ++ ' ' :: name.toList) ++ '=' :: value.toList := by simp
    have hcut : '=' ∉ attributes.toList ++ ' ' :: name.toList := by simp [hattributes, hname]
    rw [and_iff_right ⟨by simp [readAs, Fits], by simp [readAs, IsFilled]⟩, tokens, cons_append,
      cons_append,
      cons_append, readDeclarations_scalar hscalar, ScalarDeclaration.read, htext,
        cutAtEquals_append hcut]
    simp only [span_append_cons hblank, String.ofList_toList]
    by_cases hdashes : attributes = "--" <;>
      simp [hdashes, ScalarDeclaration.entry, declareAll, readAs, entry, Declaration.name,
        Value.ofOption]
  | unset attributes name =>
    obtain ⟨hblank, hattributes, hname⟩ := h
    rw [and_iff_right ⟨by simp [readAs, Fits], by simp [readAs, IsFilled]⟩, tokens, cons_append,
      cons_append,
      cons_append]
    cases harray : isArrayAttributes attributes with
    | true =>
      rw [readDeclarations_array harray, ArrayDeclaration.read]
      simp only [harray, cutAtEquals_of_notMem hname]
      simp [declareAll, readAs, entry, Declaration.name, harray, bind, Except.bind, pure,
        Except.pure]
    | false =>
      have htext : (attributes ++ " " ++ name).toList =
        attributes.toList ++ ' ' :: name.toList := by simp
      rw [readDeclarations_scalar harray, ScalarDeclaration.read, htext,
        cutAtEquals_of_notMem (by simp [hattributes, hname])]
      simp only [span_append_cons hblank, String.ofList_toList]
      simp [harray, ScalarDeclaration.entry, declareAll, readAs, entry, Declaration.name,
        Value.ofOption]
  | array attributes name items =>
    obtain ⟨harray, hname, hlisted⟩ := h
    cases items with
    | nil =>
      have htext : (name ++ "=()").toList = name.toList ++ '=' :: ['(', ')'] := by simp
      rw [and_iff_right
        ⟨by simp [readAs, cutItems, Fits, ItemsFit], by simp [readAs, cutItems, IsFilled]⟩, tokens,
        cons_append, cons_append, cons_append, readDeclarations_array harray, ArrayDeclaration.read]
      simp only [harray, htext, cutAtEquals_append hname, if_true, String.ofList_toList]
      rfl
    | cons item rest =>
      obtain ⟨i, v⟩ := item
      rw [readDeclarations_cut harray hname hlisted, readAs]
      cases hcut : cutItems ((i, v) :: rest) with
      | mk kept left =>
        have hkept : kept ≠ [] := by
          have hfirst : (cutItems ((i, v) :: rest)).1 ≠ [] := by
            rw [cutItems]
            split <;> exact cons_ne_nil _ _
          rwa [hcut] at hfirst
        cases left with
        | nil => simp [Fits, IsFilled, hkept, itemTokens, declareAll, Declaration.name]
        | cons =>
          have hnotFilled : ∀ left, ¬ (ofItems left).IsFilled := by
            intro left
            cases left <;> exact id
          have hfits : ∀ left, (ofItems left).Fits host.room := by
            intro left
            cases left <;> exact trivial
          have harrayFits : (array attributes name kept).Fits host.room ↔
            ItemsFit host.room 0 kept := Iff.rfl
          have hnamed : (array attributes name kept).name = name := rfl
          simp [readDeclarations_left htail, declareAll, hnotFilled, hfits, harrayFits, hnamed]

/-! ## A listing -/

/-- Arrays fit, and one with items is not the last declaration. -/
def Complete (room : Nat) (ds : List Declaration) : Prop :=
  (∀ d ∈ ds, d.Fits room) ∧ ∀ d ∈ ds.getLast?, ¬ d.IsFilled

theorem complete_append : Complete host.room (ds ++ es) ↔
    ((∀ d ∈ ds, d.Fits host.room) ∧ ∀ d ∈ ds.getLast?, d.IsFilled → es ≠ []) ∧
    Complete host.room es := by
  cases es with
  | nil => simp [Complete]
  | cons e es =>
    rw [Complete, Complete, getLast?_append_of_ne_nil _ (cons_ne_nil _ _), forall_mem_append]
    simp [and_assoc]

theorem head?_flatMap_tokens : ∀ t ∈ (ds.flatMap tokens).head?, t = declareKeyword := by
  cases ds with
  | nil => simp
  | cons d ds => rcases d with _ | _ | ⟨_, _, _ | _⟩ <;> simp [tokens]

theorem flatMap_tokens_eq_nil_iff : ds.flatMap tokens = [] ↔ ds.flatMap readAs = [] := by
  cases ds with
  | nil => simp
  | cons d ds =>
    have htokens : d.tokens ≠ [] := by rcases d with _ | _ | ⟨_, _, _ | _⟩ <;> exact cons_ne_nil _ _
    simp [htokens, readAs_ne_nil]

/-- **A listing is read to its end if what it is read as is complete, and not otherwise.** -/
theorem readDeclarations_eq_ok (h : ∀ d ∈ ds, d.Printed) :
    readDeclarations host env (ds.flatMap tokens) = .ok env' ↔
      Complete host.room (ds.flatMap readAs) ∧ declareAll env (ds.flatMap readAs) = env' := by
  induction ds generalizing env with
  | nil => simp [readDeclarations, Complete, declareAll]
  | cons d ds ih =>
    obtain ⟨hd, hds⟩ := forall_mem_cons.1 h
    rw [flatMap_cons, hd.read_eq_ok head?_flatMap_tokens, ih hds, flatMap_cons, complete_append, Ne,
      flatMap_tokens_eq_nil_iff, ← Ne, declareAll, declareAll, declareAll, foldl_append]
    exact and_assoc.symm

/-- The last declaration of a name. -/
def latest (ds : List Declaration) (name : String) : Option Declaration :=
    ds.findRev? (·.name == name)

theorem get?_declareAll (name : String) :
    (declareAll env ds).get? name = ((latest ds name).map entry).or (env.get? name) := by
  induction ds generalizing env with
  | nil => rfl
  | cons d ds ih =>
    rw [declareAll, foldl_cons, ← declareAll, ih, Table.get?_insert, latest, latest, List.findRev?]
    cases ds.findRev? (·.name == name) with
    | some => rfl
    | none =>
      by_cases hname : d.name = name
      · simp [hname]
      · simp [hname, Ne.symm hname]

/-- **When a listing of variables is recovered.**  Every name gets the value of its last
declaration, and no other name has one, exactly if what the listing is read as is complete and
declares the same at last.  A declaration is read as itself exactly if its value stands in no quotes
and, in an array, no value but the last ends with a parenthesis. -/
theorem readDeclarations_recovers_iff (host : Host) {ds : List Declaration}
    (h : ∀ d ∈ ds, d.Printed) :
        ((∃ env, readDeclarations host .empty (ds.flatMap tokens) = .ok env ∧
        ∀ name, env.get? name = (latest ds name).map entry) ↔
      Complete host.room (ds.flatMap readAs) ∧
        ∀ name, (latest (ds.flatMap readAs) name).map entry = (latest ds name).map entry) ∧
    ∀ d ∈ ds, d.readAs = [d] ↔ d.ClosesLast ∧ ¬ d.IsQuoted := by
  refine ⟨?_, fun d _ => readAs_eq_iff⟩
  have hget : ∀ name, (declareAll .empty (ds.flatMap readAs)).get? name =
      (latest (ds.flatMap readAs) name).map entry := by
    intro name
    rw [get?_declareAll, Table.get?_empty, Option.or_none]
  simp only [readDeclarations_eq_ok h]
  constructor
  · rintro ⟨_, ⟨hcomplete, rfl⟩, hsame⟩
    exact ⟨hcomplete, fun name => (hget name).symm.trans (hsame name)⟩
  · rintro ⟨hcomplete, hsame⟩
    exact ⟨_, ⟨hcomplete, rfl⟩, fun name => (hget name).trans (hsame name)⟩

/-- An array with a gap, a scalar of the same name behind it, and an unset variable. -/
def declared : List Declaration :=
  [array "-a" "x" [(0, "p"), (2, "q=)")], scalar "--" "y" "\"", scalar "-x" "x" "a b",
    unset "--" "z"]

theorem readDeclarations_recovers_listing :
    (∀ d ∈ declared, d.Printed) ∧ Complete 1 (declared.flatMap readAs) ∧
    ∃ env, readDeclarations { room := 1 } .empty (declared.flatMap tokens) = .ok env ∧
      ∀ name, env.get? name = (latest declared name).map entry := by
  have hprinted : ∀ d ∈ declared, d.Printed := by
    simp only [declared, forall_mem_cons, Printed]
    refine ⟨⟨rfl, by simp, ⟨by simp, by simp⟩⟩, ⟨rfl, by simp⟩, ⟨rfl, by simp⟩, by simp, by simp⟩
  have hiff := readDeclarations_recovers_iff { room := 1 } hprinted
  have hself : ∀ d ∈ declared, d.readAs = [d] := by
    intro d hd
    refine (hiff.2 d hd).2 ?_
    simp only [declared, mem_cons, not_mem_nil, or_false] at hd
    rcases hd with rfl | rfl | rfl | rfl <;>
      simp [Declaration.ClosesLast, ShellFlow.ClosesLast, isClosing, IsQuoted]
  have hsame : declared.flatMap readAs = declared := by
    rw [flatMap_congr hself, flatMap_singleton']
  have hcomplete : Complete 1 (declared.flatMap readAs) := by
    rw [hsame]
    refine ⟨?_, by simp [declared, IsFilled]⟩
    simp only [declared, forall_mem_cons, Fits, ItemsFit, IndexFits, GapFits]
    refine ⟨⟨⟨by decide, by decide⟩, ⟨by decide, by decide⟩, trivial⟩, trivial, trivial,
      trivial, by simp⟩
  exact ⟨hprinted, hcomplete, hiff.1.2 ⟨hcomplete, fun name => by rw [hsame]⟩⟩

/-- An array that is declared last is not read. -/
theorem readDeclarations_last_array :
    (array "-a" "x" [(0, "p")]).Printed ∧ (array "-a" "x" [(0, "p")]).Fits 0 ∧
      readDeclarations {} .empty (array "-a" "x" [(0, "p")]).tokens = .error .outOfRange :=
  ⟨⟨rfl, by simp, by simp, by simp⟩, ⟨⟨by decide, ⟨by decide, by decide⟩⟩, trivial⟩,
    map_eq_error (f := fun _ => ()) |>.1 (by decide +kernel)⟩

/-! ## Sparse arrays -/

theorem ArrayDeclaration.read_eq_ok {a : ArrayDeclaration}
    (h : (array attributes name items).Printed) (hcloses : ShellFlow.ClosesLast items)
    (hne : items ≠ []) (htail : tail ≠ []) :
      ArrayDeclaration.read host ((array attributes name items).tokens ++ tail) = .ok a ↔
      ItemsFit host.room 0 items ∧
        a = ⟨name, .list ((placed items).map (·.getD .null)), items.length + 2⟩ := by
  obtain ⟨hattributes, hname, hitems⟩ := h
  obtain ⟨⟨i, v⟩, rest, rfl⟩ := exists_cons_of_ne_nil hne
  have hread := @Ascending.readItems_eq_ok host rest [] i v hitems tail
  rw [cutItems_eq_iff.2 hcloses] at hread
  rw [ArrayDeclaration.read_items hattributes hname, bind_eq_ok]
  constructor
  · rintro ⟨⟨values, used⟩, hvalues, heq⟩
    obtain ⟨⟨hfit, -⟩, rfl, rfl⟩ := hread.1 hvalues
    exact ⟨hfit, (Except.ok.inj heq).symm⟩
  · rintro ⟨hfit, rfl⟩
    exact ⟨_, hread.2 ⟨⟨hfit, fun _ => htail⟩, rfl, rfl⟩, rfl⟩

/-- **A sparse array is read exactly if no index is too long and no gap too wide.**  Then every
value is at its index, nothing is at the others up to the last, and what comes next are the tokens
behind the array. -/
theorem ArrayDeclaration.read_places_iff (host : Host) {tokens : List String} {i : Nat}
    {attributes name : String} {items : List (Nat × String)}
    (htokens : tokens.drop i = (array attributes name items).tokens ++ tail)
    (h : (array attributes name items).Printed) (hcloses : ShellFlow.ClosesLast items)
    (hne : items ≠ []) (htail : tail ≠ []) :
    (∃ values used, ArrayDeclaration.read host (tokens.drop i) = .ok ⟨name, .list values, used⟩ ∧
        items.getLast?.map (·.1 + 1) = some values.length ∧
        (∀ j < values.length, values[j]? = some (((items.lookup j).map .text).getD .null)) ∧
        tokens.drop (i + used) = tail) ↔ ItemsFit host.room 0 items := by
  rw [htokens]
  constructor
  · rintro ⟨values, used, hread, -⟩
    exact ((ArrayDeclaration.read_eq_ok h hcloses hne htail).1 hread).1
  · intro hfit
    refine ⟨_, _, (ArrayDeclaration.read_eq_ok h hcloses hne htail).2 ⟨hfit, rfl⟩, ?_,
      fun j hj => ?_, ?_⟩
    · rw [length_map, length_placed, extent, getLast?_eq_some_getLast hne]
      rfl
    · rw [length_map, length_placed] at hj
      simp [placed, hj]
    · rw [← drop_drop, htokens]
      obtain ⟨item, rest, rfl⟩ := exists_cons_of_ne_nil hne
      exact drop_left' (congrArg (· + 3) (length_itemTokens rest))

/-- An array with gaps, between other tokens. -/
def gapped : List String := ["true", "declare", "-a", "x=([1]=p", "[3]=q))", "declare"]

theorem ArrayDeclaration.read_places_gapped :
    ∃ values used, ArrayDeclaration.read { room := 1 } (gapped.drop 1) =
      .ok ⟨"x", .list values, used⟩ ∧ some 4 = some values.length ∧
      (∀ j < values.length,
        values[j]? = some ((([(1, "p"), (3, "q)")].lookup j).map .text).getD .null)) ∧
      gapped.drop (1 + used) = ["declare"] := by
  have htokens : gapped.drop 1 = (array "-a" "x" [(1, "p"), (3, "q)")]).tokens ++ ["declare"] := by
    decide +kernel
  have hprinted : (array "-a" "x" [(1, "p"), (3, "q)")]).Printed := ⟨rfl, by simp, by simp, by simp⟩
  exact (ArrayDeclaration.read_places_iff { room := 1 } htokens hprinted
    (by simp [ShellFlow.ClosesLast, isClosing]) (cons_ne_nil _ _) (cons_ne_nil _ _)).2
    ⟨⟨by decide, ⟨by decide, by decide⟩⟩, ⟨by decide, ⟨by decide, by decide⟩⟩, trivial⟩

/-- No list has an item at this index, whatever memory there is. -/
theorem ArrayDeclaration.read_too_large :
    (array "-a" "x" [(9223372036854775808, "v")]).Printed ∧
    ∀ host, ArrayDeclaration.read host
    ((array "-a" "x" [(9223372036854775808, "v")]).tokens ++ ["declare"]) =
      .error .tooLarge :=
  ⟨⟨rfl, by simp, by simp, by simp⟩, fun host => rfl⟩

end ShellFlow
