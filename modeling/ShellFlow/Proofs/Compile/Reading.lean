import ShellFlow.Compile.Tree
import ShellFlow.Proofs.Outcome
import ShellFlow.Proofs.Text
import ShellFlow.Proofs.Words

/-!
# Reading the words of a command

Which words are flags can be said of the words themselves, without their texts: a bundle is a dash
with letters of known flags behind it, all of them plain characters.
-/

namespace ShellFlow

open List

variable {cs : List Char} {text : String} {w : Word} {front shown ws : List Word}
  {settings : List Setting}

/-! ### Written words -/

def isCode (code : Int) : Bool := 0 ≤ code && code < 0x110000

mutual

/-- Whether a part is a character, a quotation, or computed from variables. -/
def Part.isWritten : Part → Bool
  | .char code | .escaped code => isCode code
  | .quoted inner => Word.isWritten inner
  | .reference _ | .tilde _ | .arith _ => true
  | .substitution _ | .other _ => false

/-- Whether a word is made of characters, quotations, and what is computed from variables. -/
def Word.isWritten : List Part → Bool
  | [] => true
  | p :: ps => Part.isWritten p && Word.isWritten ps

end

theorem codeText_of_isCode {code : Int} (h : isCode code) :
    codeText code = .ok (Text.ofCodes [code.toNat]) := by
  obtain ⟨hlow, hhigh⟩ : 0 ≤ code ∧ code < 0x110000 := by simpa [isCode] using h
  have hcode : Text.codePoint code = .ok code.toNat := by
    rw [Text.codePoint, if_neg (by simp only [Text.codeBound]; omega), if_pos ⟨hlow, hhigh⟩]
  rw [codeText, Text.ofNumbers, mapM_cons, hcode]
  rfl

def Part.isPlain : Part → Bool
  | .char code => isCode code
  | _ => false

/-- A word of plain characters is the word of its text. -/
theorem Word.exists_format_of_isPlain (h : w.all Part.isPlain) :
    ∃ text, Word.format w = .ok text ∧ Word.ofString text = w := by
  have hcodes : ∃ codes : List Nat, (∀ c ∈ codes, c < 0x110000) ∧ w = codes.map (fun c => .char c) ∧
      Word.format w = .ok (Text.ofCodes codes) := by
    induction w with
    | nil => exact ⟨[], by simp, rfl, rfl⟩
    | cons p ps ih =>
      obtain ⟨hp, hps⟩ := Bool.and_eq_true_iff.1 h
      obtain ⟨codes, hcodes, rfl, hformat⟩ := ih hps
      cases p with
      | char code =>
        obtain ⟨hlow, hhigh⟩ : 0 ≤ code ∧ code < 0x110000 := by
          simpa [Part.isPlain, isCode] using hp
        refine ⟨code.toNat :: codes, forall_mem_cons.2 ⟨by omega, hcodes⟩, ?_, ?_⟩
        · rw [map_cons, Int.toNat_of_nonneg hlow]
        · rw [Word.format, Part.format, codeText_of_isCode hp, hformat]
          show Except.ok (Text.ofCodes [code.toNat] ++ Text.ofCodes codes) = _
          simp [Text.ofCodes]
      | _ => cases hp
  obtain ⟨codes, hcodes, rfl, hformat⟩ := hcodes
  exact ⟨Text.ofCodes codes, hformat, by rw [Word.ofString, Text.codes_ofCodes codes hcodes]⟩

mutual

theorem Part.exists_format : (p : Part) → p.isWritten → ∃ text, p.format = .ok text
  | .char code, h => ⟨_, codeText_of_isCode h⟩
  | .escaped code, h => ⟨_, by rw [Part.format, codeText_of_isCode h]; rfl⟩
  | .quoted inner, h => by
    obtain ⟨text, htext⟩ := Word.exists_format inner h
    exact ⟨_, by rw [Part.format, htext]; rfl⟩
  | .reference _, _ => ⟨_, rfl⟩
  | .tilde _, _ => ⟨_, rfl⟩
  | .arith _, _ => ⟨_, rfl⟩
  | .substitution _, h => nomatch h
  | .other _, h => nomatch h

theorem Word.exists_format : (w : List Part) → Word.isWritten w → ∃ text, Word.format w = .ok text
  | [], _ => ⟨_, rfl⟩
  | p :: ps, h => by
    obtain ⟨hp, hps⟩ := Bool.and_eq_true_iff.1 h
    obtain ⟨first, hfirst⟩ := Part.exists_format p hp
    obtain ⟨rest, hrest⟩ := Word.exists_format ps hps
    exact ⟨_, by rw [Word.format, hfirst, hrest]; rfl⟩

end

mutual

theorem compilePart_of_isWritten : (p : Part) → p.isWritten → compilePart p = pure p
  | .char _, _ => rfl
  | .escaped _, _ => rfl
  | .quoted inner, h => by rw [compilePart, compileParts_of_isWritten inner h, pure_bind]
  | .reference _, _ => rfl
  | .tilde _, _ => rfl
  | .arith _, _ => rfl
  | .substitution _, h => nomatch h
  | .other _, h => nomatch h

theorem compileParts_of_isWritten : (w : List Part) → Word.isWritten w → compileParts w = pure w
  | [], _ => rfl
  | p :: ps, h => by
    obtain ⟨hp, hps⟩ := Bool.and_eq_true_iff.1 h
    rw [compileParts, compilePart_of_isWritten p hp, pure_bind, compileParts_of_isWritten ps hps,
      pure_bind]

end

theorem compileWords_of_isWritten (h : ∀ w ∈ ws, Word.isWritten w) : compileWords ws = pure ws := by
  induction ws with
  | nil => rfl
  | cons w _ ih =>
    obtain ⟨hw, hws⟩ := forall_mem_cons.1 h
    rw [compileWords, compileParts_of_isWritten w hw, pure_bind, ih hws, pure_bind]

/-! ### Words of flags -/

def flagLetters : List Char := ['n', 'e', 'r', 'l', 'c']

/-- The characters that can stand in a flag or an option. -/
def settingChars : List Char := '-' :: 'd' :: 'f' :: flagLetters

theorem knownFlags_eq : knownFlags = flagLetters.map fun c => String.ofList ['-', c] := by decide

theorem mark_notMem_of_settingChars (h : ∀ c ∈ cs, c ∈ settingChars) : Text.mark ∉ cs :=
  fun hmem => absurd (h _ hmem) (by decide)

/-- Only characters have a text that can stand in a flag. -/
theorem Part.eq_char_of_format {p : Part} (hp : p.isWritten) (h : p.format = .ok text)
    (htext : ∀ c ∈ text.toList, c ∈ settingChars) : ∃ c, p = .char c.toNat ∧ text.toList = [c] := by
  -- everything else shows a character that cannot
  have hfirst : ∀ {c : Char} {a b : String}, a = String.singleton c → c ∉ settingChars →
      text = a ++ b → False := by
    intro c a b ha hc heq
    exact hc (htext c (by simp [heq, ha]))
  cases p with
  | char code =>
    rw [Part.format, codeText_of_isCode hp] at h
    cases h
    have hchars : (Text.ofCodes [code.toNat]).toList = Text.ofCode code.toNat := by
      simp [Text.ofCodes]
    rw [hchars] at htext ⊢
    obtain ⟨hlow, hhigh⟩ : 0 ≤ code ∧ code < 0x110000 := by simpa [Part.isWritten, isCode] using hp
    unfold Text.ofCode at htext ⊢
    split at htext
    · exact absurd (htext _ mem_cons_self) (by decide)
    · next hhalf =>
      split at htext
      · exact absurd (htext _ mem_cons_self) (by decide)
      · next hmark =>
        refine ⟨Char.ofNat code.toNat, ?_, by rw [if_neg hhalf, if_neg hmark]⟩
        have hvalid : code.toNat.isValidChar := by
          simp only [Text.isHalf, Bool.and_eq_true, decide_eq_true_eq, not_and, Nat.not_lt] at hhalf
          simp only [Nat.isValidChar]
          omega
        rw [Text.toNat_ofNat_of_valid hvalid, Int.toNat_of_nonneg hlow]
  | escaped =>
    obtain ⟨_, -, h⟩ := bind_eq_ok.1 h
    exact (hfirst (c := '\\') rfl (by decide) (pure_eq_ok.1 h).symm).elim
  | quoted =>
    obtain ⟨_, -, h⟩ := bind_eq_ok.1 h
    have htext := (pure_eq_ok.1 h).symm
    rw [String.append_assoc] at htext
    exact (hfirst (c := '"') rfl (by decide) htext).elim
  | reference => exact (hfirst (c := '$') rfl (by decide) (Except.ok.inj h).symm).elim
  | tilde => exact (hfirst (c := '~') (b := "") rfl (by decide) (Except.ok.inj h).symm).elim
  | arith => exact (hfirst (c := '$') (b := "((...))") rfl (by decide) (Except.ok.inj h).symm).elim
  | substitution | other => cases hp

/-- **A word whose text can stand in a flag is the word of that text.** -/
theorem Word.format_eq_ok_iff (hw : Word.isWritten w)
    (htext : ∀ c ∈ text.toList, c ∈ settingChars) :
    Word.format w = .ok text ↔ w = Word.ofString text := by
  constructor
  · intro h
    rw [Word.ofString_of_notMem (mark_notMem_of_settingChars htext)]
    induction w generalizing text with
    | nil =>
      cases h
      rfl
    | cons _ _ ih =>
      obtain ⟨hp, hps⟩ := Bool.and_eq_true_iff.1 hw
      obtain ⟨first, hfirst, h⟩ := bind_eq_ok.1 h
      obtain ⟨rest, hrest, h⟩ := bind_eq_ok.1 h
      cases h
      rw [String.toList_append] at htext ⊢
      obtain ⟨hleft, hright⟩ := forall_mem_append.1 htext
      obtain ⟨c, rfl, hc⟩ := Part.eq_char_of_format hp hfirst hleft
      rw [ih hps hright hrest, hc]
      rfl
  · rintro rfl
    exact Word.format_ofString (mark_notMem_of_settingChars htext)

/-! ### Bundles of flags -/

def Part.isFlagLetter : Part → Bool
  | .char code => flagLetters.any fun c => (c.toNat : Int) == code
  | _ => false

/-- The flags of a word that bundles some: a dash, and letters of known flags. -/
def Word.bundle? : Word → Option (List Word)
  | .char 45 :: p :: ps =>
    if (p :: ps).all Part.isFlagLetter then some ((p :: ps).map fun p => [.char 45, p]) else none
  | _ => none

/-- The word is `-d` or `-f`. -/
def Word.isOption : Word → Bool
  | [.char 45, .char code] => code == 100 || code == 102
  | _ => false

/-- Some words, with the bundles of flags in front of them split into single flags. -/
def splitBundles : List Word → List Word
  | [] => []
  | w :: rest =>
    match Word.bundle? w with
    | some flags => flags ++ splitBundles rest
    | none => w :: rest

/-- Whether the first word behind the bundles of flags is an option with an argument. -/
def readsOption : List Word → Bool
  | [] => false
  | w :: rest =>
    match Word.bundle? w with
    | some _ => readsOption rest
    | none => Word.isOption w && !rest.isEmpty

theorem mem_settingChars_of_bundle (hcs : ∀ c ∈ cs, c ∈ flagLetters) :
    ∀ c ∈ (String.ofList ('-' :: cs)).toList, c ∈ settingChars := by
  intro c hc
  rcases mem_cons.1 (String.toList_ofList ▸ hc) with rfl | hc
  · decide
  · simp [settingChars, hcs c hc]

theorem Word.ofString_dash {cs : List Char} (hcs : ∀ c ∈ cs, c ∈ flagLetters) :
    Word.ofString (String.ofList ('-' :: cs)) = .char 45 :: cs.map fun c => .char c.toNat := by
  rw [Word.ofString_of_notMem (mark_notMem_of_settingChars (mem_settingChars_of_bundle hcs))]
  simp

theorem Part.all_isFlagLetter_iff {ps : List Part} : ps.all Part.isFlagLetter ↔
    ∃ cs : List Char, (∀ c ∈ cs, c ∈ flagLetters) ∧ ps = cs.map fun c => .char c.toNat := by
  constructor
  · intro h
    induction ps with
    | nil => exact ⟨[], by simp, rfl⟩
    | cons p _ ih =>
      obtain ⟨hp, hps⟩ := Bool.and_eq_true_iff.1 h
      obtain ⟨cs, hcs, rfl⟩ := ih hps
      obtain ⟨c, hc, rfl⟩ : ∃ c ∈ flagLetters, p = .char c.toNat := by
        cases p with
        | char =>
          obtain ⟨c, hc, heq⟩ := any_eq_true.1 hp
          exact ⟨c, hc, by rw [eq_of_beq heq]⟩
        | _ => cases hp
      exact ⟨c :: cs, forall_mem_cons.2 ⟨hc, hcs⟩, rfl⟩
  · rintro ⟨cs, hcs, rfl⟩
    rw [all_map, all_eq_true]
    exact fun c hc => any_eq_true.2 ⟨c, hcs c hc, beq_self_eq_true _⟩

/-- A bundle is the word of a dash and letters of flags. -/
theorem Word.bundle?_eq_some_iff {flags : List Word} :
    Word.bundle? w = some flags ↔ ∃ cs : List Char, cs ≠ [] ∧ (∀ c ∈ cs, c ∈ flagLetters) ∧
      w = Word.ofString (String.ofList ('-' :: cs)) ∧
      flags = cs.map fun c => Word.ofString (String.ofList ['-', c]) := by
  have hflags : ∀ cs : List Char, (∀ c ∈ cs, c ∈ flagLetters) →
      ((cs.map fun c => Part.char c.toNat).map fun p => [.char 45, p]) =
        cs.map fun c => Word.ofString (String.ofList ['-', c]) := by
    intro cs hcs
    rw [map_map]
    refine map_congr_left fun c hc => Eq.symm ?_
    exact @Word.ofString_dash [c] (by simpa using hcs c hc)
  constructor
  · intro h
    unfold Word.bundle? at h
    split at h
    · next p ps =>
      split at h
      · next hall =>
        obtain ⟨cs, hcs, hps⟩ := Part.all_isFlagLetter_iff.1 hall
        refine ⟨cs, ?_, hcs, by rw [Word.ofString_dash hcs, hps], ?_⟩
        · rintro rfl
          cases hps
        · rw [← Option.some.inj h, hps, hflags cs hcs]
      · cases h
    · cases h
  · rintro ⟨cs, hne, hcs, rfl, rfl⟩
    obtain ⟨c, cs, rfl⟩ := exists_cons_of_ne_nil hne
    rw [Word.ofString_dash hcs, ← hflags _ hcs]
    exact if_pos (Part.all_isFlagLetter_iff.2 ⟨c :: cs, hcs, rfl⟩)

theorem bundledFlags?_eq_some_iff {flags : List String} :
    bundledFlags? text = some flags ↔ ∃ cs : List Char, cs ≠ [] ∧ (∀ c ∈ cs, c ∈ flagLetters) ∧
      text = String.ofList ('-' :: cs) ∧ flags = cs.map fun c => String.ofList ['-', c] := by
  have hknown : ∀ cs : List Char, (cs.map fun c => String.ofList ['-', c]).all knownFlags.contains =
      true ↔
      ∀ c ∈ cs, c ∈ flagLetters := by
    intro cs
    simp [knownFlags_eq, all_eq_true]
  unfold bundledFlags?
  constructor
  · intro h
    split at h
    · next c cs htext =>
      obtain ⟨hall, hflags⟩ := (Option.ite_none_right_eq_some).1 h
      refine ⟨c :: cs, cons_ne_nil c cs, (hknown _).1 hall, ?_, (Option.some.inj hflags).symm⟩
      rw [← htext, String.ofList_toList]
    · cases h
  · rintro ⟨cs, hne, hcs, rfl, rfl⟩
    obtain ⟨c, cs, rfl⟩ := exists_cons_of_ne_nil hne
    rw [String.toList_ofList]
    exact if_pos ((hknown _).2 hcs)

theorem Word.isOption_of_mem (h : text ∈ knownOptions) :
    Word.isOption (Word.ofString text) ∧ ∀ c ∈ text.toList, c ∈ settingChars := by
  have hpair : text = "-d" ∨ text = "-f" := by simpa [knownOptions] using h
  rcases hpair with rfl | rfl
  · exact ⟨rfl, by simp [settingChars]⟩
  · exact ⟨rfl, by simp [settingChars]⟩

theorem readSettings_of_bundle (hne : cs ≠ []) (hcs : ∀ c ∈ cs, c ∈ flagLetters)
    (rest : List Word) : readSettings (Word.ofString (String.ofList ('-' :: cs)) :: rest) = (do
      let (settings, operands) ← readSettings rest
      return ((cs.map fun c => String.ofList ['-', c]).map .flag ++ settings, operands)) := by
  have hformat : Word.format (Word.ofString (String.ofList ('-' :: cs))) =
    .ok (String.ofList ('-' :: cs)) :=
    Word.format_ofString (mark_notMem_of_settingChars (mem_settingChars_of_bundle hcs))
  have hbundle := bundledFlags?_eq_some_iff.2 ⟨cs, hne, hcs, rfl, rfl⟩
  rw [readSettings, hformat]
  simp only [bind, Except.bind, hbundle]

/-- What is no bundle, and no option with an argument, ends the settings. -/
theorem readSettings_of_none {rest : List Word} (hw : Word.isWritten w)
    (hbundle : Word.bundle? w = none) (hoption : (Word.isOption w && !rest.isEmpty) = false) :
    readSettings (w :: rest) = .ok ([], w :: rest) := by
  obtain ⟨text, htext⟩ := Word.exists_format w hw
  have hflags : bundledFlags? text = none := by
    refine Option.eq_none_iff_forall_ne_some.2 fun flags hsome => ?_
    obtain ⟨cs, hne, hcs, rfl, -⟩ := bundledFlags?_eq_some_iff.1 hsome
    have hword := (Word.format_eq_ok_iff hw (mem_settingChars_of_bundle hcs)).1 htext
    rw [Word.bundle?_eq_some_iff.2 ⟨cs, hne, hcs, hword, rfl⟩] at hbundle
    cases hbundle
  rw [readSettings, htext]
  simp only [bind, Except.bind, hflags]
  cases rest with
  | nil => rfl
  | cons argument =>
    refine if_neg fun hmem => ?_
    -- the option would have an argument
    obtain ⟨hisOption, hchars⟩ := Word.isOption_of_mem (contains_iff_mem.1 hmem)
    rw [← (Word.format_eq_ok_iff hw hchars).1 htext] at hisOption
    rw [hisOption] at hoption
    cases hoption

/-- **The settings in front of written words are the flags of their bundles**, if there is no option
with an argument behind them. -/
theorem readSettings_eq (hwritten : ∀ w ∈ ws, Word.isWritten w) (hoption : readsOption ws = false) :
    ∃ (names : List String) (operands : List Word), readSettings ws =
      .ok (names.map .flag, operands) ∧ names.map Word.ofString ++ operands = splitBundles ws := by
  induction ws with
  | nil => exact ⟨[], [], rfl, rfl⟩
  | cons w rest ih =>
    obtain ⟨hw, hrest⟩ := forall_mem_cons.1 hwritten
    rw [readsOption] at hoption
    rw [splitBundles]
    cases hbundle : Word.bundle? w with
    | some =>
      rw [hbundle] at hoption
      obtain ⟨names, operands, hread, hsplit⟩ := ih hrest hoption
      obtain ⟨cs, hne, hcs, rfl, rfl⟩ := Word.bundle?_eq_some_iff.1 hbundle
      refine ⟨cs.map (fun c => String.ofList ['-', c]) ++ names, operands, ?_, ?_⟩
      · rw [readSettings_of_bundle hne hcs, hread, map_append]
        rfl
      · rw [map_append, List.append_assoc, hsplit, map_map]
        rfl
    | none =>
      rw [hbundle] at hoption
      exact ⟨[], w :: rest, readSettings_of_none hw hbundle hoption, rfl⟩

/-!
### Every word of a command is read once

The settings of a command stand in front of its operands: flags, bundles of flags, and options with
the word behind them.  Written out again, the form of a command gives its words back, with the
bundles split into single flags.
-/

/-- A bundle of flags: a dash and the letters of two or more known flags. -/
def IsBundle (text : String) (letters : List Char) : Prop :=
  text = String.ofList ('-' :: letters) ∧ 1 < letters.length ∧
    ∀ c ∈ letters, String.ofList ['-', c] ∈ knownFlags

/-- Words are read as settings, each of them once.  They are `shown` if the bundles of flags among
them are split. -/
inductive ReadsAs : (front shown : List Word) → List Setting → Prop
  | nil : ReadsAs [] [] []
  | flag {w : Word} {name : String} {ws shown : List Word} {settings : List Setting}
      (text : Word.format w = .ok name) (known : name ∈ knownFlags)
      (rest : ReadsAs ws shown settings) : ReadsAs (w :: ws) (w :: shown) (.flag name :: settings)
  | option {w argument : Word} {name : String} {ws shown : List Word} {settings : List Setting}
      (text : Word.format w = .ok name) (known : name ∈ knownOptions)
      (rest : ReadsAs ws shown settings) :
      ReadsAs (w :: argument :: ws) (w :: argument :: shown) (.option name argument :: settings)
  | bundle {w : Word} {name : String} {letters : List Char} {ws shown : List Word}
      {settings : List Setting} (text : Word.format w = .ok name) (known : IsBundle name letters)
      (rest : ReadsAs ws shown settings) :
        ReadsAs (w :: ws) (letters.map (fun c => Word.ofString (String.ofList ['-', c])) ++ shown)
        (letters.map (fun c => .flag (String.ofList ['-', c])) ++ settings)

/-- The first word, if there is one, is no flag, no option with a word behind it, and no bundle of
flags. -/
def BeginsOperands : List Word → Prop
  | [] => True
  | w :: rest =>
      ∃ text, Word.format w = .ok text ∧ text ∉ knownFlags ∧ (text ∈ knownOptions → rest = []) ∧
      ∀ letters, ¬ IsBundle text letters

def Setting.Known : Setting → Prop
  | .flag name => name ∈ knownFlags
  | .option name _ => name ∈ knownOptions

theorem mem_knownFlags : text ∈ knownFlags ↔ ∃ c ∈ flagLetters, String.ofList ['-', c] = text := by
  rw [knownFlags_eq, mem_map]

theorem ofList_mem_knownFlags {c : Char} : String.ofList ['-', c] ∈ knownFlags ↔
    c ∈ flagLetters := by
  simp [knownFlags_eq]

theorem Word.format_ofString_of_known {name : String} (h : name ∈ knownFlags ++ knownOptions) :
    Word.format (Word.ofString name) = .ok name := by
  refine Word.format_ofString (mark_notMem_of_settingChars ?_)
  rcases mem_append.1 h with h | h
  · obtain ⟨c, hc, rfl⟩ := mem_knownFlags.1 h
    exact mem_settingChars_of_bundle (by simpa using hc)
  · exact (Word.isOption_of_mem h).2

/-- **Settings are known, and written out they show the words they were read from.** -/
theorem ReadsAs.written (h : ReadsAs front shown settings) :
    (∀ s ∈ settings, s.Known) ∧ (settings.flatMap Setting.words).map Word.format =
      shown.map Word.format := by
  induction h with
  | nil => exact ⟨by simp, rfl⟩
  | flag text known _ ih =>
    refine ⟨forall_mem_cons.2 ⟨known, ih.1⟩, ?_⟩
    simp [Setting.words, Word.format_ofString_of_known (mem_append_left _ known), text, ih.2]
  | option text known _ ih =>
    refine ⟨forall_mem_cons.2 ⟨known, ih.1⟩, ?_⟩
    simp [Setting.words, Word.format_ofString_of_known (mem_append_right _ known), text, ih.2]
  | @bundle _ _ letters _ _ _ text known _ ih =>
    refine ⟨forall_mem_append.2 ⟨?_, ih.1⟩, ?_⟩
    · rw [forall_mem_map]
      exact known.2.2
    · have hwords : (letters.map fun c => Setting.flag (String.ofList ['-', c])).flatMap
          Setting.words =
          letters.map fun c => Word.ofString (String.ofList ['-', c]) := by
        rw [flatMap_map, map_eq_flatMap]
        rfl
      rw [flatMap_append, map_append, ih.2, map_append, hwords]

/-- **Reading takes the words in front of the operands as settings.**  The induction is on how many
words there are, since an option takes two. -/
theorem exists_readSettings (htext : ∀ w ∈ ws, ∃ text, Word.format w = .ok text) :
    ∃ front shown settings operands, readSettings ws = .ok (settings, operands) ∧
      ws = front ++ operands ∧ ReadsAs front shown settings ∧ BeginsOperands operands := by
  induction hlen : ws.length using Nat.strongRecOn generalizing ws with
  | _ len ih =>
    cases ws with
    | nil => exact ⟨[], [], [], [], rfl, rfl, .nil, trivial⟩
    | cons w rest =>
      obtain ⟨⟨text, hw⟩, hrest⟩ := forall_mem_cons.1 htext
      rw [length_cons] at hlen
      cases hbundle : bundledFlags? text with
      | some flags =>
        obtain ⟨cs, hne, hcs, rfl, rfl⟩ := bundledFlags?_eq_some_iff.1 hbundle
        obtain ⟨front, shown, settings, operands, hread, rfl, hreads, hend⟩ :=
          ih _ (by omega) hrest rfl
        have hstep : readSettings (w :: (front ++ operands)) =
            .ok ((cs.map fun c => String.ofList ['-', c]).map .flag ++ settings, operands) := by
          rw [readSettings, hw]
          simp only [bind, Except.bind, hbundle, hread]
          rfl
        rw [map_map] at hstep
        obtain ⟨c, cs, rfl⟩ := exists_cons_of_ne_nil hne
        cases cs with
        | nil =>
          have hknown := ofList_mem_knownFlags.2 (hcs c mem_cons_self)
          exact ⟨w :: front, w :: shown, _, operands, hstep, rfl, .flag hw hknown hreads, hend⟩
        | cons c' cs =>
          have hknown : IsBundle _ (c :: c' :: cs) :=
            ⟨rfl, by simp, fun d hd => ofList_mem_knownFlags.2 (hcs d hd)⟩
          exact ⟨w :: front, _, _, operands, hstep, rfl, .bundle hw hknown hreads, hend⟩
      | none =>
        have hno : ∀ cs : List Char, cs ≠ [] → text = String.ofList ('-' :: cs) →
            ¬ ∀ c ∈ cs, String.ofList ['-', c] ∈ knownFlags := by
          intro cs hne heq hall
          rw [bundledFlags?_eq_some_iff.2 ⟨cs, hne, fun c hc => ofList_mem_knownFlags.1 (hall c hc),
            heq, rfl⟩] at hbundle
          cases hbundle
        have hflag : text ∉ knownFlags := by
          intro hmem
          obtain ⟨c, hc, rfl⟩ := mem_knownFlags.1 hmem
          exact hno [c] (by simp) rfl (by simpa using hmem)
        have hbundles : ∀ letters, ¬ IsBundle text letters := by
          rintro letters ⟨heq, hlong, hall⟩
          exact hno letters (by rintro rfl; cases hlong) heq hall
        cases rest with
        | nil =>
          refine ⟨[], [], [], [w], ?_, rfl, .nil, text, hw, hflag, fun _ => rfl, hbundles⟩
          rw [readSettings, hw]
          simp only [bind, Except.bind, hbundle]
          rfl
        | cons argument behind =>
          by_cases hoption : text ∈ knownOptions
          · obtain ⟨front, shown, settings, operands, hread, rfl, hreads, hend⟩ :=
              ih behind.length (by simp only [length_cons] at hlen; omega)
                (fun v hv => hrest v (mem_cons_of_mem _ hv)) rfl
            refine ⟨w :: argument :: front, _, _, operands, ?_, rfl,
              .option hw hoption hreads, hend⟩
            rw [readSettings, hw]
            simp only [bind, Except.bind, hbundle, contains_iff_mem.2 hoption, if_true, hread]
            rfl
          · refine ⟨[], [], [], w :: argument :: behind, ?_, rfl, .nil, text, hw, hflag,
              fun hmem => absurd hmem hoption, hbundles⟩
            rw [readSettings, hw]
            simp only [bind, Except.bind, hbundle]
            exact if_neg fun hmem => hoption (contains_iff_mem.1 hmem)

/-- **Every word of a command is read once.**  The words are settings and then operands.  The
settings are known, and with the operands behind them they are written as the words were, with the
bundles of flags split; the operands begin at the first word that is no setting. -/
theorem CommandForm.read_accounts {name : Word}
    (htext : ∀ w ∈ name :: ws, ∃ text, Word.format w = .ok text) :
    ∃ form front shown, CommandForm.read name ws = .ok form ∧ Word.format name = .ok form.name ∧
      ws = front ++ form.operands ∧ ReadsAs front shown form.settings ∧
      form.words.map Word.format = (shown ++ form.operands).map Word.format ∧
      (∀ s ∈ form.settings, s.Known) ∧ BeginsOperands form.operands := by
  obtain ⟨⟨text, hname⟩, htext⟩ := forall_mem_cons.1 htext
  obtain ⟨front, shown, settings, operands, hread, hws, hreads, hend⟩ := exists_readSettings htext
  obtain ⟨hknown, hwritten⟩ := hreads.written
  refine ⟨⟨text, settings, operands⟩, front, shown, ?_, hname, hws, hreads, ?_, hknown, hend⟩
  · rw [CommandForm.read, hname]
    simp only [bind, Except.bind, hread]
    rfl
  · rw [CommandForm.words, map_append, hwritten, map_append]

/-- The words `-nr -d -n - x`: an option takes the flag behind it, and a lone dash ends the
settings. -/
theorem CommandForm.read_accounts_bundle : ∃ form front shown,
    CommandForm.read (Word.ofString "cut") (["-nr", "-d", "-n", "-", "x"].map Word.ofString) =
      .ok form ∧ ["-nr", "-d", "-n", "-", "x"].map Word.ofString = front ++ form.operands ∧
      ReadsAs front shown form.settings ∧
      form.words.map Word.format = ["-n", "-r", "-d", "-n", "-", "x"].map .ok := by
  have htext : ∀ w ∈ Word.ofString "cut" :: ["-nr", "-d", "-n", "-", "x"].map Word.ofString,
      ∃ text, Word.format w = .ok text := by
    simp only [map_cons, map_nil, forall_mem_cons]
    refine ⟨⟨_, rfl⟩, ⟨_, rfl⟩, ⟨_, rfl⟩, ⟨_, rfl⟩, ⟨_, rfl⟩, ⟨_, rfl⟩, by simp⟩
  obtain ⟨form, front, shown, hread, -, hws, hreads, -⟩ := CommandForm.read_accounts htext
  have hshown :
      (CommandForm.read (Word.ofString "cut") (["-nr", "-d", "-n", "-", "x"].map Word.ofString)).map
      (fun f => f.words.map Word.format) = .ok (["-n", "-r", "-d", "-n", "-", "x"].map .ok) := by
        decide +kernel
  rw [hread] at hshown
  exact ⟨form, front, shown, hread, hws, hreads, Except.ok.inj hshown⟩

end ShellFlow
