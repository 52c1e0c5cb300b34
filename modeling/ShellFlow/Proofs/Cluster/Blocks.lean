import ShellFlow.Cluster.BlockListing
import ShellFlow.Proofs.Text

/-!
# Blocks are listed completely and in order

Behind the line of a file come lines for its blocks, numbered from nought on, with other lines
between them.  The machines of a block are looked for from the first mark on its line.  So no mark
may stand in front of them: a pool of that name is taken for machines.
-/

namespace ShellFlow

open List

/-! ## Words and numbers -/

section Words

variable {word tail : List Char} {n : Nat}

/-- A word of a listing. -/
def IsListingWord (word : List Char) : Prop := word ≠ [] ∧ ∀ c ∈ word, isListingBlank c = false

theorem listingWords_append (h : IsListingWord word) (htail : ∀ c ∈ tail.head?, isListingBlank c) :
    listingWords (word ++ tail) = word :: listingWords tail.tail := by
  have hsplit := splitOnP_eq_singleton h.2
  cases tail with
  | nil => simp [listingWords, hsplit, h.1]
  | cons c tail => simp [listingWords, splitOnP_append_cons word tail (htail c rfl), hsplit, h.1]

theorem plain_of_mem_toDigits {c : Char} (h : c ∈ Nat.toDigits 10 n) :
    c.isDigit ∧ c.toNat < 128 ∧ isListingBlank c = false := by
  obtain ⟨d, hd, rfl⟩ := Text.mem_toDigits h
  interval_cases d <;> decide

theorem isListingWord_toDigits (n : Nat) : IsListingWord (Nat.toDigits 10 n) :=
  ⟨Nat.toDigits_ne_nil, fun _ hc => (plain_of_mem_toDigits hc).2.2⟩

theorem plainNumber_toDigits (h : n < 10 ^ Text.digitLimit) :
    plainNumber (Nat.toDigits 10 n) = .ok (n : Int) := by
  have hascii : (Nat.toDigits 10 n).all (·.toNat < 128) :=
    all_eq_true.2 fun c hc => decide_eq_true (plain_of_mem_toDigits hc).2.1
  have hlength := (Nat.length_toDigits_le_iff (b := 10) (by decide) (by decide)).2 h
  rw [plainNumber, filter_eq_self.2 fun c hc => (plain_of_mem_toDigits hc).1,
    Text.readSigned_toDigits, hascii, Bool.true_and, if_pos (decide_eq_true hlength)]

theorem blockNumber_toDigits (h : n < 10 ^ Text.digitLimit) :
    blockNumber (Nat.toDigits 10 n ++ ['.']) = .ok (some (n : Int)) := by
  have hdigits : (Nat.toDigits 10 n).all Char.isDigit :=
    all_eq_true.2 fun c hc => (plain_of_mem_toDigits hc).1
  rw [blockNumber, dropLast_concat, getLast?_concat, hdigits,
    if_pos (by simp [Nat.toDigits_ne_nil]), plainNumber_toDigits h]
  rfl

end Words

/-! ## Listings as they are written -/

/-- A machine in a listing. -/
structure ShownMachine where
  host : List Char
  port : List Char
  /-- What else is told of it, up to the next blank. -/
  detail : List Char
  blank : ' ' ∉ host ++ port ++ detail
  comma : ',' ∉ host ++ port
  colon : ':' ∉ port

namespace ShownMachine

variable (m : ShownMachine) {ms : List ShownMachine}

def address : List Char := m.host ++ ':' :: m.port

def text : List Char := machineMark ++ '[' :: (m.address ++ ',' :: m.detail)

theorem hostOf_address : hostOf (String.ofList m.address) = String.ofList m.host := by
  have hport : ∀ c ∈ m.port.reverse, (c != ':') = true := fun c hc =>
    bne_iff_ne.2 fun heq => m.colon (heq ▸ mem_reverse.1 hc)
  rw [hostOf, String.toList_ofList, if_pos (by simp [address]), address, reverse_append,
    reverse_cons, append_assoc, dropWhile_append_of_pos hport]
  simp

theorem notMem_machineMark : ∀ c ∈ [' ', ',', '['], c ∉ machineMark := by
  unfold machineMark
  simp

/-- The address of a machine is cut out of its text. -/
theorem slice_text {lead : List Char} (hlead : lead = [] ∨ lead = ['[']) :
    Text.slice (lead ++ m.text) (Text.find machineMark (lead ++ m.text) + machineMark.length + 1)
      (Text.find [','] (lead ++ m.text)) = m.address := by
  have hmark : Text.find machineMark (lead ++ m.text) = lead.length := by
    obtain rfl | rfl := hlead
    · exact Text.find_append fun k hk => absurd hk k.not_lt_zero
    · exact @Text.find_behind _ [] _ '[' _ _ (by decide +kernel) (notMem_machineMark _ (by simp)) _
  have hfront : ',' ∉ lead ++ machineMark ++ ['['] ++ m.address := by
    have := m.comma
    have := notMem_machineMark ','
    obtain rfl | rfl := hlead <;> simp_all [address]
  have htext : lead ++ m.text = lead ++ machineMark ++ ['['] ++ m.address ++ ',' :: m.detail := by
    simp [text]
  have hslice := Text.slice_append (lead ++ machineMark ++ ['[']) m.address (',' :: m.detail)
  rw [hmark, htext, Text.find_singleton hfront, append_assoc _ m.address]
  simpa [add_assoc, add_comm] using hslice

/-- The addresses of machines are read from their texts. -/
theorem machineAddresses_text (hne : ms ≠ []) :
    machineAddresses ('[' :: [' '].intercalate (ms.map text)) = ms.map fun m =>
      String.ofList m.address := by
  obtain ⟨m, ms, rfl⟩ := exists_cons_of_ne_nil hne
  have hbracket : '[' :: [' '].intercalate ((m :: ms).map text) =
      [' '].intercalate ((['['] ++ m.text) :: ms.map text) := by
    cases ms <;> simp [intercalate_cons_cons]
  have hblank : ∀ part ∈ (['['] ++ m.text) :: ms.map text, ' ' ∉ part := by
    have htext : ∀ m : ShownMachine, ' ' ∉ m.text := by
      intro m
      have := m.blank
      have := notMem_machineMark ' '
      simp_all [text, address]
    simpa using ⟨htext m, fun m _ => htext m⟩
  rw [machineAddresses, hbracket, Text.splitList_intercalate (cons_ne_nil _ _) hblank, map_cons,
    map_map, map_cons, m.slice_text (.inr rfl)]
  exact congrArg _ (map_congr_left fun m _ => congrArg _ (m.slice_text (.inl rfl)))

end ShownMachine

/-- A block in a listing. -/
structure ShownBlock where
  pool : List Char
  name : List Char
  stamp : List Char
  /-- What stands between its names and its machines. -/
  note : List Char
  machines : List ShownMachine
  blank : ∀ c ∈ pool ++ ':' :: (name ++ '_' :: stamp), isListingBlank c = false
  colon : ':' ∉ pool ++ name
  underscore : '_' ∉ stamp
  machines_ne_nil : machines ≠ []

namespace ShownBlock

variable (b : ShownBlock) (i : Nat)

def names : List Char := b.pool ++ ':' :: (b.name ++ '_' :: b.stamp)

/-- What stands on the line of a block in front of its machines. -/
def front : List Char := Nat.toDigits 10 i ++ ['.'] ++ ' ' :: (b.names ++ ' ' :: b.note)

/-- How a block is shown in a listing. -/
def line : List Char := b.front i ++ '[' :: [' '].intercalate (b.machines.map ShownMachine.text)

/-- What is to be read from the line of a block. -/
def block : ListedBlock where
  name := String.ofList b.name
  pool := String.ofList b.pool
  machines := b.machines.map fun m => String.ofList m.address

theorem exists_words_line :
    ∃ more, listingWords (b.line i) = (Nat.toDigits 10 i ++ ['.']) :: b.names :: more := by
  have hnumber : IsListingWord (Nat.toDigits 10 i ++ ['.']) := by
    have hdigits := (isListingWord_toDigits i).2
    refine ⟨by simp, fun c hc => ?_⟩
    obtain hc | hc := mem_append.1 hc
    · exact hdigits c hc
    · rw [mem_singleton.1 hc]
      rfl
  have hnames : IsListingWord b.names := ⟨by simp [names], b.blank⟩
  simp only [line, front, append_assoc _ (' ' :: _), cons_append]
  rw [listingWords_append hnumber (by rintro c ⟨rfl⟩; rfl), tail_cons,
    listingWords_append hnames (by rintro c ⟨rfl⟩; rfl)]
  exact ⟨_, rfl⟩

variable {b i}

theorem sliceFrom_line (h : ¬ machineMark <:+: b.front i) :
    Text.sliceFrom (b.line i) (Text.find machineMark (b.line i) - 1) =
      '[' :: [' '].intercalate (b.machines.map ShownMachine.text) := by
  obtain ⟨after, hafter⟩ : ∃ after, [' '].intercalate (b.machines.map ShownMachine.text) =
      machineMark ++ after := by
    obtain ⟨m, ms, hms⟩ := exists_cons_of_ne_nil b.machines_ne_nil
    rw [hms]
    cases ms <;> simp [ShownMachine.text, intercalate_cons_cons]
  rw [line, hafter, Text.find_behind h (ShownMachine.notMem_machineMark _ (by simp)),
    Int.add_sub_cancel, Text.sliceFrom, Text.position_of_le (by simp), drop_left]

/-- **A block is read from its line.** -/
theorem read_line (h : ¬ machineMark <:+: b.front i) {number : List Char}
    {more : List (List Char)} :
    ListedBlock.read (b.line i) (number :: b.names :: more) = .ok b.block := by
  obtain ⟨hpool, hname⟩ := not_or.1 (mt mem_append.2 b.colon)
  -- What follows a second colon does not belong to the name.
  have htake : (b.name ++ '_' :: b.stamp).takeWhile (· ≠ ':') =
      b.name ++ '_' :: b.stamp.takeWhile (· ≠ ':') := by
    rw [takeWhile_append_of_pos (by grind), takeWhile_cons_of_pos (by decide)]
  obtain ⟨parts, hparts⟩ :=
    head?_eq_some_iff.1 (htake ▸ Text.head?_splitList ':' (b.name ++ '_' :: b.stamp))
  have hstamp : '_' ∉ b.stamp.takeWhile (· ≠ ':') :=
    fun hmem => b.underscore (takeWhile_subset _ hmem)
  have hslice := Text.slice_append [] b.name ('_' :: b.stamp.takeWhile (· ≠ ':'))
  rw [ListedBlock.read]
  simp only [secondWord, bind, Except.bind, names]
  rw [Text.splitList_append_cons hpool, hparts]
  simp only [sliceFrom_line h, Text.findLast_append _ hstamp,
    ShownMachine.machineAddresses_text b.machines_ne_nil]
  exact congrArg _ (congrArg (ListedBlock.mk · _ _) (congrArg _ (by simpa using hslice)))

end ShownBlock

/-! ## Reading listings -/

/-- A line for no block and no file: its first word is neither the name of the file nor a number
with one more character. -/
def IsPassed (file : String) (line : List Char) : Prop :=
  ∀ word ∈ (listingWords line).head?,
    word ≠ file.toList ∧ ¬ (word.dropLast ≠ [] ∧ ∀ c ∈ word.dropLast, c.isDigit)

/-- Lines for blocks that are numbered from some number on, with other lines between them.  The
first mark on the line of a block is that of its first machine. -/
inductive ListsBlocks (file : String) : Nat → List ShownBlock → List (List Char) → Prop
  | nil {i : Nat} : ListsBlocks file i [] []
  | passed {i : Nat} {bs : List ShownBlock} {line : List Char} {lines : List (List Char)}
      (hline : IsPassed file line) (h : ListsBlocks file i bs lines) :
      ListsBlocks file i bs (line :: lines)
  | block {i : Nat} {b : ShownBlock} {bs : List ShownBlock} {lines : List (List Char)}
      (hfront : ¬ machineMark <:+: b.front i) (h : ListsBlocks file (i + 1) bs lines) :
      ListsBlocks file i (b :: bs) (b.line i :: lines)

/-- Lines with one for a file of some size and, behind it, those for its blocks. -/
def ListsFile (file : String) (size : Nat) (bs : List ShownBlock) (lines : List (List Char)) :
    Prop :=
  ∃ before tail after, lines =
    before ++ (file.toList ++ ' ' :: (Nat.toDigits 10 size ++ tail)) :: after ∧
    (∀ line ∈ before, IsPassed file line) ∧ (∀ c ∈ tail.head?, isListingBlank c) ∧
      ListsBlocks file 0 bs after

namespace BlockListing

variable {file text : String} {size i : Nat} {bs : List ShownBlock} {lines : List (List Char)}

/-- **The blocks are read from their lines, in order.** -/
theorem readBlocks_eq_ok (h : ListsBlocks file i bs lines)
    (hcount : i + bs.length ≤ 10 ^ Text.digitLimit) :
    readBlocks i lines = .ok (bs.map ShownBlock.block) := by
  induction h with
  | nil => rfl
  | @passed i bs line lines hline _ ih =>
    rw [readBlocks]
    cases hwords : listingWords line with
    | nil => exact ih hcount
    | cons word words =>
      rw [IsPassed, hwords] at hline
      have hnumber : blockNumber word = .ok none := by
        rw [blockNumber, if_neg]
        simp only [Bool.and_eq_true, all_eq_true, Bool.not_eq_true', isEmpty_eq_false_iff]
        exact fun h => (hline word rfl).2 h.1
      simp only [hnumber, bind, Except.bind]
      exact ih hcount
  | @block i b bs lines hfront _ ih =>
    obtain ⟨more, hwords⟩ := b.exists_words_line i
    rw [length_cons] at hcount
    have hrest := ih (by omega)
    rw [Nat.cast_succ] at hrest
    rw [readBlocks, hwords]
    simp only [blockNumber_toDigits (n := i) (by omega), b.read_line hfront, hrest, bind,
      Except.bind, if_true]
    rfl

/-- Behind other lines, the size is read from the line of the file, and its blocks from what
follows. -/
theorem readLines_eq_ok (hfile : IsListingWord file.toList) (h : ListsFile file size bs lines)
    (hsize : size < 10 ^ Text.digitLimit) (hcount : bs.length ≤ 10 ^ Text.digitLimit) :
    readLines file.toList lines = .ok ⟨size, bs.map ShownBlock.block⟩ := by
  obtain ⟨before, tail, after, rfl, hbefore, htail, hblocks⟩ := h
  induction before with
  | nil =>
    have hread := readBlocks_eq_ok hblocks (by omega)
    rw [Nat.cast_zero] at hread
    rw [nil_append, readLines, listingWords_append hfile (by rintro c ⟨rfl⟩; rfl), tail_cons,
      listingWords_append (isListingWord_toDigits size) htail]
    simp only [if_true, secondWord, plainNumber_toDigits hsize, hread, bind, Except.bind]
    rfl
  | cons line before ih =>
    obtain ⟨hline, hbefore⟩ := forall_mem_cons.1 hbefore
    rw [cons_append, readLines]
    cases hwords : listingWords line with
    | nil => exact ih hbefore
    | cons word words => exact (if_neg (hline word (by rw [hwords]; rfl)).1).trans (ih hbefore)

/-- **A listing is read completely and in order.**  Its size and its numbers must not have too many
digits. -/
theorem read_complete (hfile : IsListingWord file.toList) (hlists : ListsFile file size bs lines)
    (hsize : 0 < size ∧ size < 10 ^ Text.digitLimit)
    (hcount : 0 < bs.length ∧ bs.length ≤ 10 ^ Text.digitLimit)
    (hlines : ∀ l ∈ lines, '\n' ∉ l)
    (htext : Text.unifyLinesFrom text.toList = ['\n'].intercalate lines)
    (hcodes : (Text.codes text).any Text.isHalf = false) :
    ∃ l, read file text = .ok l ∧ l.blocks.map (fun b => (b.path, b.hosts)) =
      bs.map fun b => (b.block.path, b.machines.map fun m => String.ofList m.host) := by
  have hread := readLines_eq_ok hfile hlists hsize.2 hcount.2
  have hne : lines ≠ [] := by
    obtain ⟨before, tail, after, rfl, -⟩ := hlists
    simp
  refine ⟨⟨size, bs.map ShownBlock.block⟩, ?_, ?_⟩
  · simp only [read, Text.octets, hcodes, htext, Text.splitList_intercalate hne hlines, hread, bind,
      Except.bind, Bool.false_eq_true, if_false]
    have hsome : bs ≠ [] := length_pos_iff.1 hcount.1
    exact if_neg (by simpa [hsome] using hsize.1.ne')
  · rw [map_map]
    refine map_congr_left fun b _ => congrArg (b.block.path, ·) ?_
    rw [ListedBlock.hosts, ShownBlock.block, map_map]
    exact map_congr_left fun m _ => m.hostOf_address

/-- A block on two machines. -/
def pairedBlock : ShownBlock where
  pool := ['p']
  name := ['b', '_', '7']
  stamp := ['1']
  note := "len=8 ".toList
  machines := [⟨"10.0.0.3".toList, ['1'], "a],".toList, by simp, by simp, by simp⟩,
    ⟨"10.0.0.4".toList, ['1'], "b]]".toList, by simp, by simp, by simp⟩]
  blank := by simp [isListingBlank]
  colon := by simp
  underscore := by simp
  machines_ne_nil := by simp

/-- A block on one of these. -/
def singleBlock : ShownBlock where
  pool := ['p']
  name := ['b', '_', '8']
  stamp := ['2']
  note := "len=1 ".toList
  machines := [⟨"10.0.0.4".toList, ['1'], "c]]".toList, by simp, by simp, by simp⟩]
  blank := by simp [isListingBlank]
  colon := by simp
  underscore := by simp
  machines_ne_nil := by simp

/-- Two blocks, with a line between them.  The machines of each are listed by their hosts. -/
theorem read_complete_paired :
    ∃ l, read "f" ("FSCK\nf 9\n0. p:b_7_1 len=8 [DatanodeInfoWithStorage[10.0.0.3:1,a], " ++
      "DatanodeInfoWithStorage[10.0.0.4:1,b]]\n\n1. p:b_8_2 len=1 " ++
      "[DatanodeInfoWithStorage[10.0.0.4:1,c]]\n") = .ok l ∧
    l.blocks.map (fun b => (b.path, b.hosts)) =
      [("current/p/current/finalized/subdir0/subdir0/b_7", ["10.0.0.3", "10.0.0.4"]),
        ("current/p/current/finalized/subdir0/subdir0/b_8", ["10.0.0.4"])] := by
  have hlimit : 9 < 10 ^ Text.digitLimit :=
    lt_of_lt_of_le (b := 10 ^ 1) (by decide) (Nat.pow_le_pow_right (by decide) (by decide))
  have hlists : ListsFile "f" 9 [pairedBlock, singleBlock]
      ["FSCK".toList, "f 9".toList, pairedBlock.line 0, [], singleBlock.line 1, []] := by
    refine ⟨["FSCK".toList], [], [pairedBlock.line 0, [], singleBlock.line 1, []], rfl, ?_, by simp,
      .block (by decide +kernel)
        (.passed (by rintro _ ⟨⟩) (.block (by decide +kernel) (.passed (by rintro _ ⟨⟩) .nil)))⟩
    simp [IsPassed, listingWords, splitOnP_cons_eq_if_modifyHead, isListingBlank]
  have hshown : [pairedBlock, singleBlock].map
      (fun b => (b.block.path, b.machines.map fun m => String.ofList m.host)) =
      [("current/p/current/finalized/subdir0/subdir0/b_7", ["10.0.0.3", "10.0.0.4"]),
        ("current/p/current/finalized/subdir0/subdir0/b_8", ["10.0.0.4"])] := by decide +kernel
  rw [← hshown]
  exact read_complete ⟨by decide, by simp [isListingBlank]⟩ hlists ⟨by decide, hlimit⟩
    ⟨by decide, (by decide : 2 ≤ 9).trans hlimit.le⟩ (by decide +kernel) (by decide +kernel)
      (by decide +kernel)

/-- The names of a block are read as machines, if its pool is named like the mark in front of them.
-/
theorem read_marked_pool :
    (read "f" "f 1\n0. DatanodeInfoWithStorage:b_1 [DatanodeInfoWithStorage[h:1,]]").toOption.map
      (·.blocks.map ListedBlock.hosts) = some [["", "b_", "h"]] := by
  decide +kernel

end BlockListing

end ShellFlow
