import Mathlib.Data.List.GetD
import ShellFlow.Proofs.Stream.Dealing

/-!
# Where a dealing by lines looks

A dealing by lines reads octets into a buffer and looks for line ends in it, position by position.
Positions are signed machine words, and the search through a piece compares them with an unsigned
one: below the first octet the comparison goes on.  So the search leaves a piece of one or two
octets without a line end.  The first round leaves its octets only if the lengths of the shares do
not fit into a machine word.
-/

namespace ShellFlow

open List

/-- A look at a position of a buffer into which so many octets were read. -/
structure Look where
  position : Int
  size : Nat
  deriving DecidableEq

namespace Look

variable {first more : List Look} {l : Look}

/-- The look is inside its buffer. -/
def Inside (l : Look) : Prop := 0 ≤ l.position ∧ l.position < l.size

instance : DecidablePred Inside :=
    fun l => inferInstanceAs (Decidable (0 ≤ l.position ∧ l.position < l.size))

/-- Looks, and then more.  What comes behind a look outside is not known. -/
def andThen (first more : List Look) : List Look :=
  if ∀ l ∈ first, l.Inside then first ++ more else first

theorem forall_andThen : (∀ l ∈ andThen first more, l.Inside) ↔ (∀ l ∈ first, l.Inside) ∧
    ∀ l ∈ more, l.Inside := by
  unfold andThen
  split
  · exact forall_mem_append
  · next houtside => exact ⟨fun h => absurd h houtside, fun h => absurd h.1 houtside⟩

theorem mem_andThen_of_mem (hl : l ∈ first) : l ∈ andThen first more := by
  unfold andThen
  split
  · exact mem_append_left more hl
  · exact hl

theorem mem_andThen (hfirst : ∀ l ∈ first, l.Inside) (hl : l ∈ more) : l ∈ andThen first more := by
  rw [andThen, if_pos hfirst]
  exact mem_append_right first hl

/-- Looks at some positions in a row, as when they are copied. -/
def row (size start count : Nat) : List Look :=
    (List.range' start count).map fun i : Nat => ⟨i, size⟩

theorem inside_row {size start count : Nat} (h : start + count ≤ size) :
    ∀ l ∈ row size start count, l.Inside := by
  intro l hl
  obtain ⟨i, hi, rfl⟩ := mem_map.1 hl
  rw [mem_range'_1] at hi
  constructor
  · exact Int.natCast_nonneg i
  · show (i : Int) < size
    omega

end Look

theorem Octets.behindLast_concat (x y : UInt8) (xs : Octets) :
    behindLast x (xs ++ [y]) = if y = x then xs.length + 1 else behindLast x xs := by
  unfold behindLast
  rw [reverse_concat, dropWhile_cons]
  by_cases hy : y = x <;> simp [hy]

namespace RoundRobin

variable {batch outs payload : Nat} {data piece : Octets}

/-! ### Searching -/

/-- A signed machine word as an unsigned one of 64 bits. -/
def unsigned (i : Int) : Nat := (i % 0x10000000000000000).toNat

/-- Looks for a line end from a position downwards as long as a test passes.  Yields the positions
that are looked at, and where the line end is.  A look outside is the last one. -/
def search (buffer : Octets) (test : Int → Bool) (i : Int) : List Int × Option Int :=
  if test i then
    if 0 ≤ i ∧ i < buffer.length then
      if buffer.getD i.toNat 0 = Octets.newline then ([i], some i)
      else
        let rest := search buffer test (i - 1)
        (i :: rest.1, rest.2)
    else ([i], none)
  else ([], none)
termination_by (i + 1).toNat
decreasing_by omega

def searchLooks (buffer : Octets) (test : Int → Bool) (i : Int) : List Look :=
  (search buffer test i).1.map (⟨·, buffer.length⟩)

section Search

variable {buffer : Octets} {test : Int → Bool} {i : Int} {j : Nat}

theorem search_of_failed (h : test i = false) : search buffer test i = ([], none) := by
  rw [search, if_neg (by simp [h])]

theorem search_of_outside (h : test i) (houtside : ¬ (0 ≤ i ∧ i < buffer.length)) :
    search buffer test i = ([i], none) := by
  rw [search, if_pos h, if_neg houtside]

theorem search_of_line (h : test j) (hj : j < buffer.length)
    (hline : buffer.getD j 0 = Octets.newline) :
    search buffer test j = ([(j : Int)], some (j : Int)) := by
  rw [search, if_pos h, if_pos ⟨Int.natCast_nonneg j, Int.ofNat_lt.2 hj⟩, Int.toNat_natCast,
    if_pos hline]

theorem search_of_other (h : test j) (hj : j < buffer.length)
    (hother : buffer.getD j 0 ≠ Octets.newline) :
    search buffer test j =
    ((j : Int) :: (search buffer test (j - 1)).1, (search buffer test (j - 1)).2) := by
  rw [search, if_pos h, if_pos ⟨Int.natCast_nonneg j, Int.ofNat_lt.2 hj⟩, Int.toNat_natCast,
    if_neg hother]

/-- **A search through the octets behind `low`.**  It finds the last line end among them.  If there
is none it goes on below, and whether it stays inside is settled there.  The induction is on how
many octets there are. -/
theorem search_segment {low count : Nat} (htest : ∀ j : Nat, low ≤ j → j < buffer.length → test j)
    (hcount : low + count ≤ buffer.length) :
    let n := Octets.behindLast Octets.newline ((buffer.drop low).take count)
    if n = 0 then
      (search buffer test (low + count - 1)).2 = (search buffer test (low - 1)).2 ∧
        ((∀ l ∈ searchLooks buffer test (low + count - 1), l.Inside) ↔
          ∀ l ∈ searchLooks buffer test (low - 1), l.Inside)
    else (search buffer test (low + count - 1)).2 = some (low + n - 1 : Int) ∧
      ∀ l ∈ searchLooks buffer test (low + count - 1), l.Inside := by
  induction count with
  | zero => simp [Octets.behindLast]
  | succ count ih =>
    have hlt : low + count < buffer.length := by omega
    have hposition : ((low : Int) + (count + 1 : Nat) - 1) = (low + count : Nat) := by omega
    have hbelow : (((low + count : Nat) : Int) - 1) = low + count - 1 := by omega
    have hsegment : (buffer.drop low).take (count + 1) =
        (buffer.drop low).take count ++ [buffer.getD (low + count) 0] := by
      rw [take_add_one, getElem?_drop, getElem?_eq_getElem hlt, getD_eq_getElem _ _ hlt]
      rfl
    have hlength : ((buffer.drop low).take count).length = count := by
      rw [length_take, length_drop]
      omega
    have hinside : Look.Inside ⟨(low + count : Nat), buffer.length⟩ :=
      ⟨Int.natCast_nonneg _, Int.ofNat_lt.2 hlt⟩
    have hpasses := htest (low + count) (Nat.le_add_right low count) hlt
    rw [hposition, hsegment, Octets.behindLast_concat, hlength, searchLooks]
    by_cases hline : buffer.getD (low + count) 0 = Octets.newline
    · rw [search_of_line hpasses hlt hline, if_pos hline]
      dsimp only
      rw [if_neg (Nat.succ_ne_zero count)]
      exact ⟨by congr 1; omega, by simpa using hinside⟩
    · rw [search_of_other hpasses hlt hline, if_neg hline]
      rw [map_cons, forall_mem_cons, hbelow]
      have hrest := ih (by omega)
      dsimp only at hrest
      split at hrest
      · next hnone =>
        rw [if_pos hnone]
        exact ⟨hrest.1, (and_iff_right hinside).trans hrest.2⟩
      · next hsome =>
        rw [if_neg hsome]
        exact ⟨hrest.1, hinside, hrest.2⟩

end Search

/-! ### The rounds after the first -/

/-- Where the later half of a piece begins. -/
def middle (piece : Octets) : Nat := (piece.length - 1) / 2

/-- Whether the search through a piece goes on. -/
def lateTest (piece : Octets) (i : Int) : Bool := decide (middle piece ≤ unsigned i)

def lateLooks (piece : Octets) : List Look := searchLooks piece (lateTest piece) (piece.length - 1)

theorem lateTest_natCast {j : Nat} (hj : j < 0x10000000000000000) :
    lateTest piece j = decide (middle piece ≤ j) := by
  have hmod : ((j : Int) % 0x10000000000000000).toNat = j := by omega
  rw [lateTest, unsigned, hmod]

theorem lateLineEnd_eq (piece : Octets) :
    lateLineEnd piece = if 0 < Octets.behindLast Octets.newline (piece.drop (middle piece)) then
        .ok (some (middle piece + Octets.behindLast Octets.newline (piece.drop (middle piece))))
      else if middle piece = 0 then .error .outOfRange else .ok none := rfl

/-- **The search through a piece finds its cut**, and leaves the piece exactly if the dealing fails.
-/
theorem lateLineEnd_eq_search (hne : piece ≠ []) (hlt : piece.length < 0x10000000000000000) :
    lateLineEnd piece =
      if ∀ l ∈ lateLooks piece, l.Inside then
        .ok ((search piece (lateTest piece) (piece.length - 1)).2.map fun i => (i + 1).toNat)
      else .error .outOfRange := by
  have hpos := length_pos_iff.2 hne
  have hmiddle : middle piece + (piece.length - middle piece) = piece.length := by
    unfold middle
    omega
  have hsegment : (piece.drop (middle piece)).take (piece.length - middle piece) =
    piece.drop (middle piece) :=
    take_of_length_le (by rw [length_drop])
  have hfirst : ((middle piece : Int) + (piece.length - middle piece : Nat) - 1) =
    piece.length - 1 := by omega
  have hsearch :=
    @search_segment piece (lateTest piece) (middle piece) (piece.length - middle piece)
    (fun j hlow hj => by rw [lateTest_natCast (by omega)]; exact decide_eq_true hlow)
      (Nat.le_of_eq hmiddle)
  dsimp only at hsearch
  rw [hsegment, hfirst] at hsearch
  rw [lateLineEnd_eq, lateLooks]
  split at hsearch
  · next hnone =>
    simp only [hsearch.1, hsearch.2]
    rw [if_neg (by omega)]
    by_cases hzero : middle piece = 0
    · -- the word below zero is the greatest one
      have htest : lateTest piece (-1) = true := by
        rw [lateTest, hzero]
        exact decide_eq_true (Nat.zero_le _)
      have hleft : search piece (lateTest piece) (-1) = ([-1], none) :=
        search_of_outside htest (by omega)
      have houtside : ¬ ∀ l ∈ searchLooks piece (lateTest piece) ((middle piece : Int) - 1),
          l.Inside := by
        rw [hzero]
        show ¬ ∀ l ∈ searchLooks piece (lateTest piece) (-1), l.Inside
        rw [searchLooks, hleft]
        simp [Look.Inside]
      rw [if_pos hzero, if_neg houtside]
    · have hbelow : ((middle piece : Int) - 1) = (middle piece - 1 : Nat) := by omega
      have htest : lateTest piece ((middle piece : Int) - 1) = false := by
        rw [hbelow, lateTest_natCast (by omega)]
        exact decide_eq_false (by omega)
      rw [if_neg hzero, searchLooks, search_of_failed htest, if_pos (by simp)]
      rfl
  · next hsome =>
    rw [if_pos (by omega), if_pos hsearch.2, hsearch.1, Option.map_some]
    congr 2
    omega

/-- A short piece has a line end. -/
def Searchable (piece : Octets) : Prop := 0 < piece.length → piece.length ≤ 2 →
    Octets.newline ∈ piece

theorem lateLineEnd_eq_error_iff (hne : piece ≠ []) : lateLineEnd piece = .error .outOfRange ↔
    ¬ Searchable piece := by
  have hpos := length_pos_iff.2 hne
  have hmiddle : middle piece = 0 ↔ piece.length ≤ 2 := by
    unfold middle
    omega
  rw [lateLineEnd_eq]
  by_cases hshort : piece.length ≤ 2
  · rw [hmiddle.2 hshort, drop_zero, if_pos rfl]
    by_cases hline : Octets.newline ∈ piece
    · rw [if_pos (Nat.pos_of_ne_zero (behindLast_eq_zero_iff.not.2 (not_not.2 hline)))]
      simp [Searchable, hline]
    · rw [if_neg (by rw [behindLast_eq_zero_iff.2 hline]; omega)]
      simp [Searchable, hline, hshort, hpos]
  · rw [if_neg (hmiddle.not.2 hshort)]
    have hsearchable : Searchable piece := fun _ h => absurd h hshort
    split <;> simp [hsearchable]

/-- The looks of the rounds after the first: each piece is searched, and then its octets are copied.
-/
def laterLooks (batch : Nat) (data : Octets) : List Look :=
  if data.length = 0 ∨ batch = 0 then []
  else
    let piece := data.take batch
    Look.andThen (lateLooks piece)
      (Look.row piece.length 0 piece.length ++ laterLooks batch (data.drop batch))
termination_by data.length
decreasing_by simp only [length_drop]; omega

/-- Every piece can be searched. -/
def AllSearchable (batch : Nat) (data : Octets) : Prop :=
  ∀ k, Searchable ((data.drop (k * batch)).take batch)

theorem allSearchable_iff :
    AllSearchable batch data ↔ Searchable (data.take batch) ∧
    AllSearchable batch (data.drop batch) := by
  have hshift : ∀ k, (data.drop batch).drop (k * batch) = data.drop ((k + 1) * batch) := by
    intro k
    rw [drop_drop, Nat.add_mul, Nat.one_mul, Nat.add_comm]
  constructor
  · intro h
    refine ⟨by simpa using h 0, fun k => ?_⟩
    rw [hshift]
    exact h (k + 1)
  · rintro ⟨hfirst, hrest⟩ k
    cases k with
    | zero => simpa using hfirst
    | succ k =>
      rw [← hshift]
      exact hrest k

theorem allSearchable_nil (batch : Nat) : AllSearchable batch [] := by
  intro k hpos
  simp at hpos

/-- **The rounds after the first stay inside** exactly if every piece can be searched, and that is
when they deal. -/
theorem inside_laterLooks_iff {batch outs : Nat} (hbatch : 0 < batch)
    (hword : batch < 0x10000000000000000) (t : Turn) (data : Octets) :
    ((∀ l ∈ laterLooks batch data, l.Inside) ↔ AllSearchable batch data) ∧
      ((∃ later, laterRounds batch outs t data = .ok later) ↔ AllSearchable batch data) := by
  induction hn : data.length using Nat.strong_induction_on generalizing t data with
  | _ n ih =>
    by_cases hdata : data = []
    · subst hdata
      rw [laterLooks, if_pos (.inl length_nil), laterRounds_nil]
      simp [allSearchable_nil]
    · have hless : (data.drop batch).length < n := hn ▸ length_drop_lt hbatch hdata
      have hne : data.take batch ≠ [] := by simp [hdata, hbatch.ne']
      have hcut := lateLineEnd_eq_search hne (by rw [length_take]; omega)
      rw [laterLooks, if_neg (octets_left hbatch hdata)]
      rw [Look.forall_andThen, forall_mem_append,
        and_iff_right (Look.inside_row (Nat.le_of_eq (Nat.zero_add _))), allSearchable_iff]
      by_cases hinside : ∀ l ∈ lateLooks (data.take batch), l.Inside
      · rw [if_pos hinside] at hcut
        have hgood : Searchable (data.take batch) :=
          (lateLineEnd_eq_error_iff hne).not_left.1 (by rw [hcut]; simp)
        rw [and_iff_right hinside, and_iff_right hgood]
        refine ⟨(ih _ hless t _ rfl).1, ?_⟩
        cases hfound :
          (search (data.take batch) (lateTest (data.take batch))
            ((data.take batch).length - 1)).2 with
        | none =>
          rw [hfound] at hcut
          rw [laterRounds_of_none hbatch hdata hcut, ← (ih _ hless t.stay _ rfl).2]
          exact Except.exists_map_eq_ok
        | some =>
          rw [hfound] at hcut
          rw [laterRounds_of_some hbatch hdata hcut, ← (ih _ hless (t.pass outs _) _ rfl).2]
          exact Except.exists_map_eq_ok
      · rw [if_neg hinside] at hcut
        have hbad : ¬ Searchable (data.take batch) := (lateLineEnd_eq_error_iff hne).1 hcut
        rw [laterRounds_of_error hbatch hdata hcut]
        simp [hinside, hbad]

/-! ### The first round -/

theorem signed_le (n : Nat) : signed n ≤ n := by
  unfold signed
  dsimp only
  split <;> omega

/-- Whether the search through a share goes on. -/
def shareTest (start : Nat) (i : Int) : Bool := decide ((start : Int) ≤ i)

/-- How many octets are in front of what a search has found. -/
def cutAt (start : Nat) (found : Option Int) : Nat := found.elim 0 fun i => (i + 1 - start).toNat

/-- **The search through a share finds its cut**, and stays inside exactly if the share ends inside.
-/
theorem search_share {share output start : Nat} {buffer : Octets} (hstart : start ≤ buffer.length) :
    let stop := signed ((output + 1) * share)
    ((∀ l ∈ searchLooks buffer (shareTest start) stop, l.Inside) ↔ stop < buffer.length) ∧
      (stop < buffer.length →
        cutAt start (search buffer (shareTest start) stop).2 =
          shareCut share output start (buffer.drop start)) := by
  intro stop
  have hroom : (signed ((output + 1) * share) + 1 - start).toNat = (stop + 1 - start).toNat := rfl
  by_cases hend : stop < buffer.length
  · rw [iff_true_right hend, shareCut, hroom]
    have hbelow : ∀ i : Int, i < start → search buffer (shareTest start) i = ([], none) :=
      fun i hi =>
      search_of_failed (decide_eq_false (Int.not_le.2 hi))
    by_cases hempty : stop < start
    · have hnone : (stop + 1 - start).toNat = 0 := by omega
      rw [searchLooks, hbelow stop hempty, hnone]
      simp [cutAt, Octets.behindLast]
    · obtain ⟨count, hcount⟩ : ∃ count : Nat, stop + 1 - start = count :=
        ⟨_, (Int.toNat_of_nonneg (by omega)).symm⟩
      have hstop : stop = start + count - 1 := by omega
      have hsearch := @search_segment buffer (shareTest start) start count
        (fun j hlow _ => decide_eq_true (Int.ofNat_le.2 hlow)) (by omega)
      dsimp only at hsearch
      have hlooks : searchLooks buffer (shareTest start) (start - 1) = [] := by
        rw [searchLooks, hbelow _ (by omega), map_nil]
      rw [← hstop, hbelow (start - 1) (by omega), hlooks] at hsearch
      rw [hcount, Int.toNat_natCast]
      split at hsearch
      · next hnone =>
        rw [hsearch.1, hnone]
        exact ⟨hsearch.2.2 (by simp), fun _ => rfl⟩
      · next hsome =>
        refine ⟨hsearch.2, fun _ => ?_⟩
        rw [hsearch.1]
        show (((start : Int) + _ - 1) + 1 - start).toNat = _
        omega
  · have houtside : search buffer (shareTest start) stop = ([stop], none) :=
      search_of_outside (decide_eq_true (by omega)) (by omega)
    rw [searchLooks, houtside]
    simp [Look.Inside, hend]

/-- The looks of the first round: each share is searched, and then copied up to the cut.  For the
last output, the last octet is looked at. -/
def firstLooks (share : Nat) (buffer : Octets) (output start : Nat) : (left : Nat) → List Look
  | 0 => ⟨buffer.length - 1, buffer.length⟩ :: Look.row buffer.length start (buffer.length - start)
  | left + 1 =>
    let stop := signed ((output + 1) * share)
    let n := cutAt start (search buffer (shareTest start) stop).2
    Look.andThen (searchLooks buffer (shareTest start) stop)
      (Look.row buffer.length start n ++ firstLooks share buffer (output + 1) (start + n) left)

/-- **The first round stays inside** exactly if every share but the last ends inside. -/
theorem inside_firstLooks_iff {share : Nat} {buffer : Octets} (hne : buffer ≠ [])
    (left output start : Nat) (hstart : start ≤ buffer.length) :
    (∀ l ∈ firstLooks share buffer output start left, l.Inside) ↔
      ∀ i < left, signed ((output + i + 1) * share) < buffer.length := by
  induction left generalizing output start with
  | zero =>
    have hpos := length_pos_iff.2 hne
    have hlast : Look.Inside ⟨buffer.length - 1, buffer.length⟩ := by
      constructor <;> dsimp only <;> omega
    rw [firstLooks, forall_mem_cons]
    exact iff_of_true ⟨hlast, Look.inside_row (by omega)⟩ (by simp)
  | succ left ih =>
    have hshare := @search_share share output start buffer hstart
    rw [firstLooks, Look.forall_andThen, forall_mem_append, Nat.forall_lt_succ_left, hshare.1]
    refine and_congr_right fun hend => ?_
    rw [hshare.2 hend]
    have hcut : start + shareCut share output start (buffer.drop start) ≤ buffer.length := by
      have hle := Octets.behindLast_le Octets.newline
        ((buffer.drop start).take (signed ((output + 1) * share) + 1 - start).toNat)
      rw [length_take, length_drop] at hle
      rw [shareCut]
      omega
    rw [and_iff_right (Look.inside_row hcut), ih _ _ hcut]
    simp only [Nat.add_right_comm, Nat.add_assoc]

def looks (payload batch outs : Nat) (data : Octets) : List Look :=
  let start := data.take payload
  let first := if start.isEmpty then [] else firstLooks (shareOf payload batch outs start) start 0 0
    (outs - 1)
  Look.andThen first (laterLooks batch (data.drop payload))

/-- Every share but the last ends inside the first round. -/
def SharesEndInside (payload batch outs : Nat) (start : Octets) : Prop :=
  ∀ i < outs - 1, signed ((i + 1) * shareOf payload batch outs start) < start.length

/-- **When a dealing by lines stays inside.** -/
theorem inside_looks_iff {payload batch outs : Nat} (hbatch : 0 < batch)
    (hword : batch < 0x10000000000000000) (data : Octets) :
    (∀ l ∈ looks payload batch outs data, l.Inside) ↔
      (data.take payload ≠ [] → SharesEndInside payload batch outs (data.take payload)) ∧
        AllSearchable batch (data.drop payload) := by
  rw [looks, Look.forall_andThen,
    (@inside_laterLooks_iff batch outs hbatch hword ⟨0, 0, [], 0⟩ _).1]
  refine and_congr_left fun _ => ?_
  by_cases hstart : data.take payload = []
  · simp [hstart]
  · rw [if_neg (by simpa using hstart), inside_firstLooks_iff hstart _ _ _ (Nat.zero_le _),
      SharesEndInside]
    simp [hstart]

theorem overreaches_eq_false_iff : overreaches payload batch outs data = false ↔
      (data.take payload ≠ [] → SharesEndInside payload batch outs (data.take payload)) := by
  simp [overreaches, SharesEndInside, shareOf, -take_eq_nil_iff, Classical.or_iff_not_imp_left]

/-- A dealing by lines gives blocks exactly if every piece behind the first round can be searched.
-/
theorem exists_byLines_iff (hbatch : 0 < batch) (hword : batch < 0x10000000000000000)
    (data : Octets) : (∃ ds, byLines payload batch outs data = .ok ds) ↔
    AllSearchable batch (data.drop payload) := by
  by_cases hstart : data.take payload = []
  · have hdrop : data.drop payload = data := by
      rcases take_eq_nil_iff.1 hstart with rfl | rfl <;> simp
    rw [byLines_of_nil hstart, hdrop]
    exact (inside_laterLooks_iff hbatch hword _ _).2
  · rw [byLines_of_ne_nil hstart, Except.exists_map_eq_ok]
    exact (inside_laterLooks_iff hbatch hword _ _).2

theorem sharesEndInside_of_short {start : Octets} (hne : start ≠ [])
    (hshort : start.length < payload) : SharesEndInside payload batch outs start := by
  intro i hi
  have hpos := length_pos_iff.2 hne
  rw [shareOf, if_pos hshort]
  refine Int.lt_of_le_of_lt (signed_le _) (Int.ofNat_lt.2 ?_)
  rcases Nat.eq_zero_or_pos (start.length / outs) with hzero | hshare
  · rw [hzero, Nat.mul_zero]
    exact hpos
  · calc (i + 1) * (start.length / outs) < outs * (start.length / outs) :=
          Nat.mul_lt_mul_of_pos_right (by omega) hshare
      _ ≤ start.length := Nat.mul_div_le _ _

end RoundRobin

namespace SplitCommand

variable {c : SplitCommand}

def looks (c : SplitCommand) (data : Octets) : List Look :=
  RoundRobin.looks c.payload c.batch.toNat c.outputs.length data

/-- The shares of a full first round end inside it. -/
def SharesFit (c : SplitCommand) (data : Octets) : Prop :=
  0 < c.payload → c.payload ≤ data.length →
    ∀ i, 0 < i → i < c.outputs.length → RoundRobin.signed (i * c.batch.toNat) < c.payload

theorem sharesFit_iff {data : Octets} : (data.take c.payload ≠ [] →
      RoundRobin.SharesEndInside c.payload c.batch.toNat c.outputs.length (data.take c.payload)) ↔
      c.SharesFit data := by
  by_cases hstart : data.take c.payload = []
  · refine iff_of_true (fun h => absurd hstart h) fun hpos hfull => ?_
    rcases take_eq_nil_iff.1 hstart with hzero | rfl
    · omega
    · rw [length_nil] at hfull
      omega
  · rw [imp_iff_right hstart]
    by_cases hfull : c.payload ≤ data.length
    · have hlength : (data.take c.payload).length = c.payload := length_take_of_le hfull
      have hpos : 0 < c.payload := hlength ▸ length_pos_iff.2 hstart
      rw [SharesFit, imp_iff_right hpos, imp_iff_right hfull, RoundRobin.SharesEndInside,
        RoundRobin.shareOf, hlength, if_neg (Nat.lt_irrefl _)]
      constructor
      · intro h i hi hlt
        obtain ⟨i, rfl⟩ := Nat.exists_eq_succ_of_ne_zero hi.ne'
        exact h i (by omega)
      · intro h i hi
        exact h (i + 1) (Nat.succ_pos i) (by omega)
    · have hshort : (data.take c.payload).length < c.payload := by
        rw [length_take]
        omega
      exact iff_of_true (RoundRobin.sharesEndInside_of_short hstart hshort) fun _ h =>
        absurd h hfull

/-- Shares that fit into a machine word end inside. -/
theorem sharesFit_of_lt (hpos : 0 < c.batch) (h : c.batch * c.outputs.length < Octets.range 32)
    (data : Octets) : c.SharesFit data := by
  intro _ _ i _ hi
  have hpayload : (c.payload : Int) = c.batch * c.outputs.length := by
    rw [payload, Int.emod_eq_of_lt (Int.mul_nonneg hpos.le (Int.natCast_nonneg _)) h]
    exact Int.toNat_of_nonneg (Int.mul_nonneg hpos.le (Int.natCast_nonneg _))
  rw [hpayload]
  refine Int.lt_of_le_of_lt (RoundRobin.signed_le _) ?_
  rw [Int.natCast_mul, Int.toNat_of_nonneg hpos.le, Int.mul_comm]
  exact Int.mul_lt_mul_of_pos_left (Int.ofNat_lt.2 hi) hpos

theorem overreaches_eq_false_iff_sharesFit (hlines : c.byLength = false) (hpos : 0 < c.batch)
    (hlt : c.batch < Octets.range 31) {data : Octets} : c.overreaches data = false ↔
    c.SharesFit data := by
  have hmod : c.batch % Octets.range 64 = c.batch :=
    Int.emod_eq_of_lt hpos.le (Int.lt_trans hlt (by decide))
  have hover : c.overreaches data =
      RoundRobin.overreaches c.payload c.batch.toNat c.outputs.length data := by
    rw [overreaches, hlines, hmod]
    rfl
  rw [hover, RoundRobin.overreaches_eq_false_iff, sharesFit_iff]

/-- **When a dealing by lines stays inside its buffers.**  It does exactly if the shares of a full
first round end inside it, and every piece of one or two octets behind it has a line end.  That is
exactly when the program deals blocks.  The shares end inside whenever their lengths together are a
machine word. -/
theorem looks_inside_iff {c : SplitCommand} (hlines : c.byLength = false) (hpos : 0 < c.batch)
    (hlt : c.batch < Octets.range 31) (data : Octets) :
    ((∀ l ∈ c.looks data, l.Inside) ↔
      c.SharesFit data ∧ RoundRobin.AllSearchable c.batch.toNat (data.drop c.payload)) ∧
    ((∀ l ∈ c.looks data, l.Inside) ↔ c.overreaches data = false ∧ ∃ ds, c.dealt data = .ok ds) ∧
    (c.batch * c.outputs.length < Octets.range 32 → c.SharesFit data) := by
  have hrange : Octets.range 31 = 2147483648 := rfl
  have hbatch : 0 < c.batch.toNat := by omega
  have hword : c.batch.toNat < 0x10000000000000000 := by omega
  have hlooks := @RoundRobin.inside_looks_iff c.payload _ c.outputs.length hbatch hword data
  refine ⟨?_, ?_, fun h => sharesFit_of_lt hpos h data⟩
  · rw [looks, hlooks, sharesFit_iff]
  · rw [looks, hlooks, overreaches_eq_false_iff_sharesFit hlines hpos hlt,
      dealt_eq_byLines hlines hpos hlt, sharesFit_iff, RoundRobin.exists_byLines_iff hbatch hword]

theorem looks_inside_of_short_last_line :
    twoByThree.byLength = false ∧ 0 < twoByThree.batch ∧ twoByThree.batch < Octets.range 31 ∧
      ∀ l ∈ twoByThree.looks (.ofText "ab\ncd\na\nbc\n"), l.Inside := by
  refine ⟨rfl, by decide, by decide, ?_⟩
  have hiff := looks_inside_iff (c := twoByThree) rfl (by decide) (by decide)
    (.ofText "ab\ncd\na\nbc\n")
  have hpieces : (Octets.ofText "ab\ncd\na\nbc\n").drop 6 = [97, 10, 98, 99, 10] := by
    decide +kernel
  refine hiff.1.2 ⟨hiff.2.2 (by decide), ?_⟩
  show RoundRobin.AllSearchable 3 (List.drop 6 _)
  rw [hpieces, RoundRobin.allSearchable_iff, RoundRobin.allSearchable_iff]
  exact ⟨fun _ _ => by decide, fun _ _ => by decide, RoundRobin.allSearchable_nil 3⟩

/-- One output, and pieces of many octets. -/
def oneByMany : SplitCommand := { batch := 200000, outputs := ["f"] }

/-- Behind a full first round, the search through a single octet looks in front of it. -/
theorem looks_outside_of_single_octet :
    ⟨-1, 1⟩ ∈ oneByMany.looks (List.replicate 200001 97) ∧ ¬ Look.Inside ⟨-1, 1⟩ := by
  have hpayload : oneByMany.payload = 200000 := rfl
  have hstart : (List.replicate 200001 (97 : UInt8)).take 200000 ≠ [] := by
    refine List.ne_nil_of_length_pos ?_
    rw [List.length_take, List.length_replicate]
    decide
  have hrest : (List.replicate 200001 (97 : UInt8)).drop 200000 = [97] := by
    rw [List.drop_replicate]
    rfl
  have hsearch : RoundRobin.lateLooks [97] = [⟨0, 1⟩, ⟨-1, 1⟩] := by decide +kernel
  have hlater : ⟨-1, 1⟩ ∈ RoundRobin.laterLooks 200000 [97] := by
    rw [RoundRobin.laterLooks, if_neg (by decide)]
    refine Look.mem_andThen_of_mem ?_
    rw [List.take_of_length_le (by decide), hsearch]
    decide
  refine ⟨?_, by decide⟩
  rw [looks, hpayload, RoundRobin.looks, hrest, if_neg fun h => hstart (List.isEmpty_iff.1 h)]
  refine Look.mem_andThen ?_ hlater
  exact (RoundRobin.inside_firstLooks_iff hstart 0 0 0 (Nat.zero_le _)).2 fun i hi =>
    absurd hi (Nat.not_lt_zero i)

end SplitCommand

end ShellFlow
