import Mathlib.Data.List.Nodup
import Mathlib.Data.List.Perm.Subperm
import Mathlib.Tactic.Ring
import ShellFlow.Shell.Tree

/-!
# Sameness of words

Two words may say the same without being equal: the numbers in them may be written in different
ways, and the fields of a record may come in another order.  This module shows that sameness is
symmetric and transitive, so that the files of a graph fall into classes, each with all the words
that say the same.

## Contents

* **Numbers** (`Value.fraction?`): a number is read as a fraction of a power of ten.  Truth values
  and whole numbers are such fractions too, and two numbers are the same exactly if their fractions
  have one value (`Value.same_iff_of_fraction`).
* **Records** (`Value.sameFields_symm`): if no field is named twice, the first record is looked up
  by as many names as the second one has, so each field of the second one is found in the first one.
* **Values and words** (`Value.isClass`, `Word.isClass`), if no record names a field twice
  (`Value.WellFormed`, `Word.WellFormed`).

## Design Notes

A number that is none is not the same as itself, and neither is a command inside of a word; so
sameness is not reflexive, and is no equivalence of all words.
-/

namespace ShellFlow

namespace Value

/-! ### Numbers -/

/-- A number as a fraction of a power of ten: its numerator, and the exponent. -/
def fraction? : Value → Option (Int × Nat)
  | bool b => some (if b then 1 else 0, 0)
  | int n => some (n, 0)
  | decimal (.finite negative digits places) => some (Decimal.signed negative digits, places)
  | _ => none

theorem powerOfTen_ne_zero (n : Nat) : (Decimal.powerOfTen n : Int) ≠ 0 := by
  have hpos : 0 < Decimal.powerOfTen n := Nat.pow_pos (by decide : 0 < 10)
  omega

/-- Numbers are the same exactly if their fractions have one value. -/
theorem same_iff_of_fraction {v w : Value} {a : Int} {m : Nat} (h : v.fraction? = some (a, m)) :
    v.same w ↔ ∃ b n, w.fraction? = some (b, n) ∧
      a * (Decimal.powerOfTen n : Int) = b * (Decimal.powerOfTen m : Int) := by
  have hone : (Decimal.powerOfTen 0 : Int) = 1 := rfl
  cases v with
  | bool | int =>
    cases h
    cases w with
    | decimal d => cases d <;> simp [same, sameInt, fraction?, Decimal.sameInt, hone, eq_comm]
    | _ => simp [same, sameInt, fraction?, hone]
  | decimal x =>
    cases x with
    | finite =>
      cases h
      cases w with
      | decimal d => cases d <;> simp [same, fraction?, Decimal.same]
      | _ => simp [same, fraction?, Decimal.sameInt, hone]
    | _ => cases h
  | _ => cases h

/-- Values that are the same as a value are the same in either order, and so are the values that are
the same as one of them. -/
def IsClass (v : Value) : Prop := ∀ w, v.same w → w.same v ∧ ∀ u, w.same u → v.same u

theorem isClass_of_fraction {v : Value} {f : Int × Nat} (hv : v.fraction? = some f) :
    v.IsClass := by
  intro w h
  obtain ⟨b, n, hw, hvalue⟩ := (same_iff_of_fraction hv).1 h
  refine ⟨(same_iff_of_fraction hw).2 ⟨_, _, hv, hvalue.symm⟩, fun u h' => ?_⟩
  obtain ⟨c, k, hu, hvalue'⟩ := (same_iff_of_fraction hw).1 h'
  refine (same_iff_of_fraction hv).2 ⟨c, k, hu, ?_⟩
  -- both sides, times the power of ten of the number in the middle
  refine mul_right_cancel₀ (powerOfTen_ne_zero n) ?_
  calc f.1 * (Decimal.powerOfTen k : Int) * Decimal.powerOfTen n
      = f.1 * (Decimal.powerOfTen n : Int) * Decimal.powerOfTen k := by ring
    _ = b * (Decimal.powerOfTen k : Int) * Decimal.powerOfTen f.2 := by rw [hvalue]; ring
    _ = c * (Decimal.powerOfTen f.2 : Int) * Decimal.powerOfTen n := by rw [hvalue']; ring

/-- A value that is the same as no other one. -/
theorem isClass_of_eq {v : Value} (h : ∀ w, v.same w → w = v) : v.IsClass := by
  intro w hw
  obtain rfl := h w hw
  exact ⟨hw, fun _ h' => h'⟩

theorem eq_of_same_infinite {s : Bool} {w : Value} (h : (decimal (.infinite s)).same w) :
    w = decimal (.infinite s) := by
  cases w with
  | decimal d =>
    cases d with
    | infinite t =>
      obtain rfl : s = t := by simpa [same, Decimal.same] using h
      rfl
    | _ => cases h
  | _ => cases h

/-! ### Values -/

mutual

/-- No record names a field twice. -/
def WellFormed : Value → Prop
  | list items => AllWellFormed items
  | record fields => (fields.map Prod.fst).Nodup ∧ FieldsWellFormed fields
  | _ => True

/-- All items are well-formed. -/
def AllWellFormed : List Value → Prop
  | [] => True
  | v :: vs => v.WellFormed ∧ AllWellFormed vs

/-- All fields have well-formed values. -/
def FieldsWellFormed : List (String × Value) → Prop
  | [] => True
  | (_, v) :: fields => v.WellFormed ∧ FieldsWellFormed fields

end

/-- Each field of a record is looked up among those of the other. -/
theorem sameFields_iff {fields others : List (String × Value)} :
    sameFields fields others ↔
      ∀ f ∈ fields, ∃ g, others.find? (fun g => g.1 == f.1) = some g ∧ f.2.same g.2 := by
  induction fields with
  | nil => simp [sameFields]
  | cons f fields ih =>
    obtain ⟨name, v⟩ := f
    rw [sameFields, Bool.and_eq_true, ih, Option.any_eq_true, List.forall_mem_cons]

theorem sameItems_cons {v : Value} {vs ws : List Value} :
    sameItems (v :: vs) ws ↔ ∃ w rest, ws = w :: rest ∧ v.same w ∧ sameItems vs rest := by
  cases ws <;> simp [sameItems]

/-- Records with as many fields are compared in either order, if the first one names none twice: its
names are then all names of the second one. -/
theorem sameFields_symm {fields others : List (String × Value)}
    (hnodup : (fields.map Prod.fst).Nodup) (hlength : fields.length = others.length)
    (hclass : ∀ f ∈ fields, f.2.IsClass) (h : sameFields fields others) :
    sameFields others fields := by
  rw [sameFields_iff] at h ⊢
  have hsubset : fields.map Prod.fst ⊆ others.map Prod.fst := by
    intro name hname
    obtain ⟨f, hf, rfl⟩ := List.mem_map.1 hname
    obtain ⟨g, hg, -⟩ := h f hf
    rw [← show g.1 = f.1 by simpa using List.find?_some hg]
    exact List.mem_map_of_mem (List.mem_of_find?_eq_some hg)
  have hperm : (fields.map Prod.fst).Perm (others.map Prod.fst) :=
    (hnodup.subperm hsubset).perm_of_length_le (by simp [hlength])
  intro g hg
  obtain ⟨f, hf⟩ : ∃ f, fields.find? (fun f => f.1 == g.1) = some f := by
    obtain ⟨f, hf, hname⟩ := List.mem_map.1 (hperm.mem_iff.2 (List.mem_map_of_mem hg))
    exact Option.isSome_iff_exists.1 (List.find?_isSome.2 ⟨f, hf, by simp [hname]⟩)
  have hfg : f.1 = g.1 := by simpa using List.find?_some hf
  have hmem := List.mem_of_find?_eq_some hf
  obtain ⟨g', hg', hsame⟩ := h f hmem
  have hname : g'.1 = f.1 := by simpa using List.find?_some hg'
  obtain rfl : g' = g := List.inj_on_of_nodup_map (hperm.nodup_iff.1 hnodup)
    (List.mem_of_find?_eq_some hg') hg (hname.trans hfg)
  exact ⟨f, hf, (hclass f hmem _ hsame).1⟩

theorem sameFields_trans {fields others more : List (String × Value)}
    (hclass : ∀ f ∈ fields, f.2.IsClass) (h : sameFields fields others)
    (h' : sameFields others more) : sameFields fields more := by
  rw [sameFields_iff] at h h' ⊢
  intro f hf
  obtain ⟨g, hg, hsame⟩ := h f hf
  obtain ⟨g', hg', hsame'⟩ := h' g (List.mem_of_find?_eq_some hg)
  rw [show g.1 = f.1 by simpa using List.find?_some hg] at hg'
  exact ⟨g', hg', (hclass f hf _ hsame).2 _ hsame'⟩

mutual

/-- **Sameness is symmetric and transitive** for values in which no record names a field twice.  The
induction is on the value. -/
theorem isClass : ∀ v : Value, v.WellFormed → v.IsClass
  | null, _ => isClass_of_eq fun w h => by simpa [same] using h
  | bool _, _ | int _, _ | decimal (.finite _ _ _), _ => isClass_of_fraction rfl
  | decimal (.infinite _), _ => isClass_of_eq fun _ => eq_of_same_infinite
  | decimal .undefined, _ => fun w h => by cases w <;> cases h
  | text _, _ | unavailable _, _ => isClass_of_eq fun w h => by simpa [same] using h
  | list items, hitems => by
    intro w h
    cases w with
    | list others =>
      obtain ⟨hsymm, htrans⟩ := sameItems_class items hitems others h
      refine ⟨hsymm, fun u h' => ?_⟩
      cases u with
      | list more => exact htrans more h'
      | _ => cases h'
    | _ => cases h
  | record fields, hfields => by
    intro w h
    have hclass := isClass_of_mem fields hfields.2
    cases w with
    | record others =>
      obtain ⟨hlength, hsame⟩ : fields.length = others.length ∧ sameFields fields others := by
        simpa [same] using h
      have hback := sameFields_symm hfields.1 hlength hclass hsame
      refine ⟨by simpa [same, hlength] using hback, fun u h' => ?_⟩
      cases u with
      | record more =>
        obtain ⟨hlength', hsame'⟩ : others.length = more.length ∧ sameFields others more := by
          simpa [same] using h'
        have hboth := sameFields_trans hclass hsame hsame'
        simpa [same, hlength, hlength'] using hboth
      | _ => cases h'
    | _ => cases h

theorem sameItems_class : ∀ vs, AllWellFormed vs → ∀ ws, sameItems vs ws →
    sameItems ws vs ∧ ∀ us, sameItems ws us → sameItems vs us
  | [], _, ws, h => by
    obtain rfl : ws = [] := by simpa [sameItems] using h
    exact ⟨h, fun _ h' => h'⟩
  | v :: vs, hvs, ws, h => by
    obtain ⟨w, ws, rfl, hfirst, hrest⟩ := sameItems_cons.1 h
    obtain ⟨hsymm, htrans⟩ := isClass v hvs.1 w hfirst
    obtain ⟨hsymm', htrans'⟩ := sameItems_class vs hvs.2 ws hrest
    refine ⟨sameItems_cons.2 ⟨v, vs, rfl, hsymm, hsymm'⟩, fun us h' => ?_⟩
    obtain ⟨u, us, rfl, hfirst', hrest'⟩ := sameItems_cons.1 h'
    exact sameItems_cons.2 ⟨u, us, rfl, htrans u hfirst', htrans' us hrest'⟩

theorem isClass_of_mem : ∀ fields, FieldsWellFormed fields → ∀ f ∈ fields, f.2.IsClass
  | [], _, f, hf => by cases hf
  | (_, v) :: fields, hfields, f, hf => by
    rcases List.mem_cons.1 hf with rfl | hf
    · exact isClass v hfields.1
    · exact isClass_of_mem fields hfields.2 f hf

end

end Value

/-! ### Words -/

mutual

/-- No record in a part of a word names a field twice. -/
def Part.WellFormed : Part → Prop
  | .quoted inner => Word.WellFormed inner
  | .reference content => Value.AllWellFormed content
  | .tilde user => user.WellFormed
  | .arith inner => Word.WellFormed inner
  | .other data => data.WellFormed
  | _ => True

/-- No record in a word names a field twice. -/
def Word.WellFormed : List Part → Prop
  | [] => True
  | p :: ps => p.WellFormed ∧ Word.WellFormed ps

end

theorem Word.same_cons {p : Part} {ps qs : Word} :
    Word.same (p :: ps) qs ↔ ∃ q rest, qs = q :: rest ∧ p.same q ∧ Word.same ps rest := by
  cases qs <;> simp [Word.same]

/-- A part that is the same as parts of its own kind only is in a class if what it holds is. -/
theorem Part.isClass_of_kind {β : Type} (kind : β → Part) {R : β → β → Bool} {a : β}
    (ha : ∀ b, R a b → R b a ∧ ∀ c, R b c → R a c)
    (hkind : ∀ b q, (kind b).same q ↔ ∃ c, q = kind c ∧ R b c := by
      intro b q
      cases q <;> simp [Part.same]) :
    ∀ q, (kind a).same q → q.same (kind a) ∧ ∀ r : Part, q.same r → (kind a).same r := by
  intro q h
  obtain ⟨b, rfl, hb⟩ := (hkind a q).1 h
  obtain ⟨hsymm, htrans⟩ := ha b hb
  refine ⟨(hkind b _).2 ⟨a, rfl, hsymm⟩, fun r h' => ?_⟩
  obtain ⟨c, rfl, hc⟩ := (hkind b r).1 h'
  exact (hkind a _).2 ⟨c, rfl, htrans c hc⟩

mutual

theorem Part.isClass : ∀ p : Part, p.WellFormed → ∀ q, p.same q →
    q.same p ∧ ∀ r : Part, q.same r → p.same r
  | .char a, _ => Part.isClass_of_kind .char (R := (· == ·)) (by simp +contextual)
  | .escaped a, _ => Part.isClass_of_kind .escaped (R := (· == ·)) (by simp +contextual)
  | .quoted inner, hp => Part.isClass_of_kind .quoted (Word.isClass inner hp)
  | .reference content, hp => Part.isClass_of_kind .reference (Value.sameItems_class content hp)
  | .tilde user, hp => Part.isClass_of_kind .tilde (user.isClass hp)
  | .arith inner, hp => Part.isClass_of_kind .arith (Word.isClass inner hp)
  | .substitution _, _ => by
    intro q h
    cases q <;> cases h
  | .other data, hp => Part.isClass_of_kind .other (data.isClass hp)

/-- **Sameness of words is symmetric and transitive**, if no record in them names a field twice. -/
theorem Word.isClass : ∀ ps : Word, Word.WellFormed ps → ∀ qs, Word.same ps qs →
    Word.same qs ps ∧ ∀ rs, Word.same qs rs → Word.same ps rs
  | [], _, qs, h => by
    cases qs with
    | nil => exact ⟨h, fun _ h' => h'⟩
    | cons => cases h
  | p :: ps, hps, qs, h => by
    obtain ⟨q, qs, rfl, hfirst, hrest⟩ := Word.same_cons.1 h
    obtain ⟨hsymm, htrans⟩ := Part.isClass p hps.1 q hfirst
    obtain ⟨hsymm', htrans'⟩ := Word.isClass ps hps.2 qs hrest
    refine ⟨Word.same_cons.2 ⟨p, ps, rfl, hsymm, hsymm'⟩, fun rs h' => ?_⟩
    obtain ⟨r, rs, rfl, hfirst', hrest'⟩ := Word.same_cons.1 h'
    exact Word.same_cons.2 ⟨r, rs, rfl, htrans r hfirst', htrans' rs hrest'⟩

end

/-- Words of characters are well-formed. -/
theorem Word.wellFormed_ofString (s : String) : Word.WellFormed (Word.ofString s) := by
  rw [Word.ofString]
  induction Text.codes s with
  | nil => trivial
  | cons c cs ih => exact ⟨trivial, ih⟩

end ShellFlow
