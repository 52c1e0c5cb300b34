import Mathlib.Data.List.Forall2
import Mathlib.Data.List.Nodup
import Mathlib.Data.List.Perm.Basic
import Mathlib.Data.List.TakeDrop
import Mathlib.Data.List.TakeWhile

/-!
# Lists

Facts about lists that do not depend on the programs and are needed at more than one place of the
theory.

## Contents

* **Lists side by side** (`exists_of_forall₂`, `forall₂_of_forall₂`): an element has a partner, and
  partners of partners are partners.
* **Elements** (`nodup_eraseDups`, `all_contains_iff`, `foldl_mem_cons`, `map_update_of_notMem`).
* **One turn of many** (`flatMap_range_ite`, `flatMap_range_append_perm`): what only one of several
  outputs gets is all that they get together.
* **Cutting at an element** (`span_append_cons`, `span_of_notMem`).
-/

namespace ShellFlow

open List

variable {α β γ : Type}

/-- An element of a list has a partner in a list that stands beside it. -/
theorem exists_of_forall₂ {R : α → β → Prop} {as : List α} {bs : List β}
    (h : List.Forall₂ R as bs) {a : α} (ha : a ∈ as) : ∃ b ∈ bs, R a b := by
  induction h with
  | nil => cases ha
  | cons hfirst _ ih =>
    rcases mem_cons.1 ha with rfl | ha
    · exact ⟨_, mem_cons_self, hfirst⟩
    · exact (ih ha).imp fun b hb => ⟨mem_cons_of_mem _ hb.1, hb.2⟩

/-- Two ways of standing side by side, one after the other. -/
theorem forall₂_of_forall₂ {R : α → β → Prop} {S : β → γ → Prop} {T : α → γ → Prop}
    {as : List α} {bs : List β} {cs : List γ} (h : List.Forall₂ R as bs)
    (h' : List.Forall₂ S bs cs) (hstep : ∀ a b c, R a b → S b c → T a c) :
    List.Forall₂ T as cs := by
  induction h generalizing cs with
  | nil =>
    obtain rfl := List.forall₂_nil_left_iff.1 h'
    exact .nil
  | cons hfirst _ ih =>
    obtain ⟨c, cs, hc, hcs, rfl⟩ := List.forall₂_cons_left_iff.1 h'
    exact .cons (hstep _ _ c hfirst hc) (ih hcs)

/-- No element is left twice.  The induction is on the length, since every element takes some of
those behind it away. -/
theorem nodup_eraseDups [BEq α] [LawfulBEq α] (as : List α) : as.eraseDups.Nodup := by
  induction hlen : as.length using Nat.strong_induction_on generalizing as with
  | _ len ih =>
    cases as with
    | nil => simp
    | cons a as =>
      rw [eraseDups_cons, nodup_cons, mem_eraseDups]
      refine ⟨by simp, ih _ ?_ _ rfl⟩
      have := length_filter_le (fun b => !b == a) as
      rw [← hlen, length_cons]
      omega

theorem all_contains_iff [BEq α] [LawfulBEq α] {as bs : List α} :
    as.all bs.contains ↔ as ⊆ bs := by
  simp [subset_def]

/-- Choosing between two again and again gives one of all. -/
theorem foldl_mem_cons {f : α → α → α} (hf : ∀ a b, f a b = a ∨ f a b = b) (a : α) (as : List α) :
    as.foldl f a ∈ a :: as := by
  induction as generalizing a with
  | nil => exact mem_cons_self
  | cons b _ ih =>
    rcases mem_cons.1 (ih (f a b)) with hfirst | hrest
    · rw [foldl_cons, hfirst]
      rcases hf a b with hab | hab <;> simp [hab]
    · exact mem_cons_of_mem _ (mem_cons_of_mem _ hrest)

theorem map_update_of_notMem [DecidableEq α] {a : α} {as : List α} (h : a ∉ as) (f : α → β)
    (b : β) : as.map (Function.update f a b) = as.map f :=
  map_congr_left fun _ hmem => Function.update_of_ne (ne_of_mem_of_not_mem hmem h) b f

section Turn

variable {outs turn : Nat} (hturn : turn < outs) (more : List α)

include hturn

/-- What only one of several outputs gets is all that they get. -/
theorem flatMap_range_ite :
    ((List.range outs).flatMap fun i => if i = turn then more else []) = more := by
  induction outs with
  | zero => omega
  | succ outs ih =>
    rw [range_succ, flatMap_append, flatMap_singleton]
    by_cases hlast : outs = turn
    · have hfront : ((List.range outs).flatMap fun i => if i = turn then more else []) = [] := by
        rw [flatMap_eq_nil_iff]
        intro i hi
        exact if_neg (by have := mem_range.1 hi; omega)
      rw [hfront, if_pos hlast, nil_append]
    · rw [ih (by omega), if_neg hlast, append_nil]

/-- What one of several outputs gets first can as well be put in front of all of them. -/
theorem flatMap_range_append_perm (f : Nat → List α) :
    ((List.range outs).flatMap fun i => (if i = turn then more else []) ++ f i).Perm
      (more ++ (List.range outs).flatMap f) := by
  have hperm := flatMap_append_perm (List.range outs) (fun i => if i = turn then more else []) f
  rw [flatMap_range_ite hturn] at hperm
  exact hperm.symm

end Turn

section Cutting

variable [BEq α] [LawfulBEq α] {a : α} {as before after : List α}

/-- A list is cut in front of the first occurrence of an element. -/
theorem span_append_cons (h : a ∉ before) :
    (before ++ a :: after).span (· != a) = (before, a :: after) := by
  have hpos : ∀ b ∈ before, (b != a) = true := fun b hb => bne_iff_ne.2 fun heq => h (heq ▸ hb)
  rw [span_eq_takeWhile_dropWhile, takeWhile_append_of_pos hpos, dropWhile_append_of_pos hpos]
  simp

theorem span_of_notMem (h : a ∉ as) : as.span (· != a) = (as, []) := by
  have hpos : ∀ b ∈ as, (b != a) = true := fun b hb => bne_iff_ne.2 fun heq => h (heq ▸ hb)
  rw [span_eq_takeWhile_dropWhile, takeWhile_eq_self_iff.2 hpos, dropWhile_eq_nil_iff.2 hpos]

end Cutting

end ShellFlow
