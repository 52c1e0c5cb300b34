import ShellFlow.Table

/-!
# Looking up in tables

What inserting, erasing, updating and joining do to the keys, the entries and the values of a table.
-/

namespace ShellFlow

open List

universe u v

namespace Table

variable {κ : Type u} {α : Type v} [DecidableEq κ] {t : Table κ α} {j k : κ} {a : α}
  (es : List (κ × α))

theorem lookup_eq_none_iff {es : List (κ × α)} : lookup k es = none ↔ k ∉ es.map (·.1) := by
  induction es with
  | nil => simp [lookup]
  | cons e _ ih =>
    obtain ⟨i, b⟩ := e
    by_cases h : i = k
    · simp [lookup, h]
    · simp [lookup, h, ih, Ne.symm h]

theorem get?_eq_none_iff : t.get? k = none ↔ k ∉ t.keys := lookup_eq_none_iff

theorem contains_iff_mem_keys : t.contains k ↔ k ∈ t.keys := by
  rw [contains, Option.isSome_iff_ne_none, ne_eq, get?_eq_none_iff, Decidable.not_not]

omit [DecidableEq κ] in
theorem mem_keys_iff : k ∈ t.keys ↔ ∃ b, (k, b) ∈ t.entries := by
  simp [keys]

theorem mem_of_lookup {es : List (κ × α)} (h : lookup k es = some a) : (k, a) ∈ es := by
  induction es with
  | nil => simp [lookup] at h
  | cons e es ih =>
    obtain ⟨i, b⟩ := e
    by_cases hi : i = k
    · simp_all [lookup]
    · simp only [lookup, if_neg hi] at h
      exact mem_cons_of_mem _ (ih h)

theorem mem_entries_of_get? (h : t.get? k = some a) : (k, a) ∈ t.entries := mem_of_lookup h

theorem lookup_filter_ne (j k : κ) :
    lookup j (es.filter fun e => !decide (e.1 = k)) = if j = k then none else lookup j es := by
  induction es with
  | nil => simp [lookup]
  | cons e es ih =>
    obtain ⟨i, b⟩ := e
    by_cases hi : i = k <;> by_cases hj : i = j <;> simp_all [lookup]

theorem get?_erase (t : Table κ α) (j k : κ) :
    (t.erase k).get? j = if j = k then none else t.get? j :=
  lookup_filter_ne t.entries j k

theorem put_of_notMem {es : List (κ × α)} (h : k ∉ es.map (·.1)) (a : α) :
    put k a es = es ++ [(k, a)] := by
  induction es with
  | nil => rfl
  | cons e _ ih =>
    obtain ⟨i, b⟩ := e
    simp only [map_cons, mem_cons, not_or] at h
    rw [put, if_neg (Ne.symm h.1), ih h.2, cons_append]

theorem put_append_cons {front back : List (κ × α)} (h : k ∉ front.map (·.1)) (a b : α) :
    put k a (front ++ (k, b) :: back) = front ++ (k, a) :: back := by
  induction front with
  | nil => exact if_pos rfl
  | cons e _ ih =>
    obtain ⟨i, c⟩ := e
    simp only [map_cons, mem_cons, not_or] at h
    rw [cons_append, put, if_neg (Ne.symm h.1), ih h.2, cons_append]

theorem entries_insert_of_notMem (h : k ∉ t.keys) (a : α) :
    (t.insert k a).entries = t.entries ++ [(k, a)] :=
  put_of_notMem h a

theorem entries_foldl_insert (t : Table κ α) (h : ((t.entries ++ es).map (·.1)).Nodup) :
    (es.foldl (fun t e => t.insert e.1 e.2) t).entries = t.entries ++ es := by
  induction es generalizing t with
  | nil => simp
  | cons e _ ih =>
    have hnew : e.1 ∉ t.keys := by
      intro hmem
      rw [map_append, map_cons, nodup_append] at h
      exact h.2.2 e.1 hmem e.1 mem_cons_self rfl
    have hput : (t.insert e.1 e.2).entries = t.entries ++ [e] := entries_insert_of_notMem hnew e.2
    rw [foldl_cons, ih (t.insert e.1 e.2) (by simpa [hput] using h), hput]
    simp

/-- A table made of pairs with different keys holds these pairs in their order. -/
theorem entries_ofList {es : List (κ × α)} (h : (es.map (·.1)).Nodup) : (ofList es).entries = es :=
  entries_foldl_insert es empty h

theorem map_fst_put (k : κ) (a : α) :
    (put k a es).map (·.1) = if k ∈ es.map (·.1) then es.map (·.1) else es.map (·.1) ++ [k] := by
  by_cases h : k ∈ es.map (·.1)
  · rw [if_pos h]
    induction es with
    | nil => cases h
    | cons e es ih =>
      obtain ⟨i, b⟩ := e
      by_cases hi : i = k
      · simp [put, hi]
      · have hmem : k ∈ es.map (·.1) := by simpa [Ne.symm hi] using h
        simp only [put, if_neg hi, map_cons, ih hmem]
  · rw [if_neg h, put_of_notMem h, map_append]
    rfl

theorem keys_insert (t : Table κ α) (k : κ) (a : α) :
    (t.insert k a).keys = if k ∈ t.keys then t.keys else t.keys ++ [k] :=
  map_fst_put t.entries k a

theorem mem_keys_insert : j ∈ (t.insert k a).keys ↔ j = k ∨ j ∈ t.keys := by
  rw [keys_insert]
  split
  · next h =>
    constructor
    · exact Or.inr
    · rintro (rfl | hj)
      · exact h
      · exact hj
  · rw [mem_append, mem_singleton, or_comm]

theorem nodup_keys_insert (h : t.keys.Nodup) (k : κ) (a : α) : (t.insert k a).keys.Nodup := by
  rw [keys_insert]
  split
  · exact h
  · next hk => simpa [nodup_append] using ⟨h, fun j hj heq => hk (heq ▸ hj)⟩

theorem nodup_keys_erase (h : t.keys.Nodup) (k : κ) : (t.erase k).keys.Nodup :=
  (filter_sublist.map _).nodup h

theorem mem_put {es : List (κ × α)} {e : κ × α} (h : e ∈ put k a es) : e = (k, a) ∨ e ∈ es := by
  induction es with
  | nil => simpa [put] using h
  | cons f _ ih =>
    obtain ⟨i, b⟩ := f
    by_cases hi : i = k
    · simp only [put, if_pos hi, mem_cons] at h
      rcases h with rfl | h
      · exact .inl rfl
      · exact .inr (mem_cons_of_mem _ h)
    · simp only [put, if_neg hi, mem_cons] at h
      rcases h with rfl | h
      · exact .inr mem_cons_self
      · exact (ih h).imp id (mem_cons_of_mem _)

theorem mem_values_insert {b : α} (h : b ∈ (t.insert k a).values) : b = a ∨ b ∈ t.values := by
  obtain ⟨e, he, rfl⟩ := mem_map.1 h
  rcases mem_put he with rfl | he
  · exact .inl rfl
  · exact .inr (mem_map_of_mem he)

theorem mem_values_of_get? (h : t.get? k = some a) : a ∈ t.values :=
  mem_map_of_mem (mem_entries_of_get? h)

theorem lookup_of_mem {es : List (κ × α)} (hnodup : (es.map (·.1)).Nodup) (h : (k, a) ∈ es) :
    lookup k es = some a := by
  induction es with
  | nil => cases h
  | cons e _ ih =>
    obtain ⟨i, b⟩ := e
    rw [map_cons, nodup_cons] at hnodup
    rcases mem_cons.1 h with heq | h
    · cases heq
      simp [lookup]
    · have hne : i ≠ k := by
        rintro rfl
        exact hnodup.1 (mem_map.2 ⟨_, h, rfl⟩)
      rw [lookup, if_neg hne, ih hnodup.2 h]

/-- If the keys differ, every entry is found. -/
theorem get?_of_mem (hnodup : t.keys.Nodup) (h : (k, a) ∈ t.entries) : t.get? k = some a :=
  lookup_of_mem hnodup h

/-! ### Changing one value, and putting tables together -/

/-- The table with the value of one key changed in its place. -/
def update (t : Table κ α) (k : κ) (f : α → α) : Table κ α :=
  ⟨t.entries.map fun e => (e.1, if e.1 = k then f e.2 else e.2)⟩

omit [DecidableEq κ] in
/-- One table behind the other. -/
def append (t u : Table κ α) : Table κ α := ⟨t.entries ++ u.entries⟩

@[simp] theorem keys_update (t : Table κ α) (k : κ) (f : α → α) : (t.update k f).keys = t.keys := by
  simp [keys, update, Function.comp_def]

omit [DecidableEq κ] in
@[simp] theorem keys_append (t u : Table κ α) : (t.append u).keys = t.keys ++ u.keys :=
  map_append

theorem get?_update (t : Table κ α) (j k : κ) (f : α → α) :
    (t.update k f).get? j = if j = k then (t.get? j).map f else t.get? j := by
  obtain ⟨es⟩ := t
  show lookup j (es.map fun e => (e.1, if e.1 = k then f e.2 else e.2)) =
    if j = k then (lookup j es).map f else lookup j es
  induction es with
  | nil => simp [lookup]
  | cons e _ ih =>
    obtain ⟨i, b⟩ := e
    by_cases hi : i = j
    · subst hi
      by_cases hk : i = k <;> simp [lookup, hk]
    · simpa [lookup, hi] using ih

theorem get?_append (t u : Table κ α) (j : κ) : (t.append u).get? j = (t.get? j).or (u.get? j) := by
  obtain ⟨es⟩ := t
  show lookup j (es ++ u.entries) = (lookup j es).or (lookup j u.entries)
  induction es with
  | nil => simp [lookup]
  | cons e _ ih =>
    obtain ⟨i, b⟩ := e
    by_cases hi : i = j <;> simp [lookup, hi, ih]

theorem update_of_notMem (h : k ∉ t.keys) (f : α → α) : t.update k f = t := by
  have hkept : ∀ e ∈ t.entries, (e.1, if e.1 = k then f e.2 else e.2) = id e := by
    intro e he
    rw [if_neg fun heq => h (mem_map.2 ⟨e, he, heq⟩)]
    rfl
  exact congrArg Table.mk ((map_congr_left hkept).trans (map_id _))

/-- A value that is put in the place of another. -/
theorem insert_eq_update (hnodup : t.keys.Nodup) (h : t.get? k = some a) (f : α → α) :
    t.insert k (f a) = t.update k f := by
  obtain ⟨es⟩ := t
  have hgo : put k (f a) es = es.map fun e => (e.1, if e.1 = k then f e.2 else e.2) := by
    change (es.map (·.1)).Nodup at hnodup
    change lookup k es = some a at h
    induction es with
    | nil => cases h
    | cons e es ih =>
      obtain ⟨i, b⟩ := e
      rw [map_cons, nodup_cons] at hnodup
      by_cases hi : i = k
      · subst hi
        have hb : b = a := by simpa [lookup] using h
        have hrest : es.map (fun e => (e.1, if e.1 = i then f e.2 else e.2)) = es :=
          congrArg Table.entries (update_of_notMem (t := ⟨es⟩) hnodup.1 f)
        simp [put, hb, hrest]
      · have hrest : lookup k es = some a := by simpa [lookup, hi] using h
        simp only [put, if_neg hi, map_cons, ih hnodup.2 hrest]
  exact congrArg Table.mk hgo

theorem keys_erase (t : Table κ α) (k : κ) : (t.erase k).keys = t.keys.filter (· ≠ k) := by
  simp [keys, erase, filter_map, Function.comp_def]

theorem mem_keys_merge {u : Table κ α} (h : k ∈ t.keys) : k ∈ (t.merge u).keys := by
  unfold merge
  induction u.entries generalizing t with
  | nil => exact h
  | cons _ _ ih => exact ih (mem_keys_insert.2 (.inr h))

/-- Tables with different keys are put one behind the other. -/
theorem merge_eq_append {u : Table κ α} (h : (t.keys ++ u.keys).Nodup) : t.merge u = t.append u :=
  congrArg Table.mk (entries_foldl_insert u.entries t (by simpa [keys] using h))

theorem update_append (t u : Table κ α) (k : κ) (f : α → α) :
    (t.append u).update k f = (t.update k f).append (u.update k f) :=
  congrArg Table.mk map_append

theorem erase_append (t u : Table κ α) (k : κ) :
    (t.append u).erase k = (t.erase k).append (u.erase k) :=
  congrArg Table.mk (filter_append ..)

omit [DecidableEq κ] in
theorem append_assoc (t u v : Table κ α) : (t.append u).append v = t.append (u.append v) :=
  congrArg Table.mk (List.append_assoc ..)

theorem erase_of_notMem (h : k ∉ t.keys) : t.erase k = t := by
  refine congrArg Table.mk (filter_eq_self.2 fun e he => ?_)
  simpa using fun heq : e.1 = k => h (mem_map.2 ⟨e, he, heq⟩)

theorem erase_cons_self {es : List (κ × α)} (h : k ∉ es.map (·.1)) :
    (⟨(k, a) :: es⟩ : Table κ α).erase k = ⟨es⟩ := by
  have hrest : (⟨es⟩ : Table κ α).erase k = ⟨es⟩ := erase_of_notMem h
  rw [← hrest]
  simp [erase]

theorem erase_update (t : Table κ α) (j k : κ) (f : α → α) :
    (t.update k f).erase j = (t.erase j).update k f :=
  congrArg Table.mk filter_map

end Table

end ShellFlow
