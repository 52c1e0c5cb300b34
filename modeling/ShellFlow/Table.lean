/-!
# Insertion-ordered tables

A finite map that remembers the order in which its keys first came.  Everything that is listed to a
reader (nodes and edges of a graph, access modes, measured widths) is listed in that order.
-/

namespace ShellFlow

universe u v

/-- Pairs of key and value in order of first insertion. -/
structure Table (κ : Type u) (α : Type v) where
  entries : List (κ × α)
  deriving Repr

namespace Table

variable {κ : Type u} {α : Type v} [DecidableEq κ] (t u : Table κ α)

instance : Inhabited (Table κ α) := ⟨⟨[]⟩⟩

def empty : Table κ α := ⟨[]⟩

/-- Keys in order of first insertion. -/
def keys : List κ := t.entries.map (·.1)

def values : List α := t.entries.map (·.2)

def size : Nat := t.entries.length

/-- First value filed under `k` in a list of pairs. -/
def lookup (k : κ) : List (κ × α) → Option α
  | [] => none
  | (j, a) :: rest => if j = k then some a else lookup k rest

/-- The value filed under `k`. -/
def get? (k : κ) : Option α := lookup k t.entries

def contains (k : κ) : Bool := (t.get? k).isSome

/-- Pairs with `a` filed under `k`: in place if `k` is present, at the end otherwise. -/
def put (k : κ) (a : α) : List (κ × α) → List (κ × α)
  | [] => [(k, a)]
  | (j, b) :: rest => if j = k then (k, a) :: rest else (j, b) :: put k a rest

/-- The table with `a` filed under `k`. -/
def insert (k : κ) (a : α) : Table κ α := ⟨put k a t.entries⟩

/-- The table without the key `k`. -/
def erase (k : κ) : Table κ α := ⟨t.entries.filter fun e => !decide (e.1 = k)⟩

/-- The table made of pairs, later ones winning. -/
def ofList (pairs : List (κ × α)) : Table κ α :=
  pairs.foldl (fun t e => t.insert e.1 e.2) empty

/-- Every entry of `t`, then every entry of `u`, those of `u` winning. -/
def merge : Table κ α :=
  u.entries.foldl (fun acc e => acc.insert e.1 e.2) t

theorem lookup_put_self (k : κ) (a : α) (es : List (κ × α)) : lookup k (put k a es) = some a := by
  induction es with
  | nil => simp [put, lookup]
  | cons e es ih =>
    obtain ⟨j, b⟩ := e
    by_cases h : j = k <;> simp [put, lookup, h, ih]

theorem lookup_put_of_ne {j k : κ} (h : j ≠ k) (a : α) (es : List (κ × α)) :
    lookup j (put k a es) = lookup j es := by
  induction es with
  | nil => simp [put, lookup, Ne.symm h]
  | cons e es ih =>
    obtain ⟨i, b⟩ := e
    by_cases hi : i = k
    · subst hi
      simp [put, lookup, Ne.symm h]
    · simp [put, lookup, hi, ih]

@[simp] theorem get?_empty (k : κ) : (empty : Table κ α).get? k = none := rfl

@[simp] theorem get?_insert_self (k : κ) (a : α) : (t.insert k a).get? k = some a :=
    lookup_put_self k a t.entries

theorem get?_insert_of_ne {j k : κ} (h : j ≠ k) (a : α) :
    (t.insert k a).get? j = t.get? j := lookup_put_of_ne h a t.entries

theorem mem_keys_of_lookup {k : κ} {a : α} {es : List (κ × α)} (h : lookup k es = some a) :
    k ∈ es.map (·.1) := by
  induction es with
  | nil => simp [lookup] at h
  | cons e es ih =>
    obtain ⟨j, b⟩ := e
    by_cases hj : j = k
    · simp [hj]
    · simp only [lookup, hj, if_false] at h
      simp [ih h]

theorem mem_keys_of_get? {t : Table κ α} {k : κ} {a : α} (h : t.get? k = some a) : k ∈ t.keys :=
  mem_keys_of_lookup h

theorem get?_insert (j k : κ) (a : α) :
    (t.insert k a).get? j = if j = k then some a else t.get? j := by
  by_cases h : j = k
  · subst h; simp
  · simp [h, get?_insert_of_ne t h a]

end Table

end ShellFlow
