import ShellFlow.Fault

/-!
# Supplies of fresh names

Node numbers, channel directories and scratch files are numbered in the order in which they are
asked for.  A failed operation has still used up what it asked for before it failed, so the counters
live under the failure.
-/

namespace ShellFlow

/-- An order in which the members of sets of numbers are listed.  Sets have none of their own. -/
structure SetOrder where
  list : List Int → List Int
  perm : ∀ ids, (list ids).Perm ids

/-- Sets are listed in ascending order. -/
def SetOrder.ascending : SetOrder where
  list ids := ids.mergeSort
  perm _ := List.mergeSort_perm _ _

instance : Inhabited SetOrder := ⟨.ascending⟩

/-- Counters for fresh names, and the order in which sets are listed. -/
structure Supply where
  nextNode : Nat := 0
  /-- How many unique names were drawn. -/
  drawn : Nat := 0
  /-- How many scratch files were made. -/
  scratch : Nat := 0
  order : SetOrder := .ascending
  deriving Inhabited

/-- Computations that draw from a supply and may fail. -/
abbrev Build (α : Type) := ExceptT Fault (StateM Supply) α

namespace Build

/-- A computation that draws nothing. -/
def lift {α : Type} (x : Except Fault α) : Build α :=
  match x with
  | .ok a => pure a
  | .error e => throw e

def outcome {α : Type} (x : Build α) (s : Supply) : Except Fault α × Supply :=
  Id.run (StateT.run (ExceptT.run x) s)

def freshNode : Build Int := do
  let s ← get
  set { s with nextNode := s.nextNode + 1 }
  return s.nextNode

/-- The next unique number, counted from one. -/
def freshUnique : Build Nat := do
  let s ← get
  set { s with drawn := s.drawn + 1 }
  return s.drawn + 1

/-- The next scratch file number, counted from one. -/
def freshScratch : Build Nat := do
  let s ← get
  set { s with scratch := s.scratch + 1 }
  return s.scratch + 1

/-- Fails unless a requirement holds. -/
def require (b : Bool) : Build Unit := if b then pure () else throw .broken

end Build

/-- Fails unless a requirement holds. -/
def require (b : Bool) : Except Fault Unit := if b then .ok () else .error .broken

namespace Supply

/-- `n` in lower-case hexadecimal digits, at least `width` of them. -/
def hex (width n : Nat) : String :=
  let ds := Nat.toDigits 16 n
  String.ofList (List.replicate (width - ds.length) '0' ++ ds)

/-- A unique number as 32 digits. -/
def hex32 (n : Nat) : String := hex 32 n

/-- The same with dashes behind the digits eight, twelve, sixteen and twenty. -/
def dashed (n : Nat) : String :=
  let digits := (hex32 n).toList
  let part (start count : Nat) : String := String.ofList ((digits.drop start).take count)
  "-".intercalate [part 0 8, part 8 4, part 12 4, part 16 4, part 20 12]

end Supply

end ShellFlow
