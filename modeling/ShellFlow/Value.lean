import ShellFlow.Decimal
import ShellFlow.Text.Quoted

/-!
# Plain data

Values that the library carries without interpreting them: the payload of a tree whose tag is not
known, the parts of a variable reference, the user of a tilde, a literal that stands where an
operand was expected.
-/

namespace ShellFlow

/-- Uninterpreted data. -/
inductive Value where
  | null
  | bool (b : Bool)
  | int (n : Int)
  | decimal (d : Decimal)
  | text (s : String)
  | list (items : List Value)
  | record (fields : List (String × Value))
  /-- What could not be found out, and why. -/
  | unavailable (cause : Fault)
  deriving Inhabited, Repr

namespace Value

instance (n : Nat) : OfNat Value n := ⟨.int n⟩

mutual

/-- Structural comparison of two values. -/
def beq : Value → Value → Bool
  | null, null => true
  | bool a, bool b => a == b
  | int a, int b => a == b
  | decimal a, decimal b => a == b
  | text a, text b => a == b
  | list a, list b => beqList a b
  | record a, record b => beqFields a b
  | unavailable a, unavailable b => a == b
  | _, _ => false

/-- Comparison item by item. -/
def beqList : List Value → List Value → Bool
  | [], [] => true
  | a :: as, b :: bs => beq a b && beqList as bs
  | _, _ => false

/-- Comparison field by field, names and order included. -/
def beqFields : List (String × Value) → List (String × Value) → Bool
  | [], [] => true
  | (m, a) :: as, (n, b) :: bs => m == n && (beq a b && beqFields as bs)
  | _, _ => false

end

mutual

theorem beq_iff_eq : ∀ a b : Value, beq a b ↔ a = b
  | null, b => by cases b <;> simp [beq]
  | bool x, b => by cases b <;> simp [beq]
  | int x, b => by cases b <;> simp [beq]
  | decimal x, b => by cases b <;> simp [beq]
  | text x, b => by cases b <;> simp [beq]
  | list x, b => by cases b <;> simp [beq, beqList_iff_eq x]
  | record x, b => by cases b <;> simp [beq, beqFields_iff_eq x]
  | unavailable x, b => by cases b <;> simp [beq]

theorem beqList_iff_eq : ∀ as bs : List Value, beqList as bs ↔ as = bs
  | [], bs => by cases bs <;> simp [beqList]
  | a :: as, bs => by cases bs <;> simp [beqList, beq_iff_eq a, beqList_iff_eq as]

theorem beqFields_iff_eq : ∀ as bs : List (String × Value), beqFields as bs ↔ as = bs
  | [], bs => by cases bs <;> simp [beqFields]
  | (m, a) :: as, bs => by
    cases bs with
    | nil => simp [beqFields]
    | cons b bs =>
      obtain ⟨n, b⟩ := b
      simp [beqFields, beq_iff_eq a, beqFields_iff_eq as, and_assoc]

end

instance : BEq Value := ⟨beq⟩

instance : LawfulBEq Value where
  eq_of_beq {a b} h := (beq_iff_eq a b).1 h
  rfl {a} := (beq_iff_eq a a).2 rfl

instance : DecidableEq Value := fun a b =>
  decidable_of_iff (beq a b = true) (beq_iff_eq a b)

/-- Whether a value is a number that has the value of a whole number. -/
def sameInt (n : Int) : Value → Bool
  | bool b => decide (n = if b then 1 else 0)
  | int m => decide (n = m)
  | decimal d => d.sameInt n
  | _ => false

mutual

def same : Value → Value → Bool
  | null, v => v == null
  | bool b, v => v.sameInt (if b then 1 else 0)
  | int n, v => v.sameInt n
  | decimal d, v =>
    match v with
    | decimal e => d.same e
    | int n => d.sameInt n
    | bool b => d.sameInt (if b then 1 else 0)
    | _ => false
  | text a, v => v == text a
  | list a, v =>
    match v with
    | list b => sameItems a b
    | _ => false
  | record a, v =>
    match v with
    | record b => decide (a.length = b.length) && sameFields a b
    | _ => false
  | unavailable a, v => v == unavailable a

def sameItems : List Value → List Value → Bool
  | [], bs => bs.isEmpty
  | a :: as, bs =>
    match bs with
    | b :: bs => same a b && sameItems as bs
    | [] => false

/-- Whether fields are among others, with values that mean the same. -/
def sameFields : List (String × Value) → List (String × Value) → Bool
  | [], _ => true
  | (name, a) :: as, bs =>
    ((bs.find? fun f => f.1 == name).any fun f => same a f.2) && sameFields as bs

end

mutual

def inspect : Value → String
  | null => "None"
  | bool true => "True"
  | bool false => "False"
  | int n => toString n
  | decimal d => d.text
  | text s => Text.quotation s
  | list items => "[" ++ ", ".intercalate (inspectItems items) ++ "]"
  | record fields => "\x7b" ++ ", ".intercalate (inspectFields fields) ++ "\x7d"
  | unavailable _ => ""

def inspectItems : List Value → List String
  | [] => []
  | v :: vs => inspect v :: inspectItems vs

/-- The texts of some fields, each with its name. -/
def inspectFields : List (String × Value) → List String
  | [] => []
  | (name, v) :: rest => (Text.quotation name ++ ": " ++ inspect v) :: inspectFields rest

end

/-- The text of a value inside a longer message: a text is itself. -/
def display : Value → String
  | text s => s
  | v => v.inspect

def ofCodes (cs : List Nat) : Value := text (Text.ofCodes cs)

/-- The values of a record under a name; nothing if there is none. -/
def get (v : Value) (name : String) : Value :=
  match v with
  | record fields => (fields.find? fun f => f.1 == name).elim null (·.2)
  | _ => null

def has (v : Value) (name : String) : Bool :=
  match v with
  | record fields => fields.any fun f => f.1 == name
  | _ => false

/-- A number; a truth value counts as 0 or 1. -/
def asInt : Value → Except Fault Int
  | int n => .ok n
  | bool b => .ok (if b then 1 else 0)
  | _ => .error .wrongKind

/-- A number with a point; a whole number must not be too large for one. -/
def asDecimal : Value → Except Fault Decimal
  | decimal d => .ok d
  | v => do
    match Decimal.ofInt (← v.asInt) with
    | .infinite _ => .error .tooLarge
    | d => .ok d

/-- Whether a number is a whole number or more. -/
def atLeast (v : Value) (n : Int) : Except Fault Bool :=
  match v with
  | decimal .undefined => .ok false
  | decimal d => .ok !(d.less (.exact n))
  | v => do return decide (n ≤ (← v.asInt))

def asText : Value → Except Fault String
  | text s => .ok s
  | _ => .error .wrongKind

/-- A text, of which something is asked that only a text has. -/
def ownText : Value → Except Fault String
  | text s => .ok s
  | _ => .error .lacking

def asList : Value → Except Fault (List Value)
  | list xs => .ok xs
  | _ => .error .wrongKind

/-- The items of a list; nothing has none. -/
def items : Value → List Value
  | list xs => xs
  | _ => []

def asOptional {α : Type} (read : Value → Except Fault α) : Value → Except Fault (Option α)
  | null => .ok none
  | v => do return some (← read v)

def asListOf {α : Type} (read : Value → Except Fault α) (v : Value) : Except Fault (List α) := do
  (← v.asList).mapM read

/-- A number, with one to use where there is none. -/
def intD (v : Value) (default : Int) : Int :=
  match v with
  | int n => n
  | _ => default

/-- A text, with one to use where there is none. -/
def textD (v : Value) (default : String) : String :=
  match v with
  | text s => s
  | _ => default

/-- Whether a value counts as true: nothing, zero and the empty texts, lists and records do not. -/
def truthy : Value → Bool
  | null => false
  | bool b => b
  | int n => n != 0
  | decimal d => !d.isZero
  | text s => s != ""
  | list xs => !xs.isEmpty
  | record fs => !fs.isEmpty
  | unavailable _ => false

def texts (ss : List String) : Value := list (ss.map text)

def ints (ns : List Int) : Value := list (ns.map int)

/-- A text that may be unavailable, as a value. -/
def ofText : Except Fault String → Value
  | .ok s => text s
  | .error e => unavailable e

/-- A setting as a value: the empty list if it was given without one. -/
def ofSetting {α : Type} (f : α → Value) : Option α → Value
  | none => list []
  | some a => f a

/-- A value that may be absent, as a value. -/
def ofOption {α : Type} (f : α → Value) : Option α → Value
  | none => null
  | some a => f a

end Value

end ShellFlow
