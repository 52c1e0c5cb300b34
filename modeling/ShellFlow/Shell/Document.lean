import ShellFlow.Shell.Tree

/-!
# Trees as data

Words and trees written as plain data: a tag and what belongs to it.  A word may be given as a text,
and a list that holds only plain characters is written as one.
-/

namespace ShellFlow

namespace Connective

def tag : Connective → String
  | semi => "Semi"
  | and => "And"
  | or => "Or"

def ofTag? (tag : String) : Option Connective :=
  [semi, and, or].find? (·.tag == tag)

end Connective

namespace Scope

def tag : Scope → String
  | redirected => "Redir"
  | subshell => "Subshell"
  | background => "Background"

def ofTag? (tag : String) : Option Scope :=
  [redirected, subshell, background].find? (·.tag == tag)

end Scope

namespace RedirectionKind

def tag : RedirectionKind → String
  | file => "File"
  | duplicate => "Dup"
  | document => "Heredoc"

def ofTag? (tag : String) : Option RedirectionKind :=
  [file, duplicate, document].find? (·.tag == tag)

end RedirectionKind

mutual

def Part.ofValue (v : Value) : Except Fault Part :=
  match v with
  | .list [.text "C", .int n] => .ok (.char n)
  | .list [.text "E", .int n] => .ok (.escaped n)
  | .list [.text "Q", w] => do return .quoted (← Word.ofValue w)
  | .list [.text "V", .list content] => .ok (.reference content)
  | .list [.text "T", user] => .ok (.tilde user)
  | .list [.text "A", w] => do return .arith (← Word.ofValue w)
  | .list [.text "B", t] => do return .substitution (← Tree.ofValue t)
  | v => .ok (.other v)

def Part.ofValues : List Value → Except Fault (List Part)
  | [] => .ok []
  | v :: vs => do return (← Part.ofValue v) :: (← Part.ofValues vs)

def Word.ofValue : Value → Except Fault (List Part)
  | .text s => .ok (Word.ofString s)
  | .list vs => Part.ofValues vs
  | _ => .error .wrongKind

def Word.ofValues : List Value → Except Fault (List (List Part))
  | [] => .ok []
  | v :: vs => do return (← Word.ofValue v) :: (← Word.ofValues vs)

def Redirection.ofValue (v : Value) : Except Fault Redirection :=
  match v with
  | .list [.text kind, mode, fd, w] =>
    match RedirectionKind.ofTag? kind with
    | some kind => do return .mk kind mode fd (← Word.ofValue w)
    | none => .ok (.other v)
  | v => .ok (.other v)

def Redirection.ofValues : List Value → Except Fault (List Redirection)
  | [] => .ok []
  | v :: vs => do return (← Redirection.ofValue v) :: (← Redirection.ofValues vs)

def Assignment.ofValue : Value → Except Fault Assignment
  | .list [.text name, w] => do return .mk name (← Word.ofValue w)
  | _ => .error .wrongKind

def Assignment.ofValues : List Value → Except Fault (List Assignment)
  | [] => .ok []
  | v :: vs => do return (← Assignment.ofValue v) :: (← Assignment.ofValues vs)

def Arm.ofFields : List (String × Value) → Except Fault (List (String × Value) × Option Tree)
  | [] => .ok ([], none)
  | (name, v) :: rest => do
    let (fields, body) ← Arm.ofFields rest
    if name = "cbody" then return (fields, some (← Tree.ofValue v))
    else return ((name, v) :: fields, body)

def Arm.ofValues : List Value → Except Fault (List Arm)
  | [] => .ok []
  | .record fields :: vs => do
    match ← Arm.ofFields fields with
    | (fields, some body) => return .mk fields body :: (← Arm.ofValues vs)
    | (_, none) => .error (.missing "cbody")
  | _ :: _ => .error .wrongKind

def Tree.ofValue (v : Value) : Except Fault Tree :=
  match v with
  | .list [.text "Command", .list [line, .list assignments, .list words, .list redirections]] => do
    return .command line (← Assignment.ofValues assignments) (← Word.ofValues words)
      (← Redirection.ofValues redirections)
  | .list [.text "Pipe", .list [background, .list items]] => do
    return .pipe background (← Tree.ofValues items)
  | .list [.text "Not", .list [t]] => do return .negate (← Tree.ofValue t)
  | .list [.text "Defun", .list [line, name, t]] => do
    return .define line name (← Tree.ofValue t)
  | .list [.text "For", .list [line, w, t, name]] => do
    return .forEach line (← Word.ofValue w) (← Tree.ofValue t) name
  | .list [.text "While", .list [t, b]] => do return .whileDo (← Tree.ofValue t) (← Tree.ofValue b)
  | .list [.text "If", .list [t, y, n]] => do
    return .branch (← Tree.ofValue t) (← Tree.ofValue y) (← Tree.ofValue n)
  | .list [.text "Case", .list [.list arms]] => do return .select (← Arm.ofValues arms)
  | .list [.text tag, .list [a, b]] =>
    match Connective.ofTag? tag with
    | some op => do return .join op (← Tree.ofValue a) (← Tree.ofValue b)
    | none => .ok (.generic tag (.list [a, b]))
  | .list [.text tag, .list [line, t, .list redirections]] =>
    match Scope.ofTag? tag with
    | some kind => do
      return .scope kind line (← Tree.ofValue t) (← Redirection.ofValues redirections)
    | none => .ok (.generic tag (.list [line, t, .list redirections]))
  | .list [.text tag, payload] => .ok (.generic tag payload)
  | _ => .error .wrongKind

def Tree.ofValues : List Value → Except Fault (List Tree)
  | [] => .ok []
  | v :: vs => do return (← Tree.ofValue v) :: (← Tree.ofValues vs)

end

def tagged (tag : String) (payload : Value) : Value := .list [.text tag, payload]

section Writing

variable (graph : Outline → Value)

mutual

def Part.toValue : Part → Value
  | .char c => tagged "C" (.int c)
  | .escaped c => tagged "E" (.int c)
  | .quoted w => tagged "Q" (.list (Word.toValues w))
  | .reference content => tagged "V" (.list content)
  | .tilde user => tagged "T" user
  | .arith w => tagged "A" (.list (Word.toValues w))
  | .substitution t => tagged "B" (Tree.toValue t)
  | .other v => v

def Word.toValues : List Part → List Value
  | [] => []
  | p :: ps => Part.toValue p :: Word.toValues ps

def Word.listValues : List (List Part) → List Value
  | [] => []
  | w :: ws => .list (Word.toValues w) :: Word.listValues ws

def Assignment.toValues : List Assignment → List Value
  | [] => []
  | .mk name w :: rest =>
    .list [.text name, .list (Word.toValues w)] :: Assignment.toValues rest

def Redirection.toValues : List Redirection → List Value
  | [] => []
  | .mk kind mode fd w :: rest =>
    tagged kind.tag (.list [mode, fd, .list (Word.toValues w)]) ::
      Redirection.toValues rest
  | .other v :: rest => v :: Redirection.toValues rest

def Arm.toValues : List Arm → List Value
  | [] => []
  | .mk fields body :: rest =>
    .record (("cbody", Tree.toValue body) :: fields) :: Arm.toValues rest

def Tree.toValue : Tree → Value
  | .command line assignments words redirections =>
    tagged "Command" (.list [line, .list (Assignment.toValues assignments),
      .list (Word.listValues words), .list (Redirection.toValues redirections)])
  | .pipe background items =>
    tagged "Pipe" (.list [background, .list (Tree.toValues items)])
  | .join op l r => tagged op.tag (.list [Tree.toValue l, Tree.toValue r])
  | .negate t => tagged "Not" (.list [Tree.toValue t])
  | .scope kind line t redirections =>
    tagged kind.tag (.list [line, Tree.toValue t, .list (Redirection.toValues redirections)])
  | .define line name t => tagged "Defun" (.list [line, name, Tree.toValue t])
  | .forEach line w t name =>
    tagged "For" (.list [line, .list (Word.toValues w), Tree.toValue t, name])
  | .whileDo t b => tagged "While" (.list [Tree.toValue t, Tree.toValue b])
  | .branch t y n =>
    tagged "If" (.list [Tree.toValue t, Tree.toValue y, Tree.toValue n])
  | .select arms => tagged "Case" (.list [.list (Arm.toValues arms)])
  | .generic tag payload => tagged tag payload
  | .verbatim text => tagged "Unparsed" (.text text)
  | .graph outline => graph outline

def Tree.toValues : List Tree → List Value
  | [] => []
  | t :: ts => Tree.toValue t :: Tree.toValues ts

end

def Word.toValue (w : Word) : Value := .list (Word.toValues graph w)

end Writing

def charCodes? : List Value → Option (List Int)
  | [] => some []
  | .list [.text "C", .int n] :: rest => (charCodes? rest).map (n :: ·)
  | .list [.text "C", .bool b] :: rest => (charCodes? rest).map (b.toInt :: ·)
  | _ => none

/-- A list, as a text if it holds plain characters only and at least one. -/
def compactList (items : List Value) : Except Fault Value :=
  match items, charCodes? items with
  | _ :: _, some codes => do return .text (← Text.ofNumbers codes)
  | _, _ => .ok (.list items)

mutual

/-- Writes lists of plain characters as texts, everywhere inside a value, of which everything must
be available. -/
def Value.compact : Value → Except Fault Value
  | .list items => do compactList (← Value.compactItems items)
  | .record fields => do return .record (← Value.compactFields fields)
  | .unavailable cause => .error cause
  | v => .ok v

def Value.compactItems : List Value → Except Fault (List Value)
  | [] => .ok []
  | v :: vs => do
    let v ← Value.compact v
    let vs ← Value.compactItems vs
    return v :: vs

def Value.compactFields : List (String × Value) → Except Fault (List (String × Value))
  | [] => .ok []
  | (name, v) :: rest => do
    let v ← Value.compact v
    let rest ← Value.compactFields rest
    return (name, v) :: rest

end

end ShellFlow
