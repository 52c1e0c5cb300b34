import ShellFlow.Table
import ShellFlow.Text.Number
import ShellFlow.Value

/-!
# Command lines

Options by name, by a unique beginning of a long name, or in clusters of short names; arguments
behind an equals sign, joined to a short name, or in the next word; positional arguments between
them.

## Design Notes

All words are classified before any of them takes effect, so an ambiguous name fails even behind a
request for help.  A failure is `Fault.exit "2"`; an option that only shows a text is `Fault.exit
"0"`.
-/

namespace ShellFlow

inductive OptionEffect where
  /-- Sets a truth value; takes no argument. -/
  | set (value : Bool)
  | number
  | text
  /-- Takes one of some texts. -/
  | choice (allowed : List String)
  /-- Shows a text and ends the program. -/
  | stop

/-- An option: its names, the setting that it changes, what it does, and the setting without it. -/
structure OptionRule where
  names : List String
  key : String
  effect : OptionEffect
  initial : Value

/-- A positional argument: exactly one word, or as many as there are. -/
structure Positional where
  key : String
  many : Bool

/-- What a program accepts.  Options begin with one of the marks. -/
structure Grammar where
  marks : List Char := ['-']
  options : List OptionRule
  positionals : List Positional := []

/-- A word of a command line, classified. -/
inductive Argument where
  | word (text : String)
  /-- The two dashes that end options. -/
  | dashes
  | option (rule : OptionRule) (name : List Char) (joined : Option (List Char))
  /-- A word that looks like an option and is none. -/
  | unknown (text : String)

/-- The failure for a command line that is not accepted. -/
def badUsage : Fault := .exit "2"

namespace OptionRule

def takesArgument (r : OptionRule) : Bool :=
  match r.effect with
  | .number | .text | .choice _ => true
  | .set _ | .stop => false

def read (r : OptionRule) (argument : String) : Except Fault Value :=
  if argument = "--" then .ok (.list [])
  else
    match r.effect with
    | .number =>
      match Text.readInt argument with
      | some n => .ok (.int n)
      | none => .error badUsage
    | .choice allowed => if allowed.contains argument then .ok (.text argument) else .error badUsage
    | _ => .ok (.text argument)

end OptionRule

namespace Argument

/-- Whether a word is an option or looks like one. -/
def isOption : Argument → Bool
  | option _ _ _ | unknown _ => true
  | word _ | dashes => false

/-- The text of a word; of an option, its name. -/
def text : Argument → String
  | word s | unknown s => s
  | dashes => "--"
  | option _ name _ => String.ofList name

end Argument

/-- Whether only an optional line end is left. -/
def atLineEnd : List Char → Bool
  | [] => true
  | ['\n'] => true
  | _ => false

/-- Whether characters are a negative number: a dash and digits, with or without a point. -/
def isNegativeNumber : List Char → Bool
  | '-' :: cs =>
    let isDigit (c : Char) : Bool := (Text.digit? c).isSome
    match cs.dropWhile isDigit with
    | '.' :: rest =>
      !(rest.takeWhile isDigit).isEmpty && atLineEnd (rest.dropWhile isDigit)
    | rest => !(cs.takeWhile isDigit).isEmpty && atLineEnd rest
  | _ => false

def splitEquals (cs : List Char) : Option (List Char × List Char) :=
  match cs.dropWhile (· != '=') with
  | [] => none
  | _ :: after => some (cs.takeWhile (· != '='), after)

namespace Grammar

def names (g : Grammar) : List (List Char × OptionRule) :=
  g.options.flatMap fun r => r.names.map fun n => (n.toList, r)

variable (g : Grammar)

def named? (name : List Char) : Option OptionRule :=
  (g.names.find? fun e => e.1 == name).map (·.2)

/-- The options that a word may mean, if it is no full name.  A long name may be cut short, a short
one may have its argument joined. -/
def candidates (word : List Char) : List Argument :=
  match word with
  | _ :: second :: joined =>
    if g.marks.contains second then
      let (start, argument) := match splitEquals word with
        | some (start, argument) => (start, some argument)
        | none => (word, none)
      (g.names.filter fun e => start.isPrefixOf e.1).map fun e => .option e.2 e.1 argument
    else
      g.names.filterMap fun e =>
        if e.1 == word.take 2 then some (.option e.2 e.1 (some joined))
        else if word.isPrefixOf e.1 then some (.option e.2 e.1 none)
        else none
  | _ => []

/-- A full name with an argument behind an equals sign. -/
def withEquals? (word : List Char) : Option Argument := do
  let (name, argument) ← splitEquals word
  return .option (← g.named? name) name (some argument)

/-- What a word is that begins with a mark and is no full name. -/
def classifyMarked (word : List Char) : Except Fault Argument :=
  match g.withEquals? word with
  | some a => .ok a
  | none =>
    match g.candidates word with
    | [a] => .ok a
    | _ :: _ :: _ => .error badUsage
    | [] =>
      if isNegativeNumber word || word.contains ' ' then .ok (.word (String.ofList word))
      else .ok (.unknown (String.ofList word))

def classifyWord (s : String) : Except Fault Argument :=
  match s.toList with
  | [] => .ok (.word s)
  | mark :: rest =>
    if !g.marks.contains mark then .ok (.word s)
    else
      match g.named? (mark :: rest) with
      | some r => .ok (.option r (mark :: rest) none)
      | none => if rest.isEmpty then .ok (.word s) else g.classifyMarked (mark :: rest)

/-- What all words are; behind two dashes there are no options. -/
def classify (g : Grammar) : List String → Except Fault (List Argument)
  | [] => .ok []
  | s :: rest =>
    if s = "--" then .ok (.dashes :: rest.map .word)
    else do return (← g.classifyWord s) :: (← g.classify rest)

/-- What options of a cluster are asked for, and whether the last one takes the next word. -/
def cluster (g : Grammar) (mark : Char) (long : Bool) :
    OptionRule → List Char → Except Fault (List (OptionRule × Option String) × Bool)
  | r, [] =>
    if r.takesArgument then .ok ([(r, some "")], false) else .error badUsage
  | r, c :: cs =>
    if r.takesArgument then .ok ([(r, some (String.ofList (c :: cs)))], false)
    else if long then .error badUsage
    else
      match g.named? [mark, c] with
      | none => .error badUsage
      | some next =>
        if cs.isEmpty then .ok ([(r, none), (next, none)], next.takesArgument)
        else do
          let (rest, waits) ← g.cluster mark false next cs
          return ((r, none) :: rest, waits)

/-- The options that one word asks for, and whether the last one takes the next word. -/
def requests (r : OptionRule) (name : List Char) (joined : Option (List Char)) :
    Except Fault (List (OptionRule × Option String) × Bool) :=
  match joined with
  | none => .ok ([(r, none)], r.takesArgument)
  | some cs => g.cluster (name.headD '-') (name[1]?.all g.marks.contains) r cs

end Grammar

/-- The progress of reading a command line. -/
structure CommandLine where
  settings : Table String Value
  awaited : List Positional
  extras : List String := []

namespace CommandLine

variable (s : CommandLine)

/-- Lets one option take effect. -/
def request (r : OptionRule) (argument : Option String) : Except Fault CommandLine :=
  match r.effect, argument with
  | .stop, _ => .error (.exit "0")
  | .set b, _ => .ok { s with settings := s.settings.insert r.key (.bool b) }
  | _, some a => do return { s with settings := s.settings.insert r.key (← r.read a) }
  | _, none => .error badUsage

/-- How many words the awaited positional arguments take from the front of a list. -/
def positionalCounts : List Positional → List Argument → List Nat
  | [], _ => []
  | p :: ps, args =>
    if p.many then
      let k := (args.takeWhile fun a => !a.isOption).length
      k :: positionalCounts ps (args.drop k)
    else
      match args with
      | .word _ :: .dashes :: rest => 2 :: positionalCounts ps rest
      | .word _ :: rest => 1 :: positionalCounts ps rest
      | .dashes :: .word _ :: rest => 2 :: positionalCounts ps rest
      | _ => []

/-- Gives words to one positional argument, without the first two dashes among them. -/
def give (p : Positional) (args : List Argument) : CommandLine :=
  let texts := (args.map Argument.text).erase "--"
  let value := if p.many then Value.texts texts else .ofSetting .text texts.head?
  { s with settings := s.settings.insert p.key value, awaited := s.awaited.tail }

/-- Gives words to the awaited positional arguments, by their counts. -/
def giveAll (s : CommandLine) : List Nat → List Argument → CommandLine
  | [], _ => s
  | k :: ks, args =>
    match s.awaited with
    | [] => s
    | p :: _ => (s.give p (args.take k)).giveAll ks (args.drop k)

/-- Reads the words behind the last option. -/
def finish (args : List Argument) : Except Fault CommandLine :=
  let counts := positionalCounts s.awaited args
  let s := s.giveAll counts args
  let s := { s with extras := s.extras ++ (args.drop (counts.foldl (· + ·) 0)).map Argument.text }
  if s.awaited.isEmpty then .ok s else .error badUsage

/-- Lets the options that a word asks for take effect, with what follows the word.  The last of them
may take that as its argument; tells whether it does. -/
def takeOption (g : Grammar) (r : OptionRule) (name : List Char) (joined : Option (List Char))
    (next : Option Argument) : Except Fault (CommandLine × Bool) := do
  let (asked, waits) ← g.requests r name joined
  let asked ←
    match waits, next with
    | false, _ => pure asked
    | true, some (.word next) =>
      pure (asked.dropLast ++ (asked.getLast?.map fun a => (a.1, some next)).toList)
    | true, _ => .error badUsage
  return (← asked.foldlM (fun s a => s.request a.1 a.2) s, waits)

/-- Reads the options in front of the first word that is none.  Gives what follows. -/
def readFront (g : Grammar) (s : CommandLine) (args : List Argument) :
    Except Fault (CommandLine × List Argument) :=
  match args with
  | .unknown text :: rest => readFront g { s with extras := s.extras ++ [text] } rest
  | .option r name joined :: rest => do
    let (s, taken) ← s.takeOption g r name joined rest.head?
    readFront g s (rest.drop taken.toNat)
  | args => .ok (s, args)
termination_by args.length

def readAll (g : Grammar) (s : CommandLine) (args : List Argument) : Except Fault CommandLine :=
  match args with
  | [] => s.finish []
  | .unknown text :: rest => readAll g { s with extras := s.extras ++ [text] } rest
  | .option r name joined :: rest => do
    let (s, taken) ← s.takeOption g r name joined rest.head?
    readAll g s (rest.drop taken.toNat)
  | first :: rest =>
    if rest.any Argument.isOption then
      match (positionalCounts s.awaited (first :: rest)).foldl (· + ·) 0 with
      | 0 => readAll g { s with extras := s.extras ++ [first.text] } rest
      | k + 1 =>
        readAll g (s.giveAll (positionalCounts s.awaited (first :: rest)) (first :: rest))
          (rest.drop k)
    else s.finish (first :: rest)
termination_by args.length

end CommandLine

namespace Grammar

def initial (g : Grammar) : Table String Value :=
  g.options.foldl (fun t r =>
    match r.effect with
    | .stop => t
    | _ => if t.contains r.key then t else t.insert r.key r.initial) .empty

/-- The settings of a command line, and the words that nothing accepts. -/
def parse (g : Grammar) (argv : List String) : Except Fault (Table String Value × List String) := do
  let args ← g.classify argv
  let s ← CommandLine.readAll g { settings := g.initial, awaited := g.positionals } args
  return (s.settings, s.extras)

/-- The settings of the options in front of the first word that is none, the words among them that
nothing accepts, and the words from there on. -/
def parseFront (g : Grammar) (argv : List String) :
    Except Fault (Table String Value × List String × List String) := do
  let args ← g.classify argv
  let (s, rest) ← CommandLine.readFront g { settings := g.initial, awaited := [] } args
  return (s.settings, s.extras, argv.drop (argv.length - rest.length))

/-- The settings of a command line on which every word is accepted. -/
def parseAll (g : Grammar) (argv : List String) : Except Fault (Table String Value) := do
  let (settings, extras) ← g.parse argv
  if extras.isEmpty then return settings else .error badUsage

end Grammar

end ShellFlow
