import ShellFlow.Settings
import ShellFlow.Shell.Tree

/-!
# Channels and resources

A channel is an identified place that data flows through: an identifier, the directory in which its
pipe or scratch file would live, and the resource that it stands for outside the graph, if any: a
pipe that lives as long as the script, a scratch file, a standard descriptor, a named file, or a
piece of a distributed file.
-/

namespace ShellFlow

/-- What a channel stands for. -/
inductive Resource where
  /-- A named pipe made for the script. -/
  | ephemeral
  /-- A scratch file. -/
  | temporary
  | descriptor (fd : Value)
  | file (path : Word)
  /-- Anything else that has an identifier. -/
  | location (uri : Value)
  /-- A block of a distributed file, kept on some hosts. -/
  | block (path : Value) (hosts : List String)
  /-- A logical piece of a distributed file: its layout, the path of the layout, its index, its
  hosts. -/
  | piece (layout path : Value) (index : Int) (hosts : List String)

/-- A host without what follows its last colon. -/
def hostOf (address : String) : String :=
  if address.toList.contains ':' then
    String.ofList ((address.toList.reverse.dropWhile (· != ':')).drop 1).reverse
  else address

namespace Resource

/-- A stream on another host; none is provided. -/
def remote : Except Fault Resource := .error .unsupported

/-- The text by which a resource is shown.  A piece is shown by the path of its layout, which must
be a text. -/
def display : Resource → Except Fault String
  | ephemeral | temporary => .ok "None"
  | descriptor fd => .ok ("('fd', " ++ fd.inspect ++ ")")
  | file path => Word.format path
  | location uri => .ok uri.display
  | block path _ => .ok ("$HDFS_DATANODE_DIR/" ++ path.display)
  | piece _ path _ _ => path.asText

/-- The text by which a resource is inspected.  A piece has no identifier to show. -/
def inspect? : Resource → Except Fault String
  | block path _ => .ok ("hdfs://" ++ path.display)
  | piece _ _ _ _ => .error .lacking
  | r => r.display

def isStdin : Resource → Bool
  | descriptor fd => fd.sameInt 0
  | _ => false

def isStdout : Resource → Bool
  | descriptor fd => fd.sameInt 1
  | _ => false

def isFile : Resource → Bool
  | file _ => true
  | _ => false

def isDescriptor : Resource → Bool
  | descriptor _ => true
  | _ => false

/-- Whether this is a part of a distributed file. -/
def isRemote : Resource → Bool
  | block _ _ | piece _ _ _ _ => true
  | _ => false

/-- The identifier of a resource, if that is plain data; nothing for one that needs none. -/
def identifier : Resource → Value
  | location uri => uri
  | block path _ => path
  | _ => .null

/-- Whether two resources are taken to be one.  A piece has no identity, so comparing it by identity
fails. -/
def same? : Resource → Resource → Except Fault Bool
  | file a, file b => .ok (Word.same a b)
  | file _, _ => .ok false
  | block a _, block b _ => .ok (a.same b)
  | block _ _, _ => .ok false
  | piece _ _ _ _, _ => .error .lacking
  | _, piece _ _ _ _ => .error .lacking
  | location _, block _ _ => .ok false
  | location _, file _ => .ok false
  | _, file b => do
    let _ ← Word.format b
    return false
  | descriptor a, descriptor b => .ok (a.same b)
  | descriptor _, _ => .ok false
  | _, descriptor _ => .ok false
  | a, b => .ok (a.identifier.same b.identifier)

def sameFile : Resource → Resource → Bool
  | file a, file b => Word.same a b
  | _, _ => false

/-- Whether a host keeps a part of a distributed file.  Of nothing else it is known where it is
kept. -/
def keptOn? (r : Resource) (host : Value) : Except Fault Bool :=
  match r with
  | block _ hs | piece _ _ _ hs => .ok ((hs.map Value.text).contains host)
  | _ => .error .lacking

/-- Changes the path of the layout of a piece. -/
def setPath (path : Value) : Resource → Except Fault Resource
  | piece layout _ index hosts => .ok (.piece layout path index hosts)
  | _ => .error .lacking

/-- Hosts that hold a part of a distributed file. -/
def hosts : Resource → List String
  | block _ hs | piece _ _ _ hs => hs
  | _ => []

end Resource

/-! ### Channels -/

/-- An identified place that data flows through. -/
structure Channel (ι : Type) where
  ident : ι
  dir : String := ""
  resource : Option Resource := none

namespace Channel

variable {ι : Type} [ToString ι] (c : Channel ι)

def fifoName : String := c.dir ++ "#fifo" ++ toString c.ident

def scratchName : String := c.dir ++ toString c.ident

/-- The text of the resource, `None` without one. -/
def resourceText : Except Fault String :=
  match c.resource with
  | none => .ok "None"
  | some r => r.display

def display : Except Fault String :=
  match c.resource with
  | some .ephemeral => .ok c.fifoName
  | _ => do return "fid:" ++ toString c.ident ++ ":" ++ (← c.resourceText)

def serialize : Except Fault String :=
  match c.resource with
  | some .temporary => .ok c.scratchName
  | some .ephemeral => .ok c.fifoName
  | _ => c.resourceText

def quotedLabel : Except Fault String := do return "\"" ++ (← c.serialize) ++ "\""

def fileName (stem : String) : String := stem ++ "_file" ++ toString c.ident

/-- The word by which a command names this channel.  Standard input can be named only where a dash
means standard input. -/
def toWord (dash : Bool) : Except Fault Word :=
  match c.resource with
  | some .temporary => .ok (Word.ofString (Settings.standard.scratchPath c.scratchName))
  | some .ephemeral => .ok [.quoted (Word.ofString (Settings.standard.scratchPath c.fifoName))]
  | some (.descriptor fd) =>
    if fd.sameInt 0 && dash then .ok (Word.ofString "-") else .error .unsupported
  | some (.file path) => .ok path
  | some (.location _) | some (.block _ _) | some (.piece _ _ _ _) | none => .error .lacking

omit [ToString ι]

def isFile (c : Channel ι) : Bool := c.resource.any Resource.isFile

def isDescriptor (c : Channel ι) : Bool := c.resource.any Resource.isDescriptor

/-- Whether this channel stands for a part of a distributed file. -/
def isRemote (c : Channel ι) : Bool := c.resource.any Resource.isRemote

/-- Whether this channel is a pipe made for the script. -/
def isEphemeral : Bool :=
  match c.resource with
  | some .ephemeral => true
  | _ => false

def isStdout (c : Channel ι) : Bool := c.resource.any Resource.isStdout

def isStdin (c : Channel ι) : Bool := c.resource.any Resource.isStdin

/-- Makes the channel stand for `r`, unless it stands for a named file. -/
def setResource (r : Option Resource) : Except Fault (Channel ι) :=
  if c.isFile then .error .broken else .ok { c with resource := r }

/-- Turns the channel into a pipe. -/
def makeEphemeral : Channel ι := { c with resource := some .ephemeral }

/-- Turns the channel into a scratch file. -/
def makeTemporary : Channel ι := { c with resource := some .temporary }

/-- Whether a host can serve this channel: pipes can be served anywhere, parts of distributed files
where they are kept, and nothing else. -/
def isAvailableOn (host : Value) : Bool :=
  if c.isEphemeral then true
  else match c.resource with
    | some r => (r.hosts.map Value.text).contains host
    | none => false

end Channel

/-- Fresh channels: the next number, and the directory that they share. -/
structure ChannelSource where
  next : Int
  dir : String

namespace ChannelSource

/-- A numbering that starts after `last`, in a directory of its own. -/
def make (last : Int) (stem : String) : Build ChannelSource := do
  let n ← Build.freshUnique
  return { next := last + 1, dir := Supply.hex32 n ++ "/" ++ stem }

variable (s : ChannelSource)

/-- The next channel, standing for nothing. -/
def fresh : Channel Int × ChannelSource :=
  ({ ident := s.next, dir := s.dir }, { s with next := s.next + 1 })

def freshEphemeral : Channel Int × ChannelSource :=
  (s.fresh.1.makeEphemeral, s.fresh.2)

/-- The next channel, as a scratch file. -/
def freshTemporary : Channel Int × ChannelSource :=
  (s.fresh.1.makeTemporary, s.fresh.2)

def freshFor (r : Resource) : Channel Int × ChannelSource :=
  ({ s.fresh.1 with resource := some r }, s.fresh.2)

def freshPipes (s : ChannelSource) : Nat → List (Channel Int) × ChannelSource
  | 0 => ([], s)
  | k + 1 =>
    let (c, s) := s.freshEphemeral
    let (cs, s) := freshPipes s k
    (c :: cs, s)

/-- Continues after another numbering. -/
def bump (s other : ChannelSource) : ChannelSource := { s with next := other.next + 1 }

end ChannelSource

end ShellFlow
