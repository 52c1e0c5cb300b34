/-!
# Causes of failure

Every way in which an operation of the library can refuse its input.  A fault names its cause in the
words of the domain; where a caller reads a text or a key, the fault carries it.
-/

namespace ShellFlow

/-- Why an operation failed. -/
inductive Fault where
  /-- A requirement of an operation does not hold. -/
  | broken
  /-- No entry under this key. -/
  | missing (key : String)
  /-- A position outside a sequence. -/
  | outOfRange
  /-- A text or sequence of the wrong form. -/
  | malformed
  /-- A number that is too large to be used. -/
  | tooLarge
  /-- A sequence that there is no room for. -/
  | noRoom
  /-- A value of the wrong kind. -/
  | wrongKind
  /-- A value lacks the part that is asked of it. -/
  | lacking
  /-- An operation that is declared but not provided. -/
  | unsupported
  /-- No file at a path. -/
  | noFile
  /-- A path that names a directory where a file is needed. -/
  | notAFile
  /-- A path under something that is no directory. -/
  | notADirectory
  /-- A path that is in use where a new one is needed. -/
  | inUse
  /-- A path with a name that is too long. -/
  | longName
  /-- A text that is no data document. -/
  | badDocument
  /-- A data document with too many lists and records inside each other. -/
  | tooDeep
  /-- Bytes that are no text. -/
  | badText
  /-- A text that cannot be written as bytes. -/
  | unwritable
  /-- A name without a meaning. -/
  | unknownName
  /-- A result that no branch has set. -/
  | unset
  /-- A refusal with a message for the reader. -/
  | refused (message : String)
  /-- A request to end the program. -/
  | exit (code : String)
  /-- The input ended while more was needed. -/
  | exhausted
  /-- Every remaining step waits for another that cannot be taken. -/
  | stuck
  deriving DecidableEq, Repr, Inhabited

end ShellFlow
