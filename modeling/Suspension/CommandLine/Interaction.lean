/-!
# Interactions with a file system

What a command does is a value: a tree of requests to a file system, each with what follows from the
answer, and an output at every leaf. Whoever carries it out decides what the file system is.
-/

namespace Suspension.CommandLine

/-- Why a file could not be read or written. -/
inductive FileError
  | notFound
  | isDirectory
  | notDirectory
  | notPermitted
  | nameTooLong
  /-- Any other reason, in words. -/
  | other (reason : String)
  deriving DecidableEq, Repr

/-- The words for a file error. -/
def FileError.text : FileError → String
  | .notFound => "No such file or directory (os error 2)"
  | .isDirectory => "Is a directory (os error 21)"
  | .notDirectory => "Not a directory (os error 20)"
  | .notPermitted => "Permission denied (os error 13)"
  | .nameTooLong => "File name too long (os error 36)"
  | .other reason => reason

/-- What a command leaves behind. -/
structure Output where
  stdout : String := ""
  stderr : String := ""
  code : UInt8 := 0
  deriving DecidableEq, Repr

/-- What a command does. -/
inductive Interaction
  | done (o : Output)
  | read (path : String) (next : Except FileError ByteArray → Interaction)
  | write (path text : String) (next : Except FileError Unit → Interaction)

/-- A file system whose answers are those of a state that they may change. -/
structure FileSystem (m : Type → Type) where
  read : String → m (Except FileError ByteArray)
  write : String → String → m (Except FileError Unit)

/-- Carries out a command on a file system. -/
def Interaction.run {m : Type → Type} [Monad m] (fs : FileSystem m) : Interaction → m Output
  | .done o => pure o
  | .read path next => do (next (← fs.read path)).run fs
  | .write path text next => do (next (← fs.write path text)).run fs

end Suspension.CommandLine
