import Suspension.CommandLine.Program

/-!
# The program on the real file system

Carries out what the command line asks for and prints what is left behind.
-/

namespace Suspension.CommandLine

/-- The reason for a failed access. The number of an error may come with either sign. -/
def fileError : IO.Error → FileError
  | .noFileOrDirectory .. => .notFound
  | .inappropriateType _ code _ =>
    if code = 20 ∨ -code = 20 then .notDirectory else .isDirectory
  | .permissionDenied .. => .notPermitted
  | e@(.invalidArgument _ code _) =>
    if code = 36 ∨ -code = 36 then .nameTooLong else .other (toString e)
  | e => .other (toString e)

/-- The answer of an access that may fail. -/
def answer {α : Type} (access : IO α) : IO (Except FileError α) := do
  match ← access.toBaseIO with
  | .ok a => return .ok a
  | .error e => return .error (fileError e)

/-- The file system of the machine. -/
def machineFiles : FileSystem IO where
  read path := answer (IO.FS.readBinFile path)
  write path text := answer (IO.FS.writeFile path text)

end Suspension.CommandLine

open Suspension Suspension.CommandLine in
/-- Carries out the command line. -/
def main (args : List String) : IO UInt32 := do
  let o ← (program ampleFuel args).run machineFiles
  (← IO.getStdout).putStr o.stdout
  (← IO.getStderr).putStr o.stderr
  return o.code.toUInt32
