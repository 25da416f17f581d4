import ProgramFacts.Command.Directory
/-!
# The program

`main` runs a command on the files of the machine and its clock. All that is decided
is decided by `Command.run`; this file only reads, writes and looks at the clock.
-/

namespace ProgramFacts

namespace Command

/-- The number that the system has for a failure, where one is needed. -/
def faultCode? : IO.Error → Option UInt32
  | .noFileOrDirectory _ code _ => some code
  | .inappropriateType _ code _ => some code
  | .invalidArgument _ code _ => some code
  | .otherError code _ => some code
  | _ => none

/-- The words for a failure to read or write a file. -/
def fileReason (e : IO.Error) : String :=
  match Directory.Fault.all.find? fun fault => faultCode? e = some fault.code.toUInt32 with
  | some fault => fault.message
  | none => toString e

/-- An action on a file, with its failure in words. -/
def attempt {α : Type} (action : IO α) : IO (Except String α) := do
  match ← action.toBaseIO with
  | .ok a => return .ok a
  | .error e => return .error (fileReason e)

/-- The machine that the program runs on. -/
def machine : Host IO where
  read path := attempt (IO.FS.readFile path)
  write path text := attempt (IO.FS.writeFile path text)
  setting? name := IO.getEnv name
  timed f := do
    let start ← IO.monoNanosNow
    let value ← IO.lazyPure f
    let stop ← IO.monoNanosNow
    return (value, stop - start)

end Command

end ProgramFacts

/-- Runs the command that the command line asks for. -/
def main (args : List String) : IO UInt32 := do
  let outcome ← ProgramFacts.Command.run ProgramFacts.Command.machine args
  IO.print outcome.out
  IO.eprint outcome.err
  return outcome.code.toUInt32
