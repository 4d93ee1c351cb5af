import SsaPrune.CommandLine

/-!
# The program
-/

namespace SsaPrune

/-- A problem that the system reported. Its number may come with a minus sign. -/
def FileProblem.ofSystem (details : String) (code : UInt32) : FileProblem :=
  match min code.toNat (-code).toNat with
  | 36 => .nameTooLong
  | code => .system details.capitalize code

/-- What the failure to read a file means. -/
def FileProblem.ofError : IO.Error → FileProblem
  | .noFileOrDirectory .. => .notFound
  | .permissionDenied _ code details => .ofSystem details code
  | .inappropriateType _ code details => .ofSystem details code
  | .invalidArgument _ code details => .ofSystem details code
  | .otherError code details => .ofSystem details code
  | e => .system (toString e) 0

/-- Read the file that a command works on. -/
def Command.readContents (c : Command) : IO (Except FileProblem ByteArray) := do
  try
    return .ok (← IO.FS.readBinFile c.file)
  catch e =>
    return .error (.ofError e)

end SsaPrune

open SsaPrune

def main (args : List String) : IO UInt32 := do
  let outcome ← match Command.parse? args with
    | some c => pure (c.run (← c.readContents))
    | none => pure Command.usage
  IO.print outcome.stdout
  IO.eprint outcome.stderr
  return outcome.code.toUInt32
