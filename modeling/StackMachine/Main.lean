import StackMachine.Command.Run

/-! The command line: files of the operating system, standard output and standard error. -/

namespace StackMachine

/-- The error of the operating system with this number, which some calls give with its sign turned. -/
def FileError.ofCode (code : UInt32) (message : String) : FileError :=
  let code := if 0x80000000 ≤ code then 0 - code else code
  if code = 2 then .notFound
  else if code = 20 then .notDirectory
  else if code = 21 then .isDirectory
  else if code = 36 then .nameTooLong
  else .other message

/-- The error of a failed action. -/
def FileError.ofError (e : IO.Error) : FileError :=
  match e with
  | .noFileOrDirectory _ code _ => .ofCode code (toString e)
  | .inappropriateType _ code _ => .ofCode code (toString e)
  | .invalidArgument _ code _ => .ofCode code (toString e)
  | .otherError code _ => .ofCode code (toString e)
  | _ => .other (toString e)

/-- An action that may fail. -/
def attempt {α : Type} (action : IO α) : IO (Except FileError α) :=
  try
    return .ok (← action)
  catch e =>
    return .error (.ofError e)

instance : Files IO where
  read path := attempt do return (← IO.FS.readBinFile path).data.toList
  write path bytes := attempt (IO.FS.writeBinFile path ⟨bytes.toArray⟩)
  names? path := do
    let directory := (← IO.currentDir) / path
    if ← directory.isDir then
      some <$> attempt do return (← directory.readDir).toList.map (·.fileName)
    else return none

end StackMachine

/-- Runs the command that the arguments name, and prints its report. -/
def main (args : List String) : IO UInt32 := do
  let report ← StackMachine.Command.run args
  IO.print report.out
  IO.eprint report.err
  return report.exitCode
