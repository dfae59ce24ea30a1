import StackMachine.Fixture.Check
import StackMachine.Module.Decode
import StackMachine.Command.Files
import StackMachine.Command.Options

/-! Reports: what a command prints and the exit code it ends with. The code is 0 for success, 1 for input that
cannot be used, 2 for an expectation that fails, and 3 for a session that does not return. -/

namespace StackMachine

/-- The exit code of a command, and what it prints to standard output and standard error. -/
structure Report where
  exitCode : UInt32
  out : String
  err : String
deriving DecidableEq

/-- Why a command ends early. -/
inductive CommandError where
  | noInput (message usage : String)
  | option (cause : OptionError)
  | invalidArgument (value : String)
  | unreadable (path : String) (cause : FileError)
  | unwritable (path : String) (cause : FileError)
  | assembly (cause : AssemblyError)
  | binary (cause : DecodeError)
  | fixture (path : String) (cause : FixtureError)
  | faulted (fault : Fault)
  | exhausted (steps : Nat)
deriving DecidableEq

namespace CommandError

/-- The message of an error, as it is printed. -/
def message : CommandError → String
  | noInput message usage => s!"error: {message}\n{usage}\n"
  | option cause => s!"error: {cause.message}\n"
  | invalidArgument value => s!"error: invalid argument '{value}'\n"
  | unreadable path cause => s!"error: cannot read '{path}': {cause.message}\n"
  | unwritable path cause => s!"error: cannot write '{path}': {cause.message}\n"
  | assembly cause => s!"error: {cause.message}\n"
  | binary cause => s!"error: invalid binary: {cause.message}\n"
  | fixture path cause => s!"error: {path}: {cause.message}\n"
  | faulted fault => s!"runtime error: {fault.message}\n"
  | exhausted steps => s!"error: {(Outcome.exhausted steps).text}\n"

/-- The exit code of an error. Programs that fault or do not end have one of their own. -/
def exitCode : CommandError → UInt32
  | faulted _ => 3
  | exhausted _ => 3
  | _ => 1

/-- The report of an error, which goes to standard error. -/
def report (e : CommandError) : Report :=
  ⟨e.exitCode, "", e.message⟩

end CommandError

/-- How to call the program. -/
def usage : String :=
  String.join <|
    ["Usage: tinyvm <command> [args]",
      "",
      "Commands:",
      "  assemble <input.tasm> [-o output.tvmb]    Assemble text to a binary module",
      "  disassemble <input.tvmb>                  Disassemble a binary module to text",
      "  run <file> [--entry NAME] [ARGS...]       Execute a method (default: main)",
      "  conformance <fixture|dir>...              Check @expect/@fault fixtures",
      "",
      "Limits (run, conformance):",
      "  --max-steps N    Stop after N instructions",
      "  --max-depth N    Maximum call depth",
      "  --max-stack N    Maximum operand stack per frame",
      "",
      "Set RUST_LOG=debug (or trace) for execution logs."].map (· ++ "\n")

end StackMachine
