import StackMachine.Method

/-! Why a text is not an assembly program. -/

namespace StackMachine

/-- What can be wrong at a line. -/
inductive LineError where
  | unknownOpcode (token : String)
  | missingArgument (opcode : String) (expected : Nat)
  | invalidNumber (token : String)
  | unexpectedToken (token : String)
  | undefinedLabel (label : String)
  | duplicateLabel (label : String)
  | instructionOutsideMethod
  | unterminatedMethod (name : String)
  | nestedMethod (outer : String)
deriving DecidableEq

/-- The message of an error, without its line. -/
def LineError.message : LineError → String
  | unknownOpcode token => s!"unknown opcode '{token}'"
  | missingArgument opcode expected => s!"{opcode} expects {expected} argument(s)"
  | invalidNumber token => s!"invalid number '{token}'"
  | unexpectedToken token => s!"unexpected token '{token}'"
  | undefinedLabel label => s!"undefined label '{label}'"
  | duplicateLabel label => s!"duplicate label '{label}'"
  | instructionOutsideMethod => "instruction outside of a method"
  | unterminatedMethod name => s!"method '{name}' is missing .end"
  | nestedMethod outer => s!".method inside method '{outer}'"

/-- A fault of the text at a line, or a load check that fails. -/
inductive AssemblyError where
  | line (number : Nat) (cause : LineError)
  | load (cause : LoadError)
deriving DecidableEq

/-- The message of an error, after the number of its line if it has one. -/
def AssemblyError.message : AssemblyError → String
  | line number cause => s!"line {number}: " ++ cause.message
  | load cause => cause.message

end StackMachine
