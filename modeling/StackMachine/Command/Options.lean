import StackMachine.Session.Outcome
import StackMachine.Text.Numeral

/-! Options of commands: a word that starts with two dashes is a flag, and the word after it is its value;
the other words are positional. -/

namespace StackMachine

/-- What the arguments of a command give. -/
structure Options where
  positional : List String := []
  entry : Option String := none
  allotment : Allotment := {}
deriving DecidableEq

/-- Why arguments are no options. -/
inductive OptionError where
  | missingValue (flag : String)
  | invalidValue (flag value : String)
  | unknownFlag (flag : String)
deriving DecidableEq

/-- The message of an error, which names the flag. -/
def OptionError.message : OptionError → String
  | missingValue flag => s!"{flag} requires a value"
  | invalidValue flag value => s!"invalid {flag} '{value}'"
  | unknownFlag flag => s!"unknown flag '{flag}'"

namespace Options

/-- Whether a word is a flag. -/
def isFlag (word : String) : Bool :=
  "--".toList.isPrefixOf word.toList

/-- Reads the value of a flag that takes a number. -/
def number (flag value : String) : Except OptionError Nat :=
  match Numeral.nat64? value with
  | some n => .ok n
  | none => .error (.invalidValue flag value)

/-- The options with other limits. -/
def withLimits (o : Options) (change : Limits → Limits) : Options :=
  { o with allotment := { o.allotment with limits := change o.allotment.limits } }

/-- Sets the value of a flag. The entry method is a flag only where `allowEntry` holds. -/
def set (allowEntry : Bool) (flag value : String) (o : Options) : Except OptionError Options :=
  if flag = "--entry" ∧ allowEntry then .ok { o with entry := some value }
  else if flag = "--max-steps" then do
    let n ← number flag value
    return { o with allotment := { o.allotment with steps := some n } }
  else if flag = "--max-depth" then do
    let n ← number flag value
    return o.withLimits ({ · with callDepth := n })
  else if flag = "--max-stack" then do
    let n ← number flag value
    return o.withLimits ({ · with operandStack := n })
  else .error (.unknownFlag flag)

/-- Adds the words from left to right to the options so far. A later value of a flag replaces an earlier one. -/
def add (allowEntry : Bool) (o : Options) : List String → Except OptionError Options
  | [] => .ok o
  | [word] =>
    if isFlag word then .error (.missingValue word)
    else .ok { o with positional := o.positional ++ [word] }
  | word :: value :: rest =>
    if isFlag word then do
      let o ← o.set allowEntry word value
      o.add allowEntry rest
    else add allowEntry { o with positional := o.positional ++ [word] } (value :: rest)

/-- The options of an argument list. -/
def ofArgs (allowEntry : Bool) (args : List String) : Except OptionError Options :=
  add allowEntry {} args

end Options

end StackMachine
