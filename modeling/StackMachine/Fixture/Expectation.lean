import StackMachine.Text.Blank
import StackMachine.Text.Numeral
import StackMachine.Fault

/-! Expectations: comment lines of an assembly text that say how its entry methods end. After the semicolon
stands `@expect`, a method name and a value, or `@fault`, a method name and a kind of fault. -/

namespace StackMachine

/-- How an entry method is expected to end. -/
inductive Expected where
  | value (value : Int32)
  | fault (kind : FaultClass)
deriving DecidableEq

/-- An end as it is shown. -/
def Expected.text : Expected → String
  | value v => toString v.toInt
  | fault kind => "fault " ++ kind.name

/-- What a directive line demands of an entry method. -/
structure Expectation where
  line : Nat
  entry : String
  expected : Expected
deriving DecidableEq

/-- The two directives: one demands a value, the other a fault. -/
inductive Directive where
  | expect
  | fault
deriving DecidableEq

/-- What can be wrong with a directive. -/
inductive DirectiveCause where
  | unknownDirective (name : String)
  | missingArgument (directive : Directive)
  | invalidValue (token : String)
  | unknownFault (token : String)
  | unexpectedToken (token : String)
deriving DecidableEq

/-- An error in a directive, with the number of its line. -/
structure DirectiveError where
  line : Nat
  cause : DirectiveCause
deriving DecidableEq

namespace Directive

/-- The word behind the at sign. -/
def name : Directive → String
  | expect => "expect"
  | fault => "fault"

/-- What a directive takes after the method name. -/
def operand : Directive → String
  | expect => "a value"
  | fault => "a fault kind"

/-- The directive with a name. -/
def ofName? (text : String) : Option Directive :=
  [expect, fault].find? fun d => d.name == text

/-- Reads what stands after the method name. -/
def expected (text : String) : Directive → Except DirectiveCause Expected
  | expect =>
    match Numeral.int32? text with
    | some v => .ok (.value v)
    | none => .error (.invalidValue text)
  | fault =>
    match FaultClass.ofName? text with
    | some kind => .ok (.fault kind)
    | none => .error (.unknownFault text)

end Directive

/-- The message of an error, after the number of its line. -/
def DirectiveError.message (e : DirectiveError) : String :=
  s!"line {e.line}: " ++ match e.cause with
    | .unknownDirective name => s!"unknown directive '@{name}'"
    | .missingArgument d => s!"@{d.name} expects a method name and {d.operand}"
    | .invalidValue token => s!"invalid value '{token}'"
    | .unknownFault token => s!"unknown fault kind '{token}'"
    | .unexpectedToken token => s!"unexpected token '{token}'"

namespace Expectation

/-- What stands after the at sign of a directive line: a semicolon and an at sign, with blanks before each. -/
def body? (line : List Char) : Option (List Char) :=
  match Text.skipBlanks line with
  | ';' :: rest =>
    match Text.skipBlanks rest with
    | '@' :: body => some body
    | _ => none
  | _ => none

/-- The expectation of the words of a directive. -/
def ofWords (line : Nat) : List String → Except DirectiveCause Expectation
  | [] => .error (.unknownDirective "")
  | name :: args =>
    match Directive.ofName? name with
    | none => .error (.unknownDirective name)
    | some d =>
      match args with
      | [entry, operand] => (⟨line, entry, ·⟩) <$> d.expected operand
      | _ :: _ :: extra :: _ => .error (.unexpectedToken extra)
      | _ => .error (.missingArgument d)

/-- The expectation of a numbered directive. -/
def ofBody (numbered : List Char × Nat) : Except DirectiveError Expectation :=
  (ofWords numbered.2 ((Text.words numbered.1).map String.ofList)).mapError (⟨numbered.2, ·⟩)

/-- The numbered directives of a text. -/
def bodies (text : String) : List (List Char × Nat) :=
  (Text.numberedLines text).filterMap fun (line, n) => (body? line).map (·, n)

/-- The expectations of a text, or the first malformed one. -/
def ofText (text : String) : Except DirectiveError (List Expectation) :=
  (bodies text).mapM ofBody

end Expectation

end StackMachine
