import StackMachine.Assembly.Assemble
import StackMachine.Fixture.Expectation
import StackMachine.Session.Log

/-! Fixtures: assembly texts with expectations. Each expectation is checked in a session of its own, which
calls the entry method without arguments. -/

namespace StackMachine

/-- Why a fixture cannot be checked. -/
inductive FixtureError where
  | directive (cause : DirectiveError)
  | assembly (cause : AssemblyError)
  | noExpectations
deriving DecidableEq

/-- The message of an error. -/
def FixtureError.message : FixtureError → String
  | directive cause => cause.message
  | assembly cause => cause.message
  | noExpectations => "no @expect or @fault directives"

/-- An expectation with the outcome of its session. -/
structure Verdict where
  expectation : Expectation
  outcome : Outcome
deriving DecidableEq

namespace Verdict

/-- Whether the session returned the expected value or raised a fault of the expected kind. -/
def passed (v : Verdict) : Bool :=
  match v.expectation.expected, v.outcome with
  | .value expected, .returned value => value = expected
  | .fault expected, .faulted fault => fault.kind.toClass = expected
  | _, _ => false

/-- The line that a report has for a verdict. -/
def text (v : Verdict) : String :=
  let status := if v.passed then "PASS" else "FAIL"
  s!"{status} {v.expectation.entry}: expected {v.expectation.expected.text}, got {v.outcome.text}"

end Verdict

/-- A program with the expectations on its entry methods. -/
structure Fixture where
  program : Program
  expectations : List Expectation

namespace Fixture

/-- The fixture of a text. Its expectations are read first, and there has to be one. -/
def ofText (text : String) : Except FixtureError Fixture := do
  let expectations ← (Expectation.ofText text).mapError .directive
  if expectations.isEmpty then
    throw .noExpectations
  let program ← (assemble text).mapError .assembly
  return ⟨program, expectations⟩

/-- The verdict on each expectation. -/
def verdicts (a : Allotment) (f : Fixture) : List Verdict :=
  f.expectations.map fun e => ⟨e, f.program.execute a e.entry []⟩

/-- The records of the session of each expectation, and one of its outcome. -/
def log (a : Allotment) (f : Fixture) : List LogRecord :=
  (f.verdicts a).flatMap fun v =>
    f.program.executeLog a v.expectation.entry [] ++ [⟨.debug, s!"{v.expectation.entry} -> {v.outcome.text}"⟩]

/-- Reads a fixture and checks its expectations. -/
def check (a : Allotment) (text : String) : Except FixtureError (List Verdict) :=
  (verdicts a) <$> ofText text

end Fixture

end StackMachine
