import StackMachine.Command.Report

/-! The report on fixtures: a line for each verdict, a message for each fixture that cannot be checked, and
the counts. -/

namespace StackMachine

/-- A fixture file with its verdicts, or with the reason why there are none. -/
structure Checked where
  path : String
  result : Except CommandError (List Verdict)

namespace Checked

/-- The verdicts, of which a fixture that cannot be checked has none. -/
def verdicts (c : Checked) : List Verdict :=
  match c.result with
  | .ok vs => vs
  | .error _ => []

/-- The number of expectations that are met. -/
def passed (c : Checked) : Nat :=
  c.verdicts.countP (·.passed)

/-- The number of expectations that are not met. -/
def failed (c : Checked) : Nat :=
  c.verdicts.countP fun v => !v.passed

/-- Whether the fixture could not be checked. -/
def broken (c : Checked) : Bool :=
  match c.result with
  | .ok _ => false
  | .error _ => true

/-- A line for each verdict. -/
def out (c : Checked) : String :=
  String.join (c.verdicts.map fun v => s!"{c.path}: {v.text}\n")

/-- The message of a fixture that cannot be checked. -/
def err (c : Checked) : String :=
  match c.result with
  | .ok _ => ""
  | .error e => e.message

end Checked

/-- The report on fixtures in order. A fixture that cannot be checked weighs more than a verdict that fails. -/
def Report.ofChecked (cs : List Checked) : Report :=
  let passed := cs.foldl (fun n c => n + c.passed) 0
  let failed := cs.foldl (fun n c => n + c.failed) 0
  let broken := cs.countP (·.broken)
  { exitCode := if 0 < broken then 1 else if 0 < failed then 2 else 0
    out := String.join (cs.map (·.out)) ++
      s!"{passed} passed, {failed} failed, {broken} fixture error(s) across {cs.length} file(s)\n"
    err := String.join (cs.map (·.err)) }

end StackMachine
