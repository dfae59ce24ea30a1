import StackMachine.Session.Step

/-! Outcomes: how a session of one entry method ends under a budget of steps. -/

namespace StackMachine

/-- How a session ends under a budget. -/
inductive Outcome where
  | returned (value : Int32)
  | faulted (fault : Fault)
  /-- The budget was spent while the session was running. -/
  | exhausted (steps : Nat)
deriving DecidableEq

/-- An outcome as it is shown. -/
def Outcome.text : Outcome → String
  | returned value => toString value.toInt
  | faulted fault => s!"fault {fault.kind.toClass.name}: {fault.message}"
  | exhausted steps => s!"step budget exhausted after {steps} steps"

/-- What a session shows when its budget ends. -/
def Session.outcome (s : Session) : Outcome :=
  match s.status with
  | .returned value => .returned value
  | .faulted fault => .faulted fault
  | .running => .exhausted s.steps

/-- Limits of a session together with its budget of steps; without one it may run to its end. -/
structure Allotment where
  limits : Limits := {}
  steps : Option Nat := none
deriving DecidableEq

/-- The steps that a session may take; all that it can count, if there is no budget. -/
def Allotment.budget (a : Allotment) : Nat :=
  a.steps.getD Session.maxSteps

/-- Runs an entry method in a session of its own. -/
def Program.execute (p : Program) (a : Allotment) (entry : String) (args : List Int32) : Outcome :=
  ((Session.start p a.limits entry args).runFor p a.limits a.budget).outcome

end StackMachine
