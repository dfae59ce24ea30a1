import StackMachine.Session.Outcome

/-! The log of a session: a record for each instruction, call, return and end. The records of a step follow
from the session before it. -/

namespace StackMachine

/-- How detailed a record is. -/
inductive LogLevel where
  | debug
  | trace
deriving DecidableEq

/-- A level as it is shown. -/
def LogLevel.name : LogLevel → String
  | debug => "DEBUG"
  | trace => "TRACE"

/-- A message with its level. -/
structure LogRecord where
  level : LogLevel
  message : String
deriving DecidableEq

/-- A record as it is shown. -/
def LogRecord.text (r : LogRecord) : String :=
  r.level.name ++ " " ++ r.message

/-- Arguments in brackets, with commas between them. -/
def argsText (args : List Int32) : String :=
  "[" ++ ", ".intercalate (args.map fun v => toString v.toInt) ++ "]"

namespace Session

section
variable (p : Program) (limits : Limits)

/-- The record of the call of an entry method. -/
def startLog (entry : String) (args : List Int32) : List LogRecord :=
  match p.callee limits 0 entry args.length with
  | .ok _ => [⟨.debug, s!"enter {entry}" ++ argsText args⟩]
  | .error kind => [⟨.debug, s!"cannot enter {entry}: {kind.message}"⟩]

/-- The record of a call or a return by the frame on top of `callers`. -/
def effectLog (callers : Stack Frame) (f : Frame) : Instruction → Effect → List LogRecord
  | .invokeStatic name argc, .call _ _ _ =>
    let args := (f.stack.toList.take argc.toNat).reverse
    [⟨.debug, s!"invoke {name}{argsText args} at depth {callers.height + 2}"⟩]
  | _, .give value _ =>
    if callers.height = 0 then [] else [⟨.trace, s!"return {value.toInt} to depth {callers.height}"⟩]
  | _, _ => []

/-- The record of the end of a session. -/
def endLog (s : Session) : List LogRecord :=
  match s.status with
  | .running => []
  | .returned value => [⟨.debug, s!"returned {value.toInt} after {s.steps} step(s)"⟩]
  | .faulted fault => [⟨.debug, s!"fault: {fault.message}"⟩]

/-- The records of the next step. -/
def stepLog (s : Session) : List LogRecord :=
  match s.status, s.frames.pop? with
  | .running, some (f, callers) =>
    match p.fetch? f with
    | some (m, i) =>
      ⟨.trace, s!"{m.name}@{f.pc}: {i.text}"⟩ ::
        (effectLog callers f i (.ofInstruction p limits (callers.height + 1) s.heap f i) ++ (s.step p limits).endLog)
    | none => []
  | _, _ => []

/-- Adds the records of up to `n` steps, as long as the session runs. -/
def addLog : (n : Nat) → Session → Array LogRecord → Array LogRecord
  | 0, _, log => log
  | n + 1, s, log => if s.status.isHalted then log else addLog n (s.step p limits) (log ++ s.stepLog p limits)

/-- The records of a run with a budget. -/
def runForLog (budget : Nat) (s : Session) : List LogRecord :=
  (s.addLog p limits (s.allowance budget) #[]).toList

/-- The records of a run to the end. -/
def runLog (s : Session) : List LogRecord :=
  s.runForLog p limits maxSteps

end

end Session

/-- The records of a session of its own for an entry method. -/
def Program.executeLog (p : Program) (a : Allotment) (entry : String) (args : List Int32) : List LogRecord :=
  Session.startLog p a.limits entry args ++ (Session.start p a.limits entry args).runForLog p a.limits a.budget

end StackMachine
