import StackMachine.Session.Effect

/-! Sessions: the execution of one entry method of a program, one instruction at a time. -/

namespace StackMachine

/-- Whether a session runs, and how it has ended otherwise. -/
inductive Status where
  | running
  | returned (value : Int32)
  | faulted (fault : Fault)
deriving DecidableEq

/-- Whether nothing more will execute. -/
def Status.isHalted : Status → Bool
  | running => false
  | _ => true

/-- The state of the execution of an entry method. -/
structure Session where
  /-- The call stack, with the active frame on top. -/
  frames : Stack Frame
  heap : Heap
  /-- The number of instructions executed. -/
  steps : Nat
  status : Status
deriving DecidableEq

/-- The instruction that a frame executes next, with its method. -/
@[inline] def Program.fetch? (p : Program) (f : Frame) : Option (Method × Instruction) := do
  let m ← p.methods[f.method]?
  let i ← m.code[f.pc]?
  return (m, i)

namespace Session

section
variable (p : Program) (limits : Limits)

/-- Calls the entry method. If it cannot be called, the session starts with a fault. -/
def start (entry : String) (args : List Int32) : Session :=
  match p.callee limits 0 entry args.length with
  | .ok (index, m) => ⟨Stack.empty.push (.ofArgs index m.localCount.toNat args), .empty, 0, .running⟩
  | .error kind => ⟨.empty, .empty, 0, .faulted ⟨kind, none⟩⟩

/-- Hands the value of a frame that has ended to the frame below it, or to the outside. -/
def give (callers : Stack Frame) (heap : Heap) (steps : Nat) (name : String) (pc : Nat) (value : Int32) : Session :=
  match callers.pop? with
  | none => ⟨.empty, heap, steps, .returned value⟩
  | some (caller, rest) =>
    match caller.push limits.operandStack value with
    | .ok caller => ⟨rest.push caller, heap, steps, .running⟩
    | .error kind => ⟨rest.push caller, heap, steps, .faulted ⟨kind, some ⟨name, pc⟩⟩⟩

/-- The session after an effect of the active frame, which has executed the instruction at `pc` of the method
with this name. -/
def apply (callers : Stack Frame) (steps : Nat) (name : String) (pc : Nat) : Effect → Session
  | .stay f heap => ⟨callers.push f, heap, steps, .running⟩
  | .call caller callee heap => ⟨(callers.push caller).push callee, heap, steps, .running⟩
  | .give value heap => give limits callers heap steps name pc value
  | .fault kind f heap => ⟨callers.push f, heap, steps, .faulted ⟨kind, some ⟨name, pc⟩⟩⟩

/-- Executes one instruction of the active frame. A halted session stays as it is. -/
def step : Session → Session
  | ⟨frames, heap, steps, .running⟩ =>
    match frames.pop? with
    | some (f, callers) =>
      match p.fetch? f with
      | some (m, i) =>
        apply limits callers (steps + 1) m.name f.pc (.ofInstruction p limits (callers.height + 1) heap f i)
      -- A frame is always at an instruction of its method, so this and the next case do not arise.
      | none => ⟨callers.push f, heap, steps, .running⟩
    | none => ⟨.empty, heap, steps, .running⟩
  | s => s

/-- Executes up to `n` instructions, as long as the session runs. -/
def advance : (n : Nat) → Session → Session
  | 0, s => s
  | n + 1, s => if s.status.isHalted then s else advance n (s.step p limits)

/-- The greatest number of steps a session counts. -/
def maxSteps : Nat := 0xffffffffffffffff

/-- How many more steps a budget allows. -/
def allowance (budget : Nat) (s : Session) : Nat :=
  min (s.steps + budget) maxSteps - s.steps

/-- The number of instructions of one round. -/
def roundSize : Nat := 0x100000000

/-- Executes up to `n` rounds of instructions, as long as the session runs. -/
def advanceRounds : (n : Nat) → Session → Session
  | 0, s => s
  | n + 1, s => if s.status.isHalted then s else advanceRounds n (s.advance p limits roundSize)

/-- Executes instructions until the session halts or the budget is spent: whole rounds first, so that counting
stays with small numbers, and then the rest. -/
def runFor (budget : Nat) (s : Session) : Session :=
  let n := s.allowance budget
  (s.advanceRounds p limits (n / roundSize)).advance p limits (n % roundSize)

/-- Executes instructions until the session halts, within the steps it can count. -/
def run (s : Session) : Session :=
  s.runFor p limits maxSteps

theorem advance_of_halted {s : Session} (h : s.status.isHalted = true) : ∀ n, s.advance p limits n = s
  | 0 => rfl
  | _ + 1 => by simp [advance, h]

theorem advance_add (n m : Nat) (s : Session) :
    s.advance p limits (n + m) = (s.advance p limits n).advance p limits m := by
  induction n generalizing s with
  | zero => simp [advance]
  | succ n ih =>
    rw [Nat.succ_add]
    by_cases h : s.status.isHalted = true
    · simp [advance, h, advance_of_halted p limits h]
    · simp [advance, h, ih]

theorem advanceRounds_eq (n : Nat) (s : Session) :
    s.advanceRounds p limits n = s.advance p limits (n * roundSize) := by
  induction n generalizing s with
  | zero => simp [advanceRounds, advance]
  | succ n ih =>
    by_cases h : s.status.isHalted = true
    · simp [advanceRounds, h, advance_of_halted p limits h]
    · rw [show (n + 1) * roundSize = roundSize + n * roundSize by rw [Nat.succ_mul, Nat.add_comm], advance_add]
      simp [advanceRounds, h, ih]

/-- A budget is a number of instructions. -/
theorem runFor_eq_advance (budget : Nat) (s : Session) :
    s.runFor p limits budget = s.advance p limits (s.allowance budget) := by
  rw [runFor, advanceRounds_eq, ← advance_add, Nat.div_add_mod']

end

end Session

end StackMachine
