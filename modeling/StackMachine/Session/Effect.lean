import StackMachine.Program
import StackMachine.Frame
import StackMachine.Heap

/-! What one instruction does: its effect on the frame that executes it and on the heap. -/

namespace StackMachine

/-- What a session may use. -/
structure Limits where
  /-- Frames on the call stack. -/
  callDepth : Nat := 1024
  /-- Values on the operand stack of one frame. -/
  operandStack : Nat := 4096
  /-- Elements of all arrays together. -/
  heapCells : Nat := 16777216
deriving DecidableEq

/-- The result of an operation. Sums, differences and products wrap around at 32 bits; quotients and
remainders go toward zero and exist only for a divisor other than zero. -/
def Arith.apply : Arith → Int32 → Int32 → Except FaultKind Int32
  | add, a, b => .ok (a + b)
  | sub, a, b => .ok (a - b)
  | mul, a, b => .ok (a * b)
  | div, a, b => if b = 0 then .error .divisionByZero else .ok (a / b)
  | rem, a, b => if b = 0 then .error .divisionByZero else .ok (a % b)

/-- One where the comparison holds, and zero where it does not. -/
def Comparison.apply (op : Comparison) (a b : Int32) : Int32 :=
  let holds : Bool := match op with
    | eq => a = b
    | ne => a ≠ b
    | lt => a < b
    | le => a ≤ b
    | gt => b < a
    | ge => b ≤ a
  if holds then 1 else 0

/-- The method that a call enters, with its index: there is one of that name, it takes that many arguments,
and one more frame may be opened on top of `depth` frames. -/
def Program.callee (p : Program) (limits : Limits) (depth : Nat) (name : String) (argc : Nat) :
    Except FaultKind (Nat × Method) :=
  match p.find? name with
  | none => .error (.unknownMethod name)
  | some i =>
    let m := p.method i
    if argc ≠ m.arity.toNat then .error (.arityMismatch name m.arity argc)
    else if limits.callDepth ≤ depth then .error (.stackOverflow limits.callDepth)
    else .ok (i, m)

/-- What becomes of the active frame, with the heap it leaves. -/
inductive Effect where
  /-- It goes on. -/
  | stay (frame : Frame) (heap : Heap)
  /-- It waits for another frame to return. -/
  | call (caller callee : Frame) (heap : Heap)
  /-- It ends with a value. -/
  | give (value : Int32) (heap : Heap)
  /-- It stops at a fault, as the instruction has left it. -/
  | fault (kind : FaultKind) (frame : Frame) (heap : Heap)
deriving DecidableEq

namespace Effect

/-- Pushes a value, if there is room. -/
@[inline] def push (limits : Limits) (heap : Heap) (f : Frame) (value : Int32) : Effect :=
  match f.push limits.operandStack value with
  | .ok f => stay (f.next f.stack) heap
  | .error kind => fault kind f heap

/-- The operands run out; those that were there are gone. -/
def underflow (heap : Heap) (f : Frame) : Effect :=
  fault .stackUnderflow { f with stack := .empty } heap

/-- Puts a result on a stack that has lost its operands. -/
@[inline] def replace (heap : Heap) (f : Frame) (rest : Stack Int32) : Except FaultKind Int32 → Effect
  | .ok value => stay (f.next (rest.push value)) heap
  | .error kind => fault kind { f with stack := rest } heap

/-- A call takes its arguments from the caller, which then waits at the following instruction. -/
def invoke (p : Program) (limits : Limits) (depth : Nat) (heap : Heap) (f : Frame) (name : String) (argc : UInt16) :
    Effect :=
  match p.callee limits depth name argc.toNat with
  | .error kind => fault kind f heap
  | .ok (index, m) =>
    match f.popArgs argc.toNat with
    | .error kind => fault kind f heap
    | .ok (args, caller) => call (caller.next caller.stack) (Frame.ofArgs index m.localCount.toNat args) heap

/-- The effect of an instruction of the frame on top of `depth` frames, itself included. -/
def ofInstruction (p : Program) (limits : Limits) (depth : Nat) (heap : Heap) (f : Frame) : Instruction → Effect
  | .pushConst value => push limits heap f value
  | .loadLocal slot =>
    match f.load slot with
    | .ok value => push limits heap f value
    | .error kind => fault kind f heap
  | .storeLocal slot =>
    match f.stack.pop? with
    | some (value, rest) =>
      if f.hasSlot slot then stay ((f.setLocal slot value).next rest) heap
      else fault (f.invalidSlot slot) { f with stack := rest } heap
    | none => underflow heap f
  | .dup =>
    match f.stack.pop? with
    | some (value, _) => push limits heap f value
    | none => underflow heap f
  | .pop =>
    match f.stack.pop? with
    | some (_, rest) => stay (f.next rest) heap
    | none => underflow heap f
  | .arith op =>
    match f.stack.pop2? with
    | some (b, a, rest) => replace heap f rest (op.apply a b)
    | none => underflow heap f
  | .neg =>
    match f.stack.pop? with
    | some (a, rest) => replace heap f rest (.ok (-a))
    | none => underflow heap f
  | .compare op =>
    match f.stack.pop2? with
    | some (b, a, rest) => replace heap f rest (.ok (op.apply a b))
    | none => underflow heap f
  | .jump target => stay { f with pc := target.toNat } heap
  | .jumpIfFalse target =>
    match f.stack.pop? with
    | some (value, rest) =>
      if value = 0 then stay { f with pc := target.toNat, stack := rest } heap else stay (f.next rest) heap
    | none => underflow heap f
  | .newArray =>
    match f.stack.pop? with
    | some (length, rest) =>
      match heap.request limits.heapCells length with
      | .ok size => stay (f.next (rest.push heap.nextReference)) (heap.grow size)
      | .error kind => fault kind { f with stack := rest } heap
    | none => underflow heap f
  | .arrayLoad =>
    match f.stack.pop2? with
    | some (index, reference, rest) => replace heap f rest (heap.load reference index)
    | none => underflow heap f
  | .arrayStore =>
    match f.stack.pop3? with
    | some (value, index, reference, rest) =>
      match heap.locate reference index with
      | .ok place => stay (f.next rest) (heap.set place value)
      | .error kind => fault kind { f with stack := rest } heap
    | none => underflow heap f
  | .arrayLength =>
    match f.stack.pop? with
    | some (reference, rest) => replace heap f rest (heap.length reference)
    | none => underflow heap f
  | .invokeStatic name argc => invoke p limits depth heap f name argc
  | .ret =>
    match f.stack.pop? with
    | some (value, _) => give value heap
    | none => underflow heap f

end Effect

end StackMachine
