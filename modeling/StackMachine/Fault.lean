/-! Faults: the conditions that end a session before it returns a value. -/

namespace StackMachine

/-- The kinds of fault, without their particulars. -/
inductive FaultClass where
  | stackUnderflow
  | stackOverflow
  | operandStackOverflow
  | invalidSlot
  | unknownMethod
  | arityMismatch
  | negativeArraySize
  | indexOutOfBounds
  | nullReference
  | divisionByZero
  | heapExhausted
deriving DecidableEq

namespace FaultClass

/-- All classes of faults. -/
def all : List FaultClass :=
  [stackUnderflow, stackOverflow, operandStackOverflow, invalidSlot, unknownMethod, arityMismatch,
    negativeArraySize, indexOutOfBounds, nullReference, divisionByZero, heapExhausted]

/-- The name by which a directive refers to a class. -/
def name : FaultClass → String
  | stackUnderflow => "StackUnderflow"
  | stackOverflow => "StackOverflow"
  | operandStackOverflow => "OperandStackOverflow"
  | invalidSlot => "InvalidSlot"
  | unknownMethod => "UnknownMethod"
  | arityMismatch => "ArityMismatch"
  | negativeArraySize => "NegativeArraySize"
  | indexOutOfBounds => "IndexOutOfBounds"
  | nullReference => "NullReference"
  | divisionByZero => "DivisionByZero"
  | heapExhausted => "HeapExhausted"

/-- The class with a name. -/
def ofName? (text : String) : Option FaultClass :=
  all.find? fun c => c.name == text

end FaultClass

/-- A fault with its particulars. -/
inductive FaultKind where
  /-- An instruction finds fewer operands than it takes. -/
  | stackUnderflow
  /-- A call would exceed the greatest call depth. -/
  | stackOverflow (limit : Nat)
  /-- A value would exceed the greatest height of an operand stack. -/
  | operandStackOverflow (limit : Nat)
  /-- A local slot is outside of those that the method declares. -/
  | invalidSlot (slot localCount : UInt16)
  | unknownMethod (name : String)
  | arityMismatch (name : String) (expected : UInt16) (found : Nat)
  | negativeArraySize (length : Int32)
  | indexOutOfBounds (index : Int32) (length : Nat)
  /-- A value used as an array reference refers to no array. -/
  | nullReference (reference : Int32)
  | divisionByZero
  | heapExhausted (requested limit : Nat)
deriving DecidableEq

namespace FaultKind

/-- The class of a fault. -/
def toClass : FaultKind → FaultClass
  | stackUnderflow => .stackUnderflow
  | stackOverflow _ => .stackOverflow
  | operandStackOverflow _ => .operandStackOverflow
  | invalidSlot _ _ => .invalidSlot
  | unknownMethod _ => .unknownMethod
  | arityMismatch _ _ _ => .arityMismatch
  | negativeArraySize _ => .negativeArraySize
  | indexOutOfBounds _ _ => .indexOutOfBounds
  | nullReference _ => .nullReference
  | divisionByZero => .divisionByZero
  | heapExhausted _ _ => .heapExhausted

/-- The message of a fault, without its place. -/
def message : FaultKind → String
  | stackUnderflow => "operand stack underflow"
  | stackOverflow limit => s!"call stack overflow (max depth {limit})"
  | operandStackOverflow limit => s!"operand stack overflow (max depth {limit})"
  | invalidSlot slot localCount => s!"local slot {slot.toNat} out of range ({localCount.toNat} slot(s))"
  | unknownMethod name => s!"unknown method '{name}'"
  | arityMismatch name expected found => s!"method '{name}' takes {expected.toNat} argument(s), got {found}"
  | negativeArraySize length => s!"negative array size {length.toInt}"
  | indexOutOfBounds index length => s!"array index {index.toInt} out of bounds (length {length})"
  | nullReference reference => s!"null or dangling array reference {reference.toInt}"
  | divisionByZero => "division by zero"
  | heapExhausted requested limit => s!"heap exhausted: {requested} more cell(s) exceeds limit {limit}"

end FaultKind

/-- The instruction that raised a fault. -/
structure Location where
  method : String
  pc : Nat
deriving DecidableEq

/-- A place as it is shown. -/
def Location.text (l : Location) : String :=
  s!"'{l.method}' instruction {l.pc}"

/-- A fault and where it was raised. A session that cannot be entered faults nowhere. -/
structure Fault where
  kind : FaultKind
  location : Option Location
deriving DecidableEq

/-- The message of a fault, with its place if it has one. -/
def Fault.message (f : Fault) : String :=
  match f.location with
  | some l => f.kind.message ++ " at " ++ l.text
  | none => f.kind.message

end StackMachine
