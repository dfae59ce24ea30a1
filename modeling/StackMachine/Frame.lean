import StackMachine.CellArray
import StackMachine.Fault
import StackMachine.Stack

/-! Frames: one activation of a method, with its own local slots and operand stack. -/

namespace StackMachine

/-- The state of one activation. -/
structure Frame where
  /-- The index of the method in its program. -/
  method : Nat
  /-- The index of the instruction that comes next. -/
  pc : Nat
  locals : CellArray
  /-- The operand stack. -/
  stack : Stack Int32
deriving DecidableEq

namespace Frame

/-- A fresh activation: the arguments take the leading local slots, the other slots hold zero. -/
def ofArgs (method localCount : Nat) (args : List Int32) : Frame :=
  ⟨method, 0, .ofList localCount args, .empty⟩

/-- A fresh activation, if the local slots hold all arguments. -/
def ofArgs? (method localCount : Nat) (args : List Int32) : Option Frame :=
  if args.length ≤ localCount then some (ofArgs method localCount args) else none

/-- Pushes a value on a stack that may hold at most `limit`. -/
@[inline] def push (limit : Nat) (value : Int32) (f : Frame) : Except FaultKind Frame :=
  if f.stack.height < limit then .ok { f with stack := f.stack.push value }
  else .error (.operandStackOverflow limit)

/-- Takes the top value. -/
def pop (f : Frame) : Except FaultKind (Int32 × Frame) :=
  match f.stack.pop? with
  | some (value, rest) => .ok (value, { f with stack := rest })
  | none => .error .stackUnderflow

/-- The top value, which stays. -/
def peek (f : Frame) : Except FaultKind Int32 :=
  match f.stack.pop? with
  | some (value, _) => .ok value
  | none => .error .stackUnderflow

/-- Takes the top `count` values, in the order they were pushed. A stack that holds fewer is left alone. -/
def popArgs (count : Nat) (f : Frame) : Except FaultKind (List Int32 × Frame) :=
  if count ≤ f.stack.height then .ok ((f.stack.toList.take count).reverse, { f with stack := f.stack.drop count })
  else .error .stackUnderflow

/-- The fault of using a local slot that is not there, with the number of slots cut to 16 bits. -/
def invalidSlot (slot : UInt16) (f : Frame) : FaultKind :=
  .invalidSlot slot (UInt16.ofNat f.locals.size)

/-- The value of a local slot. -/
@[inline] def load (slot : UInt16) (f : Frame) : Except FaultKind Int32 :=
  match f.locals.get? slot.toNat with
  | some value => .ok value
  | none => .error (f.invalidSlot slot)

/-- Whether a local slot is there. -/
@[inline] def hasSlot (slot : UInt16) (f : Frame) : Prop :=
  slot.toNat < f.locals.size

@[inline] instance (slot : UInt16) (f : Frame) : Decidable (f.hasSlot slot) :=
  inferInstanceAs (Decidable (slot.toNat < f.locals.size))

/-- Replaces the value of a local slot that is there. -/
@[inline] def setLocal (slot : UInt16) (value : Int32) (f : Frame) : Frame :=
  { f with locals := f.locals.set slot.toNat value }

/-- Replaces the value of a local slot. -/
def store (slot : UInt16) (value : Int32) (f : Frame) : Except FaultKind Frame :=
  if f.hasSlot slot then .ok (f.setLocal slot value) else .error (f.invalidSlot slot)

/-- Moves on to the next instruction with this stack. -/
@[inline] def next (f : Frame) (stack : Stack Int32) : Frame :=
  { f with pc := f.pc + 1, stack := stack }

end Frame

end StackMachine
