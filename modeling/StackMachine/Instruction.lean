import StackMachine.Opcode

/-! Instructions: an opcode with its operands, and their text. -/

namespace StackMachine

/-- Instructions with their operands. Branch targets are indices of instructions. -/
inductive Instruction where
  | pushConst (value : Int32)
  | loadLocal (slot : UInt16)
  | storeLocal (slot : UInt16)
  | dup
  | pop
  | arith (op : Arith)
  | neg
  | compare (op : Comparison)
  | jump (target : UInt32)
  | jumpIfFalse (target : UInt32)
  | newArray
  | arrayLoad
  | arrayStore
  | arrayLength
  | invokeStatic (method : String) (argc : UInt16)
  | ret
deriving DecidableEq

namespace Instruction

/-- An instruction without its operands. -/
def opcode : Instruction → Opcode
  | pushConst _ => .pushConst
  | loadLocal _ => .loadLocal
  | storeLocal _ => .storeLocal
  | dup => .dup
  | pop => .pop
  | arith op => .arith op
  | neg => .neg
  | compare op => .compare op
  | jump _ => .jump
  | jumpIfFalse _ => .jumpIfFalse
  | newArray => .newArray
  | arrayLoad => .arrayLoad
  | arrayStore => .arrayStore
  | arrayLength => .arrayLength
  | invokeStatic _ _ => .invokeStatic
  | ret => .ret

/-- The instruction index that a branch may continue at. -/
def target? : Instruction → Option UInt32
  | jump target | jumpIfFalse target => some target
  | _ => none

/-- The method that a call names. -/
def callee? : Instruction → Option String
  | invokeStatic method _ => some method
  | _ => none

/-- The operands as they are written in assembly text. -/
def operands : Instruction → List String
  | pushConst value => [toString value.toInt]
  | loadLocal slot | storeLocal slot => [toString slot.toNat]
  | jump target | jumpIfFalse target => [toString target.toNat]
  | invokeStatic method argc => [method, toString argc.toNat]
  | _ => []

/-- The mnemonic and the operands, with single spaces between them. -/
def text (i : Instruction) : String :=
  " ".intercalate (i.opcode.mnemonic :: i.operands)

end Instruction

end StackMachine
