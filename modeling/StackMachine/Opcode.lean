/-! Opcodes: one per instruction, with a mnemonic and a byte. -/

namespace StackMachine

/-- The arithmetic operations on two operands. -/
inductive Arith where
  | add | sub | mul | div | rem
deriving DecidableEq

/-- The signed comparisons. -/
inductive Comparison where
  | eq | ne | lt | le | gt | ge
deriving DecidableEq

/-- What an instruction does, whatever its operands are. -/
inductive Opcode where
  | pushConst | loadLocal | storeLocal | dup | pop
  | arith (op : Arith) | neg | compare (op : Comparison)
  | jump | jumpIfFalse
  | newArray | arrayLoad | arrayStore | arrayLength
  | invokeStatic | ret
deriving DecidableEq

namespace Opcode

/-- Every opcode, in the order of the bytes. -/
def all : List Opcode :=
  [pushConst, loadLocal, storeLocal, dup, pop, arith .add, arith .sub, arith .mul, arith .div, arith .rem, neg,
    compare .eq, compare .ne, compare .lt, compare .le, compare .gt, compare .ge, jump, jumpIfFalse,
    newArray, arrayLoad, arrayStore, arrayLength, invokeStatic, ret]

/-- The name of an opcode in assembly text. -/
def mnemonic : Opcode → String
  | pushConst => "PUSH_CONST"
  | loadLocal => "LOAD_LOCAL"
  | storeLocal => "STORE_LOCAL"
  | dup => "DUP"
  | pop => "POP"
  | arith .add => "ADD"
  | arith .sub => "SUB"
  | arith .mul => "MUL"
  | arith .div => "DIV"
  | arith .rem => "REM"
  | neg => "NEG"
  | compare .eq => "CMP_EQ"
  | compare .ne => "CMP_NE"
  | compare .lt => "CMP_LT"
  | compare .le => "CMP_LE"
  | compare .gt => "CMP_GT"
  | compare .ge => "CMP_GE"
  | jump => "JUMP"
  | jumpIfFalse => "JUMP_IF_FALSE"
  | newArray => "NEW_ARRAY"
  | arrayLoad => "ARRAY_LOAD"
  | arrayStore => "ARRAY_STORE"
  | arrayLength => "ARRAY_LENGTH"
  | invokeStatic => "INVOKE_STATIC"
  | ret => "RETURN"

/-- The byte of an opcode in a binary module. Zero is the byte of none. -/
def byte : Opcode → UInt8
  | pushConst => 0x01
  | loadLocal => 0x02
  | storeLocal => 0x03
  | dup => 0x04
  | pop => 0x05
  | arith .add => 0x10
  | arith .sub => 0x11
  | arith .mul => 0x12
  | arith .div => 0x13
  | arith .rem => 0x14
  | neg => 0x15
  | compare .eq => 0x20
  | compare .ne => 0x21
  | compare .lt => 0x22
  | compare .le => 0x23
  | compare .gt => 0x24
  | compare .ge => 0x25
  | jump => 0x30
  | jumpIfFalse => 0x31
  | newArray => 0x40
  | arrayLoad => 0x41
  | arrayStore => 0x42
  | arrayLength => 0x43
  | invokeStatic => 0x50
  | ret => 0x51

/-- The opcode of a mnemonic in capital letters. -/
def ofMnemonic? (text : String) : Option Opcode :=
  all.find? fun op => op.mnemonic == text

/-- The opcode with a byte. -/
def ofByte? (b : UInt8) : Option Opcode :=
  all.find? fun op => op.byte == b

/-- Whether control never passes to the following instruction. -/
def isTerminator : Opcode → Bool
  | jump | ret => true
  | _ => false

end Opcode

end StackMachine
