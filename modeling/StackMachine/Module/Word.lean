import StackMachine.Method

/-! Instruction words, and what they are made of. Numbers have a fixed width and stand with the least significant
byte first. A module lists the names it uses once and refers to them by position. Every instruction takes eight
bytes: an opcode byte, a reserved byte, a 16-bit field `a` and a 32-bit field `b`; slots and argument counts stand
in `a`, constants, branch targets and name positions in `b`. -/

namespace StackMachine

/-! ### Numbers and strings as bytes -/

namespace Bytes

/-- The lowest `width` bytes of a number, least significant first. -/
def ofNat : (width : Nat) → Nat → List UInt8
  | 0, _ => []
  | width + 1, n => UInt8.ofNat n :: ofNat width (n / 256)

/-- The number with these bytes, least significant first. -/
def toNat (bytes : List UInt8) : Nat :=
  bytes.foldr (fun b n => b.toNat + 256 * n) 0

/-- The bytes of a string in UTF-8. -/
def ofString (s : String) : List UInt8 :=
  s.toUTF8.data.toList

/-- The string with these bytes in UTF-8, if they are valid. -/
def toString? (bytes : List UInt8) : Option String :=
  String.fromUTF8? ⟨bytes.toArray⟩

end Bytes

/-! ### Name tables -/

/-- The names of a module, in order of first use. -/
structure NameTable where
  names : List String
deriving DecidableEq

namespace NameTable

/-- No names. -/
def empty : NameTable := ⟨[]⟩

/-- Adds a name at the end, unless the table has it. -/
def intern (t : NameTable) (name : String) : NameTable :=
  if name ∈ t.names then t else ⟨t.names ++ [name]⟩

/-- Adds names one after the other. -/
def internAll (t : NameTable) (names : List String) : NameTable :=
  names.foldl intern t

/-- The position of a name, or the size of the table for a name that is not there. -/
def index (t : NameTable) (name : String) : Nat :=
  t.names.idxOf name

end NameTable

/-! ### Words -/

/-- Why bytes are not a module. -/
inductive DecodeError where
  | illegalOpcode
  | invalidOpcode (byte : UInt8)
  | reservedByte (byte : UInt8)
  | badMagic
  | unsupportedVersion (version : UInt8)
  | unexpectedEnd (offset : Nat)
  | invalidUtf8 (index : Nat)
  | nameIndexOutOfRange (index count : Nat)
  | trailingBytes (count : Nat)
  | load (cause : LoadError)
deriving DecidableEq

/-- The message of an error. -/
def DecodeError.message : DecodeError → String
  | illegalOpcode => "illegal opcode 0x00"
  | invalidOpcode byte => "invalid opcode: 0x" ++ Numeral.hexByte byte
  | reservedByte byte => "reserved byte is 0x" ++ Numeral.hexByte byte ++ " (must be 0)"
  | badMagic => "bad magic (expected \"TVMB\")"
  | unsupportedVersion version => s!"unsupported module version {version.toNat}"
  | unexpectedEnd offset => s!"unexpected end of input at byte {offset}"
  | invalidUtf8 index => s!"name {index} is not valid UTF-8"
  | nameIndexOutOfRange index count => s!"name index {index} out of range (table has {count} names)"
  | trailingBytes count => s!"{count} trailing byte(s) after last method"
  | load cause => cause.message

/-- The opcode of a byte. Zero is set apart, since blank memory reads as it. -/
def Opcode.decode (b : UInt8) : Except DecodeError Opcode :=
  match ofByte? b with
  | some op => .ok op
  | none => .error (if b = 0 then .illegalOpcode else .invalidOpcode b)

/-- The fields of an instruction word. -/
structure Word where
  opcode : UInt8
  reserved : UInt8
  a : UInt16
  b : UInt32
deriving DecidableEq

namespace Word

/-- The number of bytes of a word. -/
def size : Nat := 8

/-- The bytes of a word. -/
def bytes (w : Word) : List UInt8 :=
  w.opcode :: w.reserved :: (Bytes.ofNat 2 w.a.toNat ++ Bytes.ofNat 4 w.b.toNat)

/-- The word in the first eight bytes. -/
def ofBytes (bytes : List UInt8) : Word where
  opcode := bytes.headD 0
  reserved := (bytes.drop 1).headD 0
  a := UInt16.ofNat (Bytes.toNat ((bytes.drop 2).take 2))
  b := UInt32.ofNat (Bytes.toNat ((bytes.drop 4).take 4))

end Word

namespace Instruction

/-- The word of an instruction, where a call refers to its method by the position in a table that holds it. -/
def word (t : NameTable) (i : Instruction) : Word :=
  let op := i.opcode.byte
  match i with
  | pushConst value => ⟨op, 0, 0, value.toUInt32⟩
  | loadLocal slot | storeLocal slot => ⟨op, 0, slot, 0⟩
  | jump target | jumpIfFalse target => ⟨op, 0, 0, target⟩
  | invokeStatic method argc => ⟨op, 0, argc, UInt32.ofNat (t.index method)⟩
  | _ => ⟨op, 0, 0, 0⟩

/-- The table with the name that an instruction needs. -/
def intern (t : NameTable) (i : Instruction) : NameTable :=
  t.internAll i.callee?.toList

/-- The bytes of an instruction, and the table they refer to. -/
def encode (t : NameTable) (i : Instruction) : List UInt8 × NameTable :=
  ((i.word (i.intern t)).bytes, i.intern t)

/-- The instruction of a word. Fields that the opcode does not use may hold anything. -/
def ofWord (names : List String) (w : Word) : Except DecodeError Instruction := do
  let op ← Opcode.decode w.opcode
  if w.reserved ≠ 0 then
    throw (.reservedByte w.reserved)
  match op with
  | .pushConst => return pushConst w.b.toInt32
  | .loadLocal => return loadLocal w.a
  | .storeLocal => return storeLocal w.a
  | .dup => return dup
  | .pop => return pop
  | .arith op => return arith op
  | .neg => return neg
  | .compare op => return compare op
  | .jump => return jump w.b
  | .jumpIfFalse => return jumpIfFalse w.b
  | .newArray => return newArray
  | .arrayLoad => return arrayLoad
  | .arrayStore => return arrayStore
  | .arrayLength => return arrayLength
  | .invokeStatic =>
    -- Only here does the table matter.
    match names[w.b.toNat]? with
    | some method => return invokeStatic method w.a
    | none => throw (.nameIndexOutOfRange w.b.toNat names.length)
  | .ret => return ret

end Instruction

end StackMachine
