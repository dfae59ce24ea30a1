import StackMachine.Module.Encode

/-! Reading binary modules. The bytes are read from front to back; each part is checked as it is met, the
names of the methods against each other only at the end. -/

namespace StackMachine

namespace Module

/-- A reader takes what it needs from the front of the bytes that are left. -/
abbrev Reader := StateT (List UInt8) (Except DecodeError)

section Readers
variable (size : Nat)

/-- The next `n` bytes of an input of `size` bytes. An input that is too short ends at its size. -/
def take (n : Nat) : Reader (List UInt8) := fun bytes =>
  let taken := bytes.take n
  if taken.length = n then .ok (taken, bytes.drop n) else .error (.unexpectedEnd size)

/-- A number of a fixed width in bytes. -/
def nat (width : Nat) : Reader Nat := do
  return Bytes.toNat (← take size width)

/-- As many parts as `count` says; each reader is told the position of its part, counted from `start`. -/
def many {α : Type} (part : Nat → Reader α) (start : Nat) : (count : Nat) → Reader (List α)
  | 0 => return []
  | count + 1 => do
    let first ← part start
    let rest ← many part (start + 1) count
    return first :: rest

/-- The name at an index of the table. -/
def name (index : Nat) : Reader String := do
  let bytes ← take size (← nat size 4)
  match Bytes.toString? bytes with
  | some s => return s
  | none => throw (.invalidUtf8 index)

/-- An instruction that refers to these names. -/
def instruction (names : List String) : Reader Instruction := do
  Instruction.ofWord names (Word.ofBytes (← take size Word.size))

/-- A method that refers to these names. -/
def method (names : List String) : Reader Method := do
  let index ← nat size 4
  match names[index]? with
  | none => throw (.nameIndexOutOfRange index names.length)
  | some name =>
    let arity ← nat size 2
    let localCount ← nat size 2
    let code ← many (fun _ => instruction size names) 0 (← nat size 4)
    (Method.load name (UInt16.ofNat arity) (UInt16.ofNat localCount) code.toArray).mapError DecodeError.load

/-- The methods of a module, up to the end of the last one. -/
def methods : Reader (List Method) := do
  let start ← take size magic.length
  if start ≠ magic then
    throw .badMagic
  let v ← take size 1
  if v ≠ [version] then
    throw (.unsupportedVersion (v.headD 0))
  let names ← many (name size) 0 (← nat size 4)
  many (fun _ => method size names) 0 (← nat size 4)

end Readers

end Module

namespace Program

/-- The program in a binary module. -/
def decode (bytes : List UInt8) : Except DecodeError Program := do
  let (methods, rest) ← (Module.methods bytes.length).run bytes
  if rest ≠ [] then
    throw (.trailingBytes rest.length)
  (Program.load methods.toArray).mapError DecodeError.load

end Program

end StackMachine
