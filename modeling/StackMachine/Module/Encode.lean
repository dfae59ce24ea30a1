import StackMachine.Program
import StackMachine.Module.Word

/-! Writing binary modules: a magic number, a version, the table of the names that the methods declare and
call, and the methods with one word per instruction. Counts, lengths and positions take four bytes, arities
and local counts two. -/

namespace StackMachine

namespace Module

/-- The letters `TVMB`. -/
def magic : List UInt8 := [0x54, 0x56, 0x4D, 0x42]

/-- The version of the format. -/
def version : UInt8 := 1

/-- A name with its length in front. -/
def nameBytes (name : String) : List UInt8 :=
  let bytes := Bytes.ofString name
  Bytes.ofNat 4 bytes.length ++ bytes

end Module

/-- Interns a name, and gives its position. -/
def NameTable.position (name : String) : StateM NameTable Nat := do
  modify (·.intern name)
  return (← get).index name

/-- Writes an instruction, and interns the name that it needs. -/
def Instruction.write (i : Instruction) : StateM NameTable (List UInt8) :=
  fun t => i.encode t

namespace Method

/-- The position of the name of a method and the bytes of its code, which intern the names that they need. -/
def body (m : Method) : StateM NameTable (Nat × List UInt8) := do
  let position ← NameTable.position m.name
  let code ← m.code.toList.mapM Instruction.write
  return (position, code.flatten)

/-- A method with its body. -/
def record (m : Method) (body : Nat × List UInt8) : List UInt8 :=
  Bytes.ofNat 4 body.1 ++ Bytes.ofNat 2 m.arity.toNat ++ Bytes.ofNat 2 m.localCount.toNat ++
    Bytes.ofNat 4 m.code.size ++ body.2

end Method

namespace Program

/-- The binary module of a program. The bodies come first, since the table of names that stands in front of them
is known when they are written. -/
def encode (p : Program) : List UInt8 :=
  -- Positions in an unfinished table stay right, since names are only added at its end.
  let (bodies, t) := (p.methods.toList.mapM Method.body).run .empty
  Module.magic ++ [Module.version] ++
    Bytes.ofNat 4 t.names.length ++ t.names.flatMap Module.nameBytes ++
    Bytes.ofNat 4 p.methods.size ++ ((p.methods.toList.zipWith Method.record bodies).flatten)

end Program

end StackMachine
