import StackMachine.Instruction
import StackMachine.Text.Blank
import StackMachine.Text.Numeral

/-! Method names, and methods. A name has to survive being written in assembly text and read back as one identifier.
A method exists only once it has passed the load checks: its name and the names it calls can be written down, its
arguments fit its local slots, its branches stay inside its code, and control cannot run past its last instruction. -/

namespace StackMachine

/-- The label that a word defines: what stands before a final colon, if that is not empty. -/
def labelOf? (word : List Char) : Option (List Char) :=
  if word.getLast? = some ':' ∧ word.dropLast ≠ [] then some word.dropLast else none

/-- Whether a string can stand as a method name in assembly text: not empty, without blanks and
semicolons, and not read as a numeral, a directive or a label. -/
def isName (name : String) : Bool :=
  let cs := name.toList
  !cs.isEmpty && cs.all (fun c => !Text.isBlank c && c != ';') && !Numeral.startsNumeral cs &&
    cs.head? != some '.' && (labelOf? cs).isNone

/-- Why methods are refused. -/
inductive LoadError where
  | emptyMethod (method : String)
  | arityExceedsLocals (method : String) (arity localCount : UInt16)
  | branchOutOfRange (method : String) (index : Nat) (target : UInt32) (length : Nat)
  | fallsOffEnd (method : String) (last : Opcode)
  | duplicateMethod (method : String)
  | invalidName (method name : String)
deriving DecidableEq

/-- The message of an error, which names the method. -/
def LoadError.message : LoadError → String
  | emptyMethod method => s!"method '{method}' has no instructions"
  | arityExceedsLocals method arity localCount =>
    s!"method '{method}' has arity {arity.toNat} but only {localCount.toNat} local slot(s)"
  | branchOutOfRange method index target length =>
    s!"method '{method}' instruction {index}: branch target {target.toNat} out of range (length {length})"
  | fallsOffEnd method last => s!"method '{method}' can fall off the end (last instruction is {last.mnemonic})"
  | duplicateMethod method => s!"duplicate method '{method}'"
  | invalidName method name => s!"method '{method}': invalid method name '{name}'"

namespace Method

/-- What is wrong with the instruction at an index of a method's code. -/
def instructionError? (method : String) (length index : Nat) : Instruction → Option LoadError
  | .invokeStatic callee _ => if isName callee then none else some (.invalidName method callee)
  | .jump target | .jumpIfFalse target =>
    if target.toNat < length then none else some (.branchOutOfRange method index target length)
  | _ => none

/-- The first load check that fails: name, argument slots, presence of code, its end, and then its
instructions in order. -/
def loadError? (name : String) (arity localCount : UInt16) (code : Array Instruction) : Option LoadError :=
  if !isName name then some (.invalidName name name)
  else if localCount < arity then some (.arityExceedsLocals name arity localCount)
  else match code.back? with
    | none => some (.emptyMethod name)
    | some last =>
      if !last.opcode.isTerminator then some (.fallsOffEnd name last.opcode)
      else code.toList.zipIdx.findSome? fun (i, index) => instructionError? name code.size index i

end Method

/-- A method that has passed the load checks. -/
structure Method where
  name : String
  arity : UInt16
  localCount : UInt16
  code : Array Instruction
  checked : Method.loadError? name arity localCount code = none
deriving DecidableEq

namespace Method

/-- The method with these parts, or the first load check that they fail. -/
def load (name : String) (arity localCount : UInt16) (code : Array Instruction) : Except LoadError Method :=
  match h : loadError? name arity localCount code with
  | none => .ok ⟨name, arity, localCount, code, h⟩
  | some e => .error e

end Method

end StackMachine
