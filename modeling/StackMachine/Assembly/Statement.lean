import StackMachine.Assembly.Token

/-! Statements: what one line of assembly text says. -/

namespace StackMachine

/-- Where a branch goes: to an instruction index, or to a label of its method. -/
inductive Target where
  | index (value : UInt32)
  | label (name : String)
deriving DecidableEq

/-- An instruction whose branch target may still be a label. -/
inductive Draft where
  | ready (instruction : Instruction)
  | jump (target : Target)
  | jumpIfFalse (target : Target)
deriving DecidableEq

/-- What a line says besides a label. -/
inductive Item where
  /-- The line that opens a method. -/
  | start (name : String) (arity localCount : UInt16)
  /-- The line that closes a method. -/
  | finish
  | instruction (draft : Draft)
deriving DecidableEq

/-- A line: an optional label, then an optional item. -/
structure Statement where
  label : Option String
  item : Option Item
deriving DecidableEq

/-- Reading operands takes tokens from the front of those that are left. -/
abbrev Operands := StateT (List Token) (Except LineError)

namespace Operands

section
variable (opcode : String) (expected : Nat)

/-- The next operand of an opcode that expects so many. -/
def next : Operands Token
  | t :: ts => .ok (t, ts)
  | [] => .error (.missingArgument opcode expected)

/-- A number within a range. -/
def number {α : Type} (fit? : Int → Option α) : Operands α := do
  match ← next opcode expected with
  | .number n =>
    match fit? n with
    | some value => return value
    | none => throw (.invalidNumber (toString n))
  | t => throw (.unexpectedToken t.text)

/-- A name, which is an identifier. -/
def name : Operands String := do
  match ← next opcode expected with
  | .ident name => return name
  | t => throw (.unexpectedToken t.text)

/-- A branch target: a number is an instruction index, an identifier a label. -/
def target : Operands Target := do
  match ← next opcode expected with
  | .ident name => return .label name
  | .number n =>
    match Numeral.toUInt32? n with
    | some value => return .index value
    | none => throw (.invalidNumber (toString n))
  | t => throw (.unexpectedToken t.text)

end

/-- Checks that no token is left. -/
def done : Operands Unit
  | [] => .ok ((), [])
  | t :: _ => .error (.unexpectedToken t.text)

/-- The operands of an opcode. -/
def draft (op : Opcode) : Operands Draft := do
  let m := op.mnemonic
  match op with
  | .pushConst => return .ready (.pushConst (← number m 1 Numeral.toInt32?))
  | .loadLocal => return .ready (.loadLocal (← number m 1 Numeral.toUInt16?))
  | .storeLocal => return .ready (.storeLocal (← number m 1 Numeral.toUInt16?))
  | .dup => return .ready .dup
  | .pop => return .ready .pop
  | .arith op => return .ready (.arith op)
  | .neg => return .ready .neg
  | .compare op => return .ready (.compare op)
  | .jump => return .jump (← target m 1)
  | .jumpIfFalse => return .jumpIfFalse (← target m 1)
  | .newArray => return .ready .newArray
  | .arrayLoad => return .ready .arrayLoad
  | .arrayStore => return .ready .arrayStore
  | .arrayLength => return .ready .arrayLength
  | .invokeStatic =>
    let method ← name m 2
    let argc ← number m 2 Numeral.toUInt16?
    return .ready (.invokeStatic method argc)
  | .ret => return .ready .ret

/-- The operands of the directive that opens a method. -/
def start : Operands Item := do
  let method ← name ".method" 3
  let arity ← number ".method" 3 Numeral.toUInt16?
  let localCount ← number ".method" 3 Numeral.toUInt16?
  return .start method arity localCount

end Operands

namespace Item

/-- Reads all of the tokens as operands. -/
def complete (operands : Operands Item) (ts : List Token) : Except LineError Item := do
  let (item, rest) ← operands.run ts
  let _ ← Operands.done.run rest
  return item

/-- The item that starts with a directive. -/
def ofDirective (name : String) (ts : List Token) : Except LineError Item :=
  if name = "method" then complete Operands.start ts
  else if name = "end" then complete (pure .finish) ts
  else .error (.unknownOpcode ("." ++ name))

/-- The item that starts with a mnemonic, in letters of either case. -/
def ofMnemonic (text : String) (ts : List Token) : Except LineError Item :=
  match Opcode.ofMnemonic? (String.ofList (text.toList.map Char.toUpper)) with
  | some op => complete (Item.instruction <$> Operands.draft op) ts
  | none => .error (.unknownOpcode text)

/-- The item of the tokens after the label. -/
def ofTokens : List Token → Except LineError (Option Item)
  | [] => .ok none
  | .directive name :: ts => some <$> ofDirective name ts
  | .ident text :: ts => some <$> ofMnemonic text ts
  | t :: _ => .error (.unexpectedToken t.text)

end Item

namespace Statement

/-- The statement of the tokens of a line. -/
def ofTokens : List Token → Except LineError Statement
  | .label name :: ts => (⟨some name, ·⟩) <$> Item.ofTokens ts
  | ts => (⟨none, ·⟩) <$> Item.ofTokens ts

/-- The statement of a line of text. -/
def ofLine (line : List Char) : Except LineError Statement :=
  Token.ofLine line >>= ofTokens

end Statement

end StackMachine
