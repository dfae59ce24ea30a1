import StackMachine.Program
import StackMachine.Assembly.Statement

/-! Assembling: the statements of a text, in order, build methods, and the methods a program. Labels belong
to the method they stand in and may be used before they are defined. Listings are programs as assembly text, with
branch targets as indices. -/

namespace StackMachine

/-- A method that is open: its heading, the instructions so far with their lines, and its labels with the
index of the instruction that follows them. -/
structure Block where
  name : String
  arity : UInt16
  localCount : UInt16
  line : Nat
  body : Array (Draft × Nat)
  labels : List (String × UInt32)

namespace Draft

/-- The instruction index of a branch target. -/
def resolveTarget (labels : List (String × UInt32)) : Target → Except LineError UInt32
  | .index value => .ok value
  | .label name =>
    match labels.lookup name with
    | some value => .ok value
    | none => .error (.undefinedLabel name)

/-- The instruction with its label, if it uses one, replaced by an index. -/
def resolve (labels : List (String × UInt32)) : Draft → Except LineError Instruction
  | ready i => .ok i
  | jump target => Instruction.jump <$> resolveTarget labels target
  | jumpIfFalse target => Instruction.jumpIfFalse <$> resolveTarget labels target

end Draft

namespace Block

/-- A method without a body, whose heading is on this line. -/
def start (name : String) (arity localCount : UInt16) (line : Nat) : Block :=
  ⟨name, arity, localCount, line, #[], []⟩

/-- Binds a label to the instruction that comes next. -/
def define (b : Block) (label : String) : Except LineError Block :=
  if (b.labels.lookup label).isSome then .error (.duplicateLabel label)
  else .ok { b with labels := (label, UInt32.ofNat b.body.size) :: b.labels }

/-- Adds an instruction from a line. -/
def add (b : Block) (draft : Draft) (line : Nat) : Block :=
  { b with body := b.body.push (draft, line) }

/-- The code with its labels resolved. -/
def code (b : Block) : Except AssemblyError (List Instruction) :=
  b.body.toList.mapM fun (draft, line) => (draft.resolve b.labels).mapError (.line line)

/-- The finished method. -/
def close (b : Block) : Except AssemblyError Method := do
  let code ← b.code
  (Method.load b.name b.arity b.localCount code.toArray).mapError .load

end Block

/-- What the lines so far have built: the finished methods and the open one. -/
structure Assembly where
  methods : Array Method
  current : Option Block

namespace Assembly

/-- No methods yet. -/
def empty : Assembly := ⟨#[], none⟩

/-- Binds a label, which is possible only inside a method. -/
def define (a : Assembly) (label : String) : Except LineError Assembly :=
  match a.current with
  | some b => do return { a with current := some (← b.define label) }
  | none => .error .instructionOutsideMethod

/-- Takes the item of a line: the heading of a method, its end, or an instruction of it. -/
def item (a : Assembly) (line : Nat) : Item → Except AssemblyError Assembly
  | .start name arity localCount =>
    match a.current with
    | some outer => .error (.line line (.nestedMethod outer.name))
    | none => .ok { a with current := some (Block.start name arity localCount line) }
  | .finish =>
    match a.current with
    | some b => do return ⟨a.methods.push (← b.close), none⟩
    | none => .error (.line line (.unexpectedToken ".end"))
  | .instruction draft =>
    match a.current with
    | some b => .ok { a with current := some (b.add draft line) }
    | none => .error (.line line .instructionOutsideMethod)

/-- Adds a statement: first its label, then its item. -/
def statement (a : Assembly) (line : Nat) (s : Statement) : Except AssemblyError Assembly := do
  let a ← match s.label with
    | some label => (a.define label).mapError (.line line)
    | none => pure a
  match s.item with
  | some item => a.item line item
  | none => return a

/-- Adds a line of text with its number. -/
def line (a : Assembly) (numbered : List Char × Nat) : Except AssemblyError Assembly := do
  let s ← (Statement.ofLine numbered.1).mapError (.line numbered.2)
  a.statement numbered.2 s

/-- The program, if no method is open. -/
def finish (a : Assembly) : Except AssemblyError Program :=
  match a.current with
  | some b => .error (.line b.line (.unterminatedMethod b.name))
  | none => (Program.load a.methods).mapError .load

end Assembly

/-- The program of an assembly text, or the first error in it. -/
def assemble (text : String) : Except AssemblyError Program := do
  let a ← (Text.numberedLines text).foldlM Assembly.line Assembly.empty
  a.finish

/-! ### Listings -/

/-- The lines of a method: a heading, the instructions indented by four spaces, and a closing line. -/
def Method.lines (m : Method) : List String :=
  " ".intercalate [".method", m.name, toString m.arity.toNat, toString m.localCount.toNat] ::
    (m.code.toList.map fun i => "    " ++ i.text) ++ [".end"]

/-- The lines of the methods in order, with an empty line between two of them. -/
def Program.lines (p : Program) : List String :=
  [""].intercalate (p.methods.toList.map (·.lines))

/-- The assembly text of a program. -/
def Program.listing (p : Program) : String :=
  String.join (p.lines.map (· ++ "\n"))

end StackMachine
