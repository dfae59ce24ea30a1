import StackMachine.Method

/-! Programs: methods in order, no two of one name. -/

namespace StackMachine

namespace Program

/-- The first name that stands among the names before it, where `seen` come before all of them. -/
def firstRepeated? (seen : List String) : List String → Option String
  | [] => none
  | name :: names => if name ∈ seen then some name else firstRepeated? (name :: seen) names

/-- The first method name that is taken already. -/
def duplicate? (methods : Array Method) : Option String :=
  firstRepeated? [] (methods.toList.map (·.name))

end Program

/-- Methods with different names, in the order in which they are declared. -/
structure Program where
  methods : Array Method
  distinct : Program.duplicate? methods = none
deriving DecidableEq

namespace Program

/-- The program of these methods, unless two of them share a name. -/
def load (methods : Array Method) : Except LoadError Program :=
  match h : duplicate? methods with
  | none => .ok ⟨methods, h⟩
  | some name => .error (.duplicateMethod name)

/-- The place of the method with this name. -/
def find? (p : Program) (name : String) : Option (Fin p.methods.size) :=
  p.methods.findFinIdx? fun m => m.name == name

/-- The index of the method with this name. -/
def resolve? (p : Program) (name : String) : Option Nat :=
  (p.find? name).map (·.val)

/-- The method at a place. -/
def method (p : Program) (i : Fin p.methods.size) : Method :=
  p.methods[i]

/-- The method with this name. -/
def get? (p : Program) (name : String) : Option Method :=
  (p.find? name).map p.method

end Program

end StackMachine
