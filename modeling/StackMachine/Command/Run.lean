import StackMachine.Command.Conformance

/-! The commands: assembling a text to a module, listing a module, running a method, and checking fixtures.
What a command makes of the bytes it reads is a function of them; only reading and writing is done in a monad
with files. -/

namespace StackMachine.Command

/-- What reading a file gives. -/
abbrev Content := Except FileError (List UInt8)

/-- Whether a path ends like that of an assembly text. -/
def isText (path : String) : Bool :=
  ".tasm".toList.isSuffixOf path.toList

/-- The text of a file. -/
def textOf (path : String) : Content → Except CommandError String
  | .error e => .error (.unreadable path e)
  | .ok bytes =>
    match Bytes.toString? bytes with
    | some text => .ok text
    | none => .error (.unreadable path .invalidUtf8)

/-- The program of a file with an assembly text. -/
def assemblyOf (path : String) (content : Content) : Except CommandError Program := do
  let text ← textOf path content
  (assemble text).mapError .assembly

/-- The program of a file with a binary module. -/
def moduleOf (path : String) : Content → Except CommandError Program
  | .error e => .error (.unreadable path e)
  | .ok bytes => (Program.decode bytes).mapError .binary

/-- The program of a file, which its path tells to be an assembly text or a binary module. -/
def programOf (path : String) (content : Content) : Except CommandError Program :=
  if isText path then assemblyOf path content else moduleOf path content

/-- The report of a command, also where it fails. -/
def reportOf : Except CommandError Report → Report
  | .ok r => r
  | .error e => e.report

/-! ### Assembling -/

/-- A path with the ending of a module in place of that of a text. -/
def modulePath (path : String) : String :=
  if isText path then String.ofList (path.toList.take (path.toList.length - ".tasm".length)) ++ ".tvmb"
  else path ++ ".tvmb"

/-- Where assembling writes its module: to the path after `-o`, if that comes first after the input. -/
def outputPath (input : String) : (rest : List String) → String
  | "-o" :: output :: _ => output
  | _ => modulePath input

/-- The report of an assembled program, once its module is written. -/
def assembled (p : Program) (output : String) : Except FileError Unit → Except CommandError Report
  | .ok () => .ok ⟨0, "", s!"assembled {p.methods.size} method(s) ({p.encode.length} bytes) -> {output}\n"⟩
  | .error e => .error (.unwritable output e)

/-! ### Listing -/

/-- The report of a listing. -/
def listed (path : String) (content : Content) : Except CommandError Report := do
  let p ← moduleOf path content
  return ⟨0, p.listing, ""⟩

/-! ### Running -/

/-- A call of a method of a program in a file. -/
structure Call where
  path : String
  entry : String
  args : List Int32
  allotment : Allotment

/-- The arguments of a call as numbers. -/
def callArgs (args : List String) : Except CommandError (List Int32) :=
  args.mapM fun arg =>
    match Numeral.int32? arg with
    | some value => .ok value
    | none => .error (.invalidArgument arg)

/-- The call that the arguments ask for. The entry method is `main` unless they name another. -/
def callOf (args : List String) : Except CommandError Call := do
  let o ← (Options.ofArgs true args).mapError .option
  match o.positional with
  | [] =>
    throw (.noInput "run requires an input file"
      "Usage: tinyvm run <file> [--entry NAME] [--max-steps N] [--max-depth N] [--max-stack N] [ARGS...]")
  | path :: rest => return ⟨path, o.entry.getD "main", ← callArgs rest, o.allotment⟩

/-- The report of an outcome: only a value that was returned is a success. -/
def outcomeReport : Outcome → Except CommandError Report
  | .returned value => .ok ⟨0, s!"{value.toInt}\n", ""⟩
  | .faulted fault => .error (.faulted fault)
  | .exhausted steps => .error (.exhausted steps)

/-- The report of a call of a method of the program in a file. -/
def called (c : Call) (content : Content) : Except CommandError Report := do
  let p ← programOf c.path content
  outcomeReport (p.execute c.allotment c.entry c.args)

/-! ### Checking fixtures -/

/-- Whether a name in a directory is that of a fixture, which has something in front of its ending. -/
def isFixture (name : String) : Bool :=
  isText name && name ≠ ".tasm"

/-- A name in a directory as a path. -/
def join (directory name : String) : String :=
  if directory.toList.getLast? = some '/' then directory ++ name else directory ++ "/" ++ name

/-- The fixtures that a path stands for: those in a directory in the order of their names, and otherwise the
path itself. -/
def fixturesOf (path : String) : Option (Except FileError (List String)) → Except CommandError (List String)
  | none => .ok [path]
  | some (.error e) => .error (.unreadable path e)
  | some (.ok names) => .ok (((names.filter isFixture).mergeSort fun a b => !(b < a)).map (join path))

/-- The paths and the allotment that the arguments give. -/
def fixtureArgs (args : List String) : Except CommandError (List String × Allotment) := do
  let o ← (Options.ofArgs false args).mapError .option
  if o.positional.isEmpty then
    throw (.noInput "conformance requires at least one fixture or directory"
      "Usage: tinyvm conformance <fixture.tasm|dir>... [--max-steps N]")
  return (o.positional, o.allotment)

/-- What checking a fixture file gives. -/
def checked (a : Allotment) (path : String) (content : Content) : Checked where
  path := path
  result := do
    let text ← textOf path content
    (Fixture.check a text).mapError (.fixture path)

/-! ### Commands in a monad with files -/

section
variable {m : Type → Type} [Monad m] [Files m]

/-- Assembles a text to a module. -/
def assembleTo (input output : String) : m Report := do
  match assemblyOf input (← Files.read input) with
  | .error e => return e.report
  | .ok p => return reportOf (assembled p output (← Files.write output p.encode))

/-- The command `assemble`. -/
def assembleFile : (args : List String) → m Report
  | [] =>
    return (CommandError.noInput "assemble requires an input file"
      "Usage: tinyvm assemble <input.tasm> [-o output.tvmb]").report
  | input :: rest => assembleTo input (outputPath input rest)

/-- The command `disassemble`. -/
def disassembleFile : (args : List String) → m Report
  | [] =>
    return (CommandError.noInput "disassemble requires an input file"
      "Usage: tinyvm disassemble <input.tvmb>").report
  | path :: _ => do return reportOf (listed path (← Files.read path))

/-- The command `run`. -/
def runFile (args : List String) : m Report :=
  match callOf args with
  | .error e => return e.report
  | .ok c => do return reportOf (called c (← Files.read c.path))

/-- The fixtures of all paths, unless a directory cannot be listed. -/
def collect : (paths : List String) → m (Except CommandError (List String))
  | [] => return .ok []
  | path :: rest => do
    match fixturesOf path (← Files.names? path) with
    | .error e => return .error e
    | .ok found => return (found ++ ·) <$> (← collect rest)

/-- The command `conformance`. -/
def checkFiles (args : List String) : m Report :=
  match fixtureArgs args with
  | .error e => return e.report
  | .ok (paths, a) => do
    match ← collect paths with
    | .error e => return e.report
    | .ok fixtures =>
      let results ← fixtures.mapM fun path => do return checked a path (← Files.read path)
      return .ofChecked results

/-- Runs the command that the arguments name. -/
def run : (args : List String) → m Report
  | [] => return ⟨1, "", usage⟩
  | command :: args =>
    if command = "assemble" then assembleFile args
    else if command = "disassemble" then disassembleFile args
    else if command = "run" then runFile args
    else if command = "conformance" then checkFiles args
    else if command = "--help" ∨ command = "-h" ∨ command = "help" then return ⟨0, "", usage⟩
    else return ⟨1, "", s!"error: unknown command '{command}'\n\n" ++ usage⟩

end

end StackMachine.Command
