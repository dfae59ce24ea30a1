import StackMachine.Command.Run
import StackMachine.Proofs.Assembly.Size
import StackMachine.Proofs.Command.FileTree
import StackMachine.Proofs.Module.Format

/-! Compiling to a file does not change a program: wherever files keep what is written to them, the module that
assembling a text has written is run and listed as the text itself would be, whatever options a run is given. -/

namespace StackMachine

/-! ### Options after a path -/

namespace Options
variable {allowEntry : Bool}

/-- The options with these words in front of the positional ones. -/
def behind (names : List String) (o : Options) : Options :=
  { o with positional := names ++ o.positional }

theorem set_behind (names : List String) (flag value : String) (o : Options) :
    (o.behind names).set allowEntry flag value = behind names <$> o.set allowEntry flag value := by
  unfold set
  split
  · rfl
  · split
    · cases number flag value <;> rfl
    · split
      · cases number flag value <;> rfl
      · split
        · cases number flag value <;> rfl
        · rfl

theorem add_behind (names words : List String) (o : Options) :
    (o.behind names).add allowEntry words = behind names <$> o.add allowEntry words := by
  fun_induction o.add allowEntry words with
  | case1 o => rfl
  | case2 o word hflag =>
    simp only [add, hflag, if_true]
    rfl
  | case3 o word hflag =>
    simp only [add, hflag, Bool.false_eq_true, if_false, behind, List.append_assoc]
    rfl
  | case4 o word value rest hflag ih =>
    simp only [add, hflag, if_true, set_behind]
    cases o.set allowEntry word value with
    | error e => rfl
    | ok o' => exact ih o'
  | case5 o word value rest hflag ih =>
    have hmove : { o.behind names with positional := (o.behind names).positional ++ [word] } =
        behind names { o with positional := o.positional ++ [word] } := by
      simp only [behind, List.append_assoc]
    rw [add, if_neg hflag, hmove]
    exact ih

/-- A path in front of other words is the first of the positional ones. -/
theorem ofArgs_cons {path : String} (h : isFlag path = false) (words : List String) :
    ofArgs allowEntry (path :: words) = behind [path] <$> ofArgs allowEntry words := by
  have hadd : ofArgs allowEntry (path :: words) = add allowEntry (behind [path] {}) words := by
    cases words with
    | nil => simp [ofArgs, add, h, behind]
    | cons word words => simp [ofArgs, add, h, behind]
  rw [hadd, add_behind]
  rfl

end Options

/-! ### Files that keep what they are given -/

/-- The laws of writing that a compiled file relies on, for a write to `output` in one state. They do not hold of a
device, which keeps nothing, nor of two names of one file. -/
structure Files.Stores {σ : Type} [Files (StateM σ)] (s : σ) (output input : String) : Prop where
  /-- What was written is read back. -/
  written {bytes : List UInt8} {s' : σ} : (Files.write output bytes : StateM σ _).run s = (.ok (), s') →
    (Files.read output : StateM σ _).run s' = (.ok bytes, s')
  /-- The other file is as it was. -/
  kept {bytes : List UInt8} {s' : σ} {content : Command.Content} :
    (Files.write output bytes : StateM σ _).run s = (.ok (), s') →
    (Files.read input : StateM σ _).run s = (content, s) → (Files.read input : StateM σ _).run s' = (content, s')

namespace Command
variable {σ : Type} [Files (StateM σ)] {s s' : σ} {input output path path' : String} {bytes : List UInt8}
  {content content' : Content}

/-! ### Commands from a state of the files -/

/-- What a command reports, and the state of the files that it leaves. -/
def exec (args : List String) (s : σ) : Report × σ :=
  (run args : StateM σ Report).run s

theorem exec_run_of_error {args : List String} {e : CommandError} (h : callOf args = .error e) (s : σ) :
    exec ("run" :: args) s = (e.report, s) := by
  simp only [exec, run, runFile, h]
  rfl

theorem exec_run_of_ok {args : List String} {c : Call} (h : callOf args = .ok c)
    (hread : (Files.read c.path : StateM σ _).run s = (content, s)) :
    exec ("run" :: args) s = (reportOf (called c content), s) := by
  simp only [exec, run, runFile, h]
  exact run_bind_of_eq hread

theorem exec_disassemble (hread : (Files.read path : StateM σ _).run s = (content, s)) :
    exec ["disassemble", path] s = (reportOf (listed path content), s) := by
  simp only [exec, run, disassembleFile]
  exact run_bind_of_eq hread

theorem exec_assemble (hread : (Files.read input : StateM σ _).run s = (content, s)) :
    exec ["assemble", input, "-o", output] s =
      match assemblyOf input content with
      | .error e => (e.report, s)
      | .ok p =>
        ((fun written => reportOf (assembled p output written)) <$> (Files.write output p.encode : StateM σ _)).run s := by
  simp only [exec, run, assembleFile, assembleTo, outputPath, if_true]
  refine (run_bind_of_eq hread).trans ?_
  cases assemblyOf input content <;> rfl

theorem exitCode_report_ne_zero (e : CommandError) : e.report.exitCode ≠ 0 := by
  cases e <;> simp [CommandError.report, CommandError.exitCode]

/-- Assembling succeeds only with a program, which it has written as a module. -/
theorem exec_assemble_eq {r : Report} (hread : (Files.read input : StateM σ _).run s = (content, s))
    (h : exec ["assemble", input, "-o", output] s = (r, s')) (hr : r.exitCode = 0) :
    ∃ p, assemblyOf input content = .ok p ∧ (Files.write output p.encode : StateM σ _).run s = (.ok (), s') := by
  rw [exec_assemble hread] at h
  cases hp : assemblyOf input content with
  | error e =>
    rw [hp] at h
    cases h
    exact absurd hr (exitCode_report_ne_zero e)
  | ok p =>
    rw [hp] at h
    rcases hwrite : (Files.write output p.encode : StateM σ _).run s with ⟨written, after⟩
    simp only [StateT.run_map, hwrite] at h
    cases h
    cases written with
    | ok _ => exact ⟨p, rfl, hwrite⟩
    | error e => exact absurd hr (exitCode_report_ne_zero _)

theorem callOf_cons (h : Options.isFlag path = false) (opts : List String) :
    callOf (path :: opts) = (do
      let o ← (Options.ofArgs true opts).mapError .option
      let args ← callArgs o.positional
      return ⟨path, o.entry.getD "main", args, o.allotment⟩) := by
  rw [callOf, Options.ofArgs_cons h]
  cases Options.ofArgs true opts <;> rfl

/-- Runs of two files with one program report the same. -/
theorem exec_run_congr (h : Options.isFlag path = false) (h' : Options.isFlag path' = false)
    (hread : (Files.read path : StateM σ _).run s = (content, s))
    (hread' : (Files.read path' : StateM σ _).run s' = (content', s'))
    (hprogram : programOf path' content' = programOf path content) (opts : List String) :
    exec ("run" :: path' :: opts) s' = ((exec ("run" :: path :: opts) s).1, s') := by
  -- The path comes first, so that the words after it are read alike.
  have hcall := callOf_cons h opts
  have hcall' := callOf_cons h' opts
  cases hoptions : (Options.ofArgs true opts).mapError CommandError.option with
  | error e =>
    rw [hoptions] at hcall hcall'
    rw [exec_run_of_error hcall, exec_run_of_error hcall']
  | ok o =>
    cases hargs : callArgs o.positional with
    | error e =>
      simp only [hoptions, hargs, bind, Except.bind] at hcall hcall'
      rw [exec_run_of_error hcall, exec_run_of_error hcall']
    | ok args =>
      simp only [hoptions, hargs, bind, Except.bind, pure, Except.pure] at hcall hcall'
      rw [exec_run_of_ok hcall hread, exec_run_of_ok hcall' hread']
      simp only [called, hprogram]

/-! ### Compiled files -/

theorem assemblyOf_eq_ok {p : Program} (h : assemblyOf path (.ok bytes) = .ok p) :
    ∃ text, Bytes.toString? bytes = some text ∧ assemble text = .ok p := by
  obtain ⟨text, htext, h⟩ := bind_eq_ok_iff.mp h
  refine ⟨text, ?_, mapError_eq_ok_iff.mp h⟩
  simp only [textOf] at htext
  split at htext
  · rename_i found hfound
    cases htext
    exact hfound
  · cases htext

/-- A text and the module that it was assembled to are one program. Once a text of fewer than `2 ^ 32` bytes is
assembled to a file that stores it, runs of both files report what runs of the text reported before, with any options
and arguments, and the module is listed as the program of the text. -/
theorem exec_compiled {r : Report} (hinput : isText input = true) (hinput' : Options.isFlag input = false)
    (houtput : isText output = false) (houtput' : Options.isFlag output = false)
    (hread : (Files.read input : StateM σ _).run s = (.ok bytes, s)) (hsize : bytes.length < 2 ^ 32)
    (hstores : Files.Stores s output input) (hexec : exec ["assemble", input, "-o", output] s = (r, s'))
    (hexit : r.exitCode = 0) :
    (∀ opts, exec ("run" :: output :: opts) s' = ((exec ("run" :: input :: opts) s).1, s') ∧
      exec ("run" :: input :: opts) s' = ((exec ("run" :: input :: opts) s).1, s')) ∧
    ∃ text p, Bytes.toString? bytes = some text ∧ assemble text = .ok p ∧
      exec ["disassemble", output] s' = (⟨0, p.listing, ""⟩, s') := by
  obtain ⟨p, hassembly, hwrite⟩ := exec_assemble_eq hread hexec hexit
  obtain ⟨text, htext, hp⟩ := assemblyOf_eq_ok hassembly
  -- The size of the text bounds all counts and lengths of the module.
  have hdecode : Program.decode p.encode = .ok p := by
    refine decode_encode_of_assemble ?_ hp
    rwa [Bytes.toString?_eq_some_iff.mp htext, Bytes.length_ofString] at hsize
  have hinputRead := hstores.kept hwrite hread
  have houtputRead := hstores.written hwrite
  have hprogram : programOf output (.ok p.encode) = programOf input (.ok bytes) := by
    rw [programOf, programOf, if_pos hinput, houtput, hassembly]
    simp only [Bool.false_eq_true, if_false, moduleOf, hdecode]
    rfl
  refine ⟨fun opts => ⟨?_, ?_⟩, text, p, htext, hp, ?_⟩
  · exact exec_run_congr hinput' houtput' hread houtputRead hprogram opts
  · exact exec_run_congr hinput' hinput' hread hinputRead rfl opts
  · rw [exec_disassemble houtputRead]
    simp only [listed, moduleOf, hdecode]
    rfl

end Command

/-! ### In a file tree -/

theorem Command.isText_iff (path : String) : isText path = true ↔ ".tasm".toList <:+ FileTree.lastName path := by
  rw [isText, List.isSuffixOf_iff_suffix]
  exact (Text.suffix_getLast_splitOn_iff (by decide)).symm

namespace FileTree
variable {t t' : FileTree} {input output path : String} {bytes : List UInt8}

theorem run_read (t : FileTree) (path : String) : (Files.read path : StateM FileTree _).run t = (t.read path, t) :=
  rfl

theorem write_of_run (h : (Files.write path bytes : StateM FileTree _).run t = (.ok (), t')) :
    t.write path bytes = .ok t' := by
  simp only [Files.write, StateT.run_bind, StateT.run_get, pure_bind] at h
  cases hwrite : t.write path bytes with
  | ok after =>
    rw [hwrite] at h
    cases h
    rfl
  | error e =>
    rw [hwrite] at h
    cases h

/-- A tree stores what is written to a path that does not end like a text, unless it leads to the null device. -/
theorem stores (hinput : Command.isText input = true) (houtput : Command.isText output = false)
    (hnull : t.isNull output = false) (hread : t.read input = .ok bytes) : Files.Stores t output input where
  written h := by rw [run_read, read_of_write (write_of_run h) hnull]
  kept h h' := by
    -- The two paths end with different names, so writing the module leaves the text.
    have hnames : lastName input ≠ lastName output := by
      intro heq
      have hsuffix := (Command.isText_iff input).mp hinput
      rw [heq, ← Command.isText_iff, houtput] at hsuffix
      cases hsuffix
    rw [run_read, hread] at h'
    cases h'
    rw [run_read, read_of_write_other (write_of_run h) hread hnames]

end FileTree

namespace Command

/-- A text with one method. -/
def sampleText : String := ".method main 0 0 ; the answer\nPUSH_CONST 7\nRETURN\n.end\n"

/-- A tree with one text, which stands in a directory. -/
def sampleTree : FileTree :=
  FileTree.empty.add "src/seven.tasm" (.file (Bytes.ofString sampleText))

/-- The text is assembled to a file beside its directory, which then runs as it does. -/
theorem exec_compiled_sampleTree :
    Files.Stores sampleTree "seven" "src/seven.tasm" ∧
    (exec ["assemble", "src/seven.tasm", "-o", "seven"] sampleTree).1.exitCode = 0 ∧
    (exec ["run", "seven", "--max-depth", "3"] (exec ["assemble", "src/seven.tasm", "-o", "seven"] sampleTree).2).1 =
      (exec ["run", "src/seven.tasm", "--max-depth", "3"] sampleTree).1 := by
  have hread : sampleTree.read "src/seven.tasm" = .ok (Bytes.ofString sampleText) := by decide +kernel
  have hexit : (exec ["assemble", "src/seven.tasm", "-o", "seven"] sampleTree).1.exitCode = 0 := by decide +kernel
  have hinput : isText "src/seven.tasm" = true := by decide +kernel
  have houtput : isText "seven" = false := by decide +kernel
  have hstores : Files.Stores sampleTree "seven" "src/seven.tasm" :=
    FileTree.stores hinput houtput (by decide +kernel) hread
  rcases hexec : exec ["assemble", "src/seven.tasm", "-o", "seven"] sampleTree with ⟨r, t'⟩
  rw [hexec] at hexit
  have hcompiled := exec_compiled hinput (by decide +kernel) houtput (by decide +kernel)
    ((FileTree.run_read _ _).trans (by rw [hread])) (by decide +kernel) hstores hexec hexit
  exact ⟨hstores, hexit, by rw [(hcompiled.1 ["--max-depth", "3"]).1]⟩

/-- The null device, from any home that is not too deep. -/
def nullPath : String := "../../../../../../../../../../../../dev/null"

/-- A module that is assembled to the null device is lost: the text runs, but its module does not and has no listing. -/
theorem exec_compiled_fails_at_null :
    isText "src/seven.tasm" = true ∧ Options.isFlag "src/seven.tasm" = false ∧
      isText nullPath = false ∧ Options.isFlag nullPath = false ∧
      sampleTree.read "src/seven.tasm" = .ok (Bytes.ofString sampleText) ∧ (Bytes.ofString sampleText).length < 2 ^ 32 ∧
      ∃ r t, exec ["assemble", "src/seven.tasm", "-o", nullPath] sampleTree = (r, t) ∧ r.exitCode = 0 ∧
        (exec ["run", "src/seven.tasm"] t).1.exitCode = 0 ∧ (exec ["run", nullPath] t).1.exitCode = 1 ∧
        (exec ["disassemble", nullPath] t).1.exitCode = 1 := by
  refine ⟨by decide +kernel, by decide +kernel, by decide +kernel, by decide +kernel, by decide +kernel,
    by decide +kernel, _, _, rfl, ?_⟩
  decide +kernel

end Command

end StackMachine
