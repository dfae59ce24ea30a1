import StackMachine.Proofs.Assembly.Acceptance

/-! Texts one after the other. Between two methods the assembler keeps nothing but the methods that it has finished and
the number of the line; so a text that follows another one is assembled as it is alone, with its methods after those of
the first text and its lines counted on. -/

namespace StackMachine

/-- A text that is empty or ends with a line feed shares no line with the text after it. -/
theorem Text.lines_append {cs ds : List Char} (h : cs = [] ∨ ∃ front, cs = front ++ ['\n']) :
    lines (cs ++ ds) = lines cs ++ lines ds := by
  rcases h with rfl | ⟨front, rfl⟩
  · rfl
  · have hne := List.splitOn_ne_nil '\n' ds
    have hfront : (front ++ ['\n']).splitOn '\n' = front.splitOn '\n' ++ [[]] :=
      List.splitOn_append_cons_self front []
    have hwhole : (front ++ (['\n'] ++ ds)).splitOn '\n' = front.splitOn '\n' ++ ds.splitOn '\n' :=
      List.splitOn_append_cons_self front ds
    have hlast : (front.splitOn '\n' ++ ds.splitOn '\n').getLast? = (ds.splitOn '\n').getLast? := by
      rw [List.getLast?_append, List.getLast?_eq_some_getLast hne, Option.some_or]
    simp only [lines, hfront, hwhole, hlast, List.dropLast_append_of_ne_nil hne, List.dropLast_concat,
      List.getLast?_concat, Option.getD_some, List.isEmpty_nil, if_true, List.append_nil, List.map_append,
      List.append_assoc]

/-! ### After other lines -/

/-- The error as it is where `k` more lines stand before it. -/
def AssemblyError.later (k : Nat) : AssemblyError → AssemblyError
  | line number cause => .line (number + k) cause
  | load cause => .load cause

/-- The open method as it is where `k` more lines stand before it. -/
def Block.later (k : Nat) (b : Block) : Block :=
  { b with line := b.line + k, body := b.body.map fun x => (x.1, x.2 + k) }

namespace Block
variable (k : Nat) (b : Block)

theorem later_start (name : String) (arity localCount : UInt16) (line : Nat) :
    (start name arity localCount line).later k = start name arity localCount (line + k) := by
  simp [later, start]

theorem later_define (label : String) : (b.later k).define label = later k <$> b.define label := by
  simp only [define, later, Array.size_map]
  split
  · rfl
  · rfl

theorem later_add (draft : Draft) (line : Nat) : (b.later k).add draft (line + k) = (b.add draft line).later k := by
  simp [later, add]

theorem later_code : (b.later k).code = b.code.mapError (.later k) := by
  rw [code, code, ← mapM_mapError]
  simp only [later, Array.toList_map, List.mapM_map]
  congr 1
  funext x
  simp only [Function.comp]
  cases x.1.resolve b.labels <;> rfl

theorem later_close : (b.later k).close = b.close.mapError (.later k) := by
  rw [close, close, later_code]
  cases b.code with
  | error e => rfl
  | ok code =>
    have hload : ∀ x : Except LoadError Method,
        x.mapError AssemblyError.load = (x.mapError AssemblyError.load).mapError (.later k) := by
      intro x
      cases x <;> rfl
    exact hload _

end Block

/-- The assembly as it is where `k` more lines stand before it, from which these methods come. -/
def Assembly.after (ms : Array Method) (k : Nat) (a : Assembly) : Assembly :=
  ⟨ms ++ a.methods, a.current.map (Block.later k)⟩

namespace Assembly
variable (ms : Array Method) (k n : Nat) (a : Assembly)

theorem after_define (label : String) : (a.after ms k).define label = after ms k <$> a.define label := by
  obtain ⟨ms', current⟩ := a
  cases current with
  | none => rfl
  | some b =>
    simp only [define, after, Option.map_some, Block.later_define]
    cases b.define label <;> rfl

theorem after_item (item : Item) :
    (a.after ms k).item (n + k) item = after ms k <$> (a.item n item).mapError (.later k) := by
  obtain ⟨ms', current⟩ := a
  cases item with
  | start name arity localCount =>
    cases current with
    | none =>
      simp only [Assembly.item, after, Option.map_none, ← Block.later_start]
      rfl
    | some b => rfl
  | finish =>
    cases current with
    | none => rfl
    | some b =>
      simp only [Assembly.item, after, Option.map_some, Block.later_close]
      cases b.close with
      | error e => rfl
      | ok m =>
        change Except.ok _ = Except.ok _
        rw [← Array.append_push]
        rfl
  | instruction draft =>
    cases current with
    | none => rfl
    | some b =>
      simp only [Assembly.item, after, Option.map_some, Block.later_add]
      rfl

theorem after_statement (st : Statement) :
    (a.after ms k).statement (n + k) st = after ms k <$> (a.statement n st).mapError (.later k) := by
  obtain ⟨label, item⟩ := st
  -- The label comes first, so the item meets whatever assembly the label has left.
  have hitem : ∀ a' : Assembly, (a'.after ms k).statement (n + k) ⟨none, item⟩ =
      after ms k <$> (a'.statement n ⟨none, item⟩).mapError (.later k) := by
    intro a'
    cases item with
    | none => rfl
    | some item => exact after_item ms k n a' item
  cases label with
  | none => exact hitem a
  | some label =>
    have hlabel : ∀ (a' : Assembly) (n' : Nat), a'.statement n' ⟨some label, item⟩ =
        (a'.define label).mapError (.line n') >>= fun a'' => a''.statement n' ⟨none, item⟩ := fun _ _ => rfl
    rw [hlabel, hlabel, after_define]
    cases a.define label with
    | error e => rfl
    | ok a' => exact hitem a'

theorem after_line (cs : List Char) :
    (a.after ms k).line (cs, n + k) = after ms k <$> (a.line (cs, n)).mapError (.later k) := by
  simp only [line]
  cases Statement.ofLine cs with
  | error e => rfl
  | ok st => exact after_statement ms k n a st

/-- Lines that follow others build what they build alone, after the methods of the others. -/
theorem after_foldlM_line (lines : List (List Char)) :
    (lines.zipIdx (n + k)).foldlM line (a.after ms k) =
      after ms k <$> ((lines.zipIdx n).foldlM line a).mapError (.later k) := by
  induction lines generalizing a n with
  | nil => rfl
  | cons cs lines ih =>
    rw [List.zipIdx_cons, List.zipIdx_cons, List.foldlM_cons, List.foldlM_cons, after_line, Nat.add_right_comm]
    cases a.line (cs, n) with
    | error e => rfl
    | ok a' => exact ih (n + 1) a'

variable {ms k n a}

theorem after_finish_of_error {e : AssemblyError} (h : a.finish = .error e)
    (hdup : ∀ name, e ≠ .load (.duplicateMethod name)) : (a.after ms k).finish = .error (e.later k) := by
  obtain ⟨ms', current⟩ := a
  cases current with
  | some b =>
    cases h
    rfl
  | none =>
    rcases finish_eq_error h with ⟨number, name, rfl⟩ | ⟨name, rfl⟩
    · obtain ⟨cause, -, heq⟩ := mapError_eq_error_iff.mp h
      cases heq
    · exact absurd rfl (hdup name)

theorem foldlM_line_of_assemble {text : String} {p : Program} (h : assemble text = .ok p) :
    (Text.numberedLines text).foldlM line .empty = .ok ⟨p.methods, none⟩ := by
  obtain ⟨a, hlines, hfinish⟩ := bind_eq_ok_iff.mp h
  rw [hlines, finish_eq_ok_iff.mp hfinish]

end Assembly

/-! ### Two texts -/

section
variable {t u : String} (ht : t = "" ∨ ∃ front, t = front ++ "\n")
include ht

theorem assemble_append_eq :
    assemble (t ++ u) = (Text.numberedLines t).foldlM Assembly.line .empty >>= fun a =>
      ((Text.lines u.toList).zipIdx (1 + (Text.lines t.toList).length)).foldlM Assembly.line a >>= Assembly.finish := by
  have hlines : Text.lines (t ++ u).toList = Text.lines t.toList ++ Text.lines u.toList := by
    rw [String.toList_append]
    apply Text.lines_append
    rcases ht with rfl | ⟨front, rfl⟩
    · exact .inl rfl
    · exact .inr ⟨front.toList, by rw [String.toList_append]; rfl⟩
  simp only [assemble, Text.numberedLines, hlines, List.zipIdx_append, List.foldlM_append, bind_assoc]

/-- Where the first text assembles, the second one is assembled after its methods. -/
theorem assemble_append_of_ok {p : Program} (hp : assemble t = .ok p) :
    assemble (t ++ u) = ((Text.numberedLines u).foldlM Assembly.line .empty).mapError
      (.later (Text.lines t.toList).length) >>= fun a =>
        (a.after p.methods (Text.lines t.toList).length).finish := by
  have hstart : (⟨p.methods, none⟩ : Assembly) = Assembly.empty.after p.methods (Text.lines t.toList).length := by
    simp [Assembly.after, Assembly.empty]
  rw [assemble_append_eq ht, Assembly.foldlM_line_of_assemble hp, hstart]
  change (_ >>= Assembly.finish) = _
  rw [Assembly.after_foldlM_line]
  change (Assembly.after _ _ <$> ((Text.numberedLines u).foldlM Assembly.line .empty).mapError _ >>= _) = _
  cases (Text.numberedLines u).foldlM Assembly.line .empty <;> rfl

theorem assemble_append_of_error {e : AssemblyError} (h : assemble t = .error e)
    (hopen : ∀ number name, e ≠ .line number (.unterminatedMethod name))
    (hdup : ∀ name, e ≠ .load (.duplicateMethod name)) : assemble (t ++ u) = .error e := by
  rw [assemble_append_eq ht]
  rcases bind_eq_error_iff.mp h with hlines | ⟨a, -, hfinish⟩
  · rw [hlines]
    rfl
  · rcases Assembly.finish_eq_error hfinish with ⟨number, name, rfl⟩ | ⟨name, rfl⟩
    · exact absurd rfl (hopen number name)
    · exact absurd rfl (hdup name)

theorem assemble_append_of_ok_of_ok {p q : Program} (hp : assemble t = .ok p) (hq : assemble u = .ok q) :
    assemble (t ++ u) = (Program.load (p.methods ++ q.methods)).mapError .load := by
  rw [assemble_append_of_ok ht hp, Assembly.foldlM_line_of_assemble hq]
  rfl

theorem assemble_append_of_ok_of_error {p : Program} {e : AssemblyError} (hp : assemble t = .ok p)
    (h : assemble u = .error e) (hdup : ∀ name, e ≠ .load (.duplicateMethod name)) :
    assemble (t ++ u) = .error (e.later (Text.lines t.toList).length) := by
  rw [assemble_append_of_ok ht hp]
  rcases bind_eq_error_iff.mp h with hlines | ⟨a, hlines, hfinish⟩
  · rw [hlines]
    rfl
  · rw [hlines]
    exact Assembly.after_finish_of_error hfinish hdup

end

/-- The first text fails before the second one is read, unless its fault is one that only its end shows. After a text
that assembles, the second one adds its methods, or fails where it fails alone. -/
theorem assemble_concatenated (t u : String) (ht : t = "" ∨ ∃ front, t = front ++ "\n") :
    (∀ e, assemble t = .error e → (∀ number name, e ≠ .line number (.unterminatedMethod name)) →
      (∀ name, e ≠ .load (.duplicateMethod name)) → assemble (t ++ u) = .error e) ∧
    (∀ p q, assemble t = .ok p → assemble u = .ok q →
      assemble (t ++ u) = (Program.load (p.methods ++ q.methods)).mapError .load ∧
      ((∃ r, assemble (t ++ u) = .ok r ∧ r.methods = p.methods ++ q.methods) ∨
        ∃ name before after, assemble (t ++ u) = .error (.load (.duplicateMethod name)) ∧
          (p.methods ++ q.methods).toList.map (·.name) = before ++ name :: after ∧
          before.Nodup ∧ name ∈ before)) ∧
    ∀ p e, assemble t = .ok p → assemble u = .error e → (∀ name, e ≠ .load (.duplicateMethod name)) →
      assemble (t ++ u) = .error (e.later (Text.lines t.toList).length) := by
  refine ⟨fun e => assemble_append_of_error ht, fun p q hp hq => ?_, fun p e => assemble_append_of_ok_of_error ht⟩
  have heq : assemble (t ++ u) = _ := assemble_append_of_ok_of_ok ht hp hq
  refine ⟨heq, ?_⟩
  rw [heq]
  -- The methods have passed their own checks, so only a name that is repeated can be wrong.
  cases hload : Program.load (p.methods ++ q.methods) with
  | ok r => exact .inl ⟨r, rfl, Program.load_eq_ok_iff.mp hload⟩
  | error e =>
    obtain ⟨name, before, after, rfl, hnames, hnodup, hmem⟩ := Program.exists_of_load_eq_error hload
    exact .inr ⟨name, before, after, rfl, hnames, hnodup, hmem⟩

/-- A text whose second line jumps to a label that its method lacks. -/
def Text.dangling : String := ".method h 0 0\nJUMP a\n.end\n"

theorem assemble_concatenated_looping : assemble (Text.looping ++ "\n") = .ok Program.looping ∧
    assemble Text.dangling = .error (.line 2 (.undefinedLabel "a")) ∧
    assemble (Text.dangling ++ Text.looping) = .error (.line 2 (.undefinedLabel "a")) ∧
    assemble (Text.looping ++ "\n" ++ (Text.looping ++ "\n")) = .error (.load (.duplicateMethod "f")) ∧
    assemble (Text.looping ++ "\n" ++ Text.dangling) = .error (.line 13 (.undefinedLabel "a")) := by
  have hlooping : assemble (Text.looping ++ "\n") = .ok Program.looping := by decide +kernel
  have hdangling : assemble Text.dangling = .error (.line 2 (.undefinedLabel "a")) := by decide +kernel
  have hends : Text.dangling = ".method h 0 0\nJUMP a\n.end" ++ "\n" := by decide
  have hlines : (Text.lines (Text.looping ++ "\n").toList).length = 11 := by decide +kernel
  have hdup : Program.load (Program.looping.methods ++ Program.looping.methods) =
      .error (.duplicateMethod "f") := by decide +kernel
  obtain ⟨hfails, -, -⟩ := assemble_concatenated Text.dangling Text.looping (.inr ⟨_, hends⟩)
  obtain ⟨-, hjoins, -⟩ := assemble_concatenated (Text.looping ++ "\n") (Text.looping ++ "\n") (.inr ⟨_, rfl⟩)
  obtain ⟨-, -, hcounts⟩ := assemble_concatenated (Text.looping ++ "\n") Text.dangling (.inr ⟨_, rfl⟩)
  refine ⟨hlooping, hdangling, hfails _ hdangling (by simp) (by simp), ?_, ?_⟩
  · rw [(hjoins _ _ hlooping hlooping).1, hdup]
    rfl
  · rw [hcounts _ _ hlooping hdangling (by simp), hlines]
    rfl

end StackMachine
