import StackMachine.Assembly.Assemble
import StackMachine.Proofs.Assembly.Words
import StackMachine.Proofs.Loaded
import StackMachine.Proofs.Reading

/-! Listings assemble to the program they were written from. Every line of a listing is read as the statement that it
was written for, the statements of a method close as that method, and the methods load as the program. -/

namespace StackMachine

/-! ### Numbers in their ranges -/

namespace Numeral

theorem toInt32?_toInt (value : Int32) : toInt32? value.toInt = some value := by
  have h : -0x80000000 ≤ value.toInt ∧ value.toInt < 0x80000000 := ⟨value.le_toInt, value.toInt_lt⟩
  rw [toInt32?, if_pos h, Int32.ofInt_toInt]

theorem toUInt16?_toNat (value : UInt16) : toUInt16? value.toNat = some value := by
  have h : (0 : Int) ≤ value.toNat ∧ (value.toNat : Int) < 0x10000 := by
    have := value.toNat_lt
    omega
  rw [toUInt16?, if_pos h, Int.toNat_natCast, UInt16.ofNat_toNat]

theorem toUInt32?_toNat (value : UInt32) : toUInt32? value.toNat = some value := by
  have h : (0 : Int) ≤ value.toNat ∧ (value.toNat : Int) < 0x100000000 := by
    have := value.toNat_lt
    omega
  rw [toUInt32?, if_pos h, Int.toNat_natCast, UInt32.ofNat_toNat]

end Numeral

namespace Token

theorem writes_int32 (value : Int32) : Writes (toString value.toInt) (.number value.toInt) := by
  have h := value.le_toInt
  have h' := value.toInt_lt
  exact writes_int (by omega)

theorem writes_uint16 (value : UInt16) : Writes (toString value.toNat) (.number value.toNat) :=
  writes_nat (Nat.lt_trans value.toNat_lt (by decide))

theorem writes_uint32 (value : UInt32) : Writes (toString value.toNat) (.number value.toNat) :=
  writes_nat (Nat.lt_trans value.toNat_lt (by decide))

theorem writes_method : Writes ".method" (.directive "method") := by
  -- Decided over the characters of the word: there are too many characters to decide over all of them.
  have hplain : (".method".toList.all fun c => !Text.isBlank c && c != ';') = true := by decide +kernel
  refine ⟨⟨by decide +kernel, fun c hc => ?_⟩, by decide +kernel⟩
  simpa using List.all_eq_true.mp hplain c hc

end Token

/-! ### Operands -/

namespace Operands
variable {opcode : String} {expected : Nat}

theorem reads_next (t : Token) : Reads (next opcode expected) [t] t := fun _ => rfl

theorem reads_number {α : Type} {fit? : Int → Option α} {n : Int} {value : α} (h : fit? n = some value) :
    Reads (number opcode expected fit?) [.number n] value := by
  refine (reads_next _).bind_nil ?_
  simp only [h]
  exact .pure value

theorem reads_name (s : String) : Reads (name opcode expected) [.ident s] s :=
  (reads_next _).bind_nil (.pure s)

theorem reads_target {n : Int} {value : UInt32} (h : Numeral.toUInt32? n = some value) :
    Reads (target opcode expected) [.number n] (.index value) := by
  refine (reads_next _).bind_nil ?_
  simp only [h]
  exact .pure _

theorem reads_start (name : String) (arity localCount : UInt16) :
    Reads start [.ident name, .number arity.toNat, .number localCount.toNat] (.start name arity localCount) :=
  (reads_name name).bind ((reads_number (Numeral.toUInt16?_toNat arity)).bind
    ((reads_number (Numeral.toUInt16?_toNat localCount)).map _))

end Operands

theorem Item.complete_eq_ok {operands : Operands Item} {ts : List Token} {item : Item} (h : Reads operands ts item) :
    complete operands ts = .ok item := by
  simp only [complete, h.run_eq]
  rfl

namespace Statement
variable {item : Item} {ts : List Token}

theorem ofLine_of_tokens {line : List Char} (h : Token.ofLine line = .ok ts) : ofLine line = ofTokens ts := by
  rw [ofLine, h]
  rfl

theorem ofTokens_directive {name : String} (h : Item.ofDirective name ts = .ok item) :
    ofTokens (.directive name :: ts) = .ok ⟨none, some item⟩ := by
  simp only [ofTokens, Item.ofTokens, h]
  rfl

theorem ofTokens_ident {text : String} (h : Item.ofMnemonic text ts = .ok item) :
    ofTokens (.ident text :: ts) = .ok ⟨none, some item⟩ := by
  simp only [ofTokens, Item.ofTokens, h]
  rfl

end Statement

/-! ### Instructions -/

theorem Opcode.ofMnemonic?_mnemonic (op : Opcode) :
    ofMnemonic? (String.ofList (op.mnemonic.toList.map Char.toUpper)) = some op := by
  cases op with
  | arith op => cases op <;> decide +kernel
  | compare op => cases op <;> decide +kernel
  | _ => decide +kernel

theorem Opcode.isName_mnemonic (op : Opcode) : isName op.mnemonic = true := by
  cases op with
  | arith op => cases op <;> decide +kernel
  | compare op => cases op <;> decide +kernel
  | _ => decide +kernel

namespace Instruction

/-- The tokens that the operands are written for. -/
def operandTokens : Instruction → List Token
  | pushConst value => [.number value.toInt]
  | loadLocal slot | storeLocal slot => [.number slot.toNat]
  | jump target | jumpIfFalse target => [.number target.toNat]
  | invokeStatic method argc => [.ident method, .number argc.toNat]
  | _ => []

/-- The instruction as a statement has it, with an index for its branch target. -/
def draft : Instruction → Draft
  | jump target => .jump (.index target)
  | jumpIfFalse target => .jumpIfFalse (.index target)
  | i => .ready i

/-- The name that the instruction calls, if it is a call, can be written. -/
def Writable (i : Instruction) : Prop :=
  ∀ name, i.callee? = some name → isName name = true

theorem resolve_draft (labels : List (String × UInt32)) (i : Instruction) : i.draft.resolve labels = .ok i := by
  cases i <;> rfl

theorem forall₂_writes {i : Instruction} (hi : i.Writable) :
    List.Forall₂ Token.Writes (i.opcode.mnemonic :: i.operands) (.ident i.opcode.mnemonic :: i.operandTokens) := by
  refine .cons (Token.writes_name i.opcode.isName_mnemonic) ?_
  cases i with
  | pushConst value => exact .cons (Token.writes_int32 value) .nil
  | loadLocal slot => exact .cons (Token.writes_uint16 slot) .nil
  | storeLocal slot => exact .cons (Token.writes_uint16 slot) .nil
  | jump target => exact .cons (Token.writes_uint32 target) .nil
  | jumpIfFalse target => exact .cons (Token.writes_uint32 target) .nil
  | invokeStatic method argc => exact .cons (Token.writes_name (hi method rfl)) (.cons (Token.writes_uint16 argc) .nil)
  | _ => exact .nil

theorem reads_draft (i : Instruction) : Reads (Operands.draft i.opcode) i.operandTokens i.draft := by
  cases i with
  | pushConst value => exact (Operands.reads_number (Numeral.toInt32?_toInt value)).map _
  | loadLocal slot => exact (Operands.reads_number (Numeral.toUInt16?_toNat slot)).map _
  | storeLocal slot => exact (Operands.reads_number (Numeral.toUInt16?_toNat slot)).map _
  | jump target => exact (Operands.reads_target (Numeral.toUInt32?_toNat target)).map _
  | jumpIfFalse target => exact (Operands.reads_target (Numeral.toUInt32?_toNat target)).map _
  | invokeStatic method argc =>
    exact (Operands.reads_name method).bind ((Operands.reads_number (Numeral.toUInt16?_toNat argc)).map _)
  | _ => exact .pure _

theorem ofLine_text {i : Instruction} (hi : i.Writable) :
    Statement.ofLine ("    " ++ i.text).toList = .ok ⟨none, some (.instruction i.draft)⟩ := by
  have htokens : Token.ofLine ("    " ++ i.text).toList = .ok (.ident i.opcode.mnemonic :: i.operandTokens) := by
    have hindent : ("    " ++ i.text).toList = ' ' :: ' ' :: ' ' :: ' ' :: i.text.toList := by simp
    rw [hindent, Token.ofLine_space, Token.ofLine_space, Token.ofLine_space, Token.ofLine_space, text]
    exact Token.ofLine_intercalate (forall₂_writes hi)
  have hitem : Item.ofMnemonic i.opcode.mnemonic i.operandTokens = .ok (.instruction i.draft) := by
    rw [Item.ofMnemonic, i.opcode.ofMnemonic?_mnemonic]
    exact Item.complete_eq_ok (i.reads_draft.map Item.instruction)
  rw [Statement.ofLine_of_tokens htokens, Statement.ofTokens_ident hitem]

theorem spaced_text {i : Instruction} (hi : i.Writable) : Text.Spaced ("    " ++ i.text).toList := by
  rw [String.toList_append]
  exact (Text.spaced_of_all (by decide)).append (Token.spaced_intercalate (forall₂_writes hi))

end Instruction

/-! ### Methods -/

namespace Method
variable (m : Method)

/-- The words of the line that opens the method. -/
def headingWords : List String :=
  [".method", m.name, toString m.arity.toNat, toString m.localCount.toNat]

theorem forall₂_writes_heading :
    List.Forall₂ Token.Writes m.headingWords
      [.directive "method", .ident m.name, .number m.arity.toNat, .number m.localCount.toNat] :=
  .cons Token.writes_method (.cons (Token.writes_name m.isName_name)
    (.cons (Token.writes_uint16 m.arity) (.cons (Token.writes_uint16 m.localCount) .nil)))

theorem ofLine_heading :
    Statement.ofLine (" ".intercalate m.headingWords).toList = .ok ⟨none, some (.start m.name m.arity m.localCount)⟩ := by
  have hitem : Item.ofDirective "method" [.ident m.name, .number m.arity.toNat, .number m.localCount.toNat] =
      .ok (.start m.name m.arity m.localCount) := by
    rw [Item.ofDirective, if_pos rfl]
    exact Item.complete_eq_ok (Operands.reads_start m.name m.arity m.localCount)
  rw [Statement.ofLine_of_tokens (Token.ofLine_intercalate m.forall₂_writes_heading), Statement.ofTokens_directive hitem]

theorem writable_of_mem {i : Instruction} (hi : i ∈ m.code.toList) : i.Writable := by
  intro name hname
  obtain ⟨k, hk⟩ := List.mem_iff_getElem?.mp hi
  rw [Array.getElem?_toList] at hk
  cases i with
  | invokeStatic callee argc =>
    cases hname
    exact isName_callee hk
  | _ => cases hname

theorem spaced_lines : ∀ line ∈ m.lines, Text.Spaced line.toList := by
  intro line hline
  rcases List.mem_append.mp hline with hline | hline
  · rcases List.mem_cons.mp hline with rfl | hline
    · exact Token.spaced_intercalate m.forall₂_writes_heading
    · obtain ⟨i, hi, rfl⟩ := List.mem_map.mp hline
      exact Instruction.spaced_text (m.writable_of_mem hi)
  · rw [List.mem_singleton.mp hline]
    exact Text.spaced_of_all (by decide)

end Method

/-! ### Blocks -/

/-- The open method is headed like `m` and has these instructions. -/
structure Block.Drafts (b : Block) (m : Method) (code : List Instruction) : Prop where
  name : b.name = m.name
  arity : b.arity = m.arity
  localCount : b.localCount = m.localCount
  code : b.code = .ok code

namespace Block.Drafts
variable {b : Block} {m : Method} {code : List Instruction}

theorem start (m : Method) (line : Nat) : (Block.start m.name m.arity m.localCount line).Drafts m [] :=
  ⟨rfl, rfl, rfl, rfl⟩

theorem add (h : b.Drafts m code) (i : Instruction) (line : Nat) : (b.add i.draft line).Drafts m (code ++ [i]) where
  name := h.name
  arity := h.arity
  localCount := h.localCount
  code := by
    have hcode := h.code
    simp only [Block.code, Block.add, Array.toList_push, List.mapM_append] at hcode ⊢
    rw [hcode]
    simp only [List.mapM_cons, i.resolve_draft]
    rfl

theorem close (h : b.Drafts m m.code.toList) : b.close = .ok m := by
  rw [Block.close, h.code, h.name, h.arity, h.localCount]
  simp only [bind, Except.bind, Array.toArray_toList, m.load_parts]
  rfl

end Block.Drafts

/-! ### Assembling -/

namespace Assembly

/-- Adding these lines, the first of which has number `k`, leads from one assembly to the other. -/
def Builds (k : Nat) (a : Assembly) (lines : List String) (a' : Assembly) : Prop :=
  ((lines.map String.toList).zipIdx k).foldlM line a = .ok a'

section
variable {k : Nat} {a a' a'' : Assembly} {s : String} {lines lines' : List String}

theorem Builds.nil : Builds k a [] a := rfl

theorem Builds.cons (hs : a.line (s.toList, k) = .ok a') (h : Builds (k + 1) a' lines a'') :
    Builds k a (s :: lines) a'' := by
  rw [Builds, List.map_cons, List.zipIdx_cons, List.foldlM_cons, hs]
  exact h

theorem Builds.append (h : Builds k a lines a') (h' : Builds (k + lines.length) a' lines' a'') :
    Builds k a (lines ++ lines') a'' := by
  rw [Builds, List.map_append, List.zipIdx_append, List.foldlM_append, show List.foldlM _ _ _ = _ from h,
    List.length_map]
  exact h'

theorem line_of_ofLine {cs : List Char} {st : Statement} (h : Statement.ofLine cs = .ok st) :
    a.line (cs, k) = a.statement k st := by
  simp only [line, h]
  rfl

end

section
variable (k : Nat) (ms : Array Method)

theorem line_empty (a : Assembly) : a.line ("".toList, k) = .ok a := by
  simp only [String.toList_empty]
  rfl

theorem line_heading (m : Method) :
    line ⟨ms, none⟩ ((" ".intercalate m.headingWords).toList, k) =
      .ok ⟨ms, some (.start m.name m.arity m.localCount k)⟩ := by
  rw [line_of_ofLine m.ofLine_heading]
  rfl

theorem line_instruction (b : Block) {i : Instruction} (hi : i.Writable) :
    line ⟨ms, some b⟩ (("    " ++ i.text).toList, k) = .ok ⟨ms, some (b.add i.draft k)⟩ := by
  rw [line_of_ofLine (Instruction.ofLine_text hi)]
  rfl

theorem line_end {b : Block} {m : Method} (h : b.Drafts m m.code.toList) :
    line ⟨ms, some b⟩ (".end".toList, k) = .ok ⟨ms.push m, none⟩ := by
  have hend : Statement.ofLine ".end".toList = .ok ⟨none, some .finish⟩ := by decide +kernel
  rw [line_of_ofLine hend]
  simp only [statement, item, bind, Except.bind, pure, Except.pure, h.close]

/-- Instructions enter the open block one after the other. -/
theorem builds_body {m : Method} {code : List Instruction} (hcode : ∀ i ∈ code, i.Writable) {b : Block}
    {done : List Instruction} (h : b.Drafts m done) :
    ∃ b' : Block, b'.Drafts m (done ++ code) ∧
      Builds k ⟨ms, some b⟩ (code.map fun i => "    " ++ i.text) ⟨ms, some b'⟩ := by
  induction code generalizing b done k with
  | nil => exact ⟨b, by rwa [List.append_nil], .nil⟩
  | cons i code ih =>
    obtain ⟨hi, hcode⟩ := List.forall_mem_cons.mp hcode
    obtain ⟨b', hb', hbuilds⟩ := ih (k + 1) hcode (h.add i k)
    rw [List.append_assoc] at hb'
    exact ⟨b', hb', .cons (line_instruction k ms b hi) hbuilds⟩

theorem builds_lines (m : Method) : Builds k ⟨ms, none⟩ m.lines ⟨ms.push m, none⟩ := by
  obtain ⟨b, hb, hbody⟩ := builds_body (k + 1) ms (fun i hi => m.writable_of_mem hi) (.start m k)
  exact (Builds.cons (line_heading k ms m) hbody).append (.cons (line_end _ ms hb) .nil)

/-- The lines of methods, with empty lines between them, build the methods in order. -/
theorem builds_intercalate (l : List Method) :
    Builds k ⟨ms, none⟩ ([""].intercalate (l.map Method.lines)) ⟨ms ++ l.toArray, none⟩ := by
  induction l generalizing ms k with
  | nil => simpa using Builds.nil
  | cons m l ih =>
    cases l with
    | nil => simpa using builds_lines k ms m
    -- An empty line stands only where another method follows.
    | cons m' l =>
      have hlines : [""].intercalate ((m :: m' :: l).map Method.lines) =
          m.lines ++ "" :: [""].intercalate ((m' :: l).map Method.lines) := by simp
      have hmethods : ms ++ (m :: m' :: l).toArray = ms.push m ++ (m' :: l).toArray := by simp
      rw [hlines, hmethods]
      exact (builds_lines k ms m).append (.cons (line_empty _ _) (ih _ _))

end

end Assembly

/-! ### Listings -/

namespace Program
variable (p : Program)

theorem spaced_lines : ∀ line ∈ p.lines, Text.Spaced line.toList := by
  intro line hline
  rcases Text.mem_of_mem_intercalate hline with hempty | ⟨lines, hlines, hline⟩
  · rw [List.mem_singleton.mp hempty]
    exact List.forall_mem_nil _
  · obtain ⟨m, -, rfl⟩ := List.mem_map.mp hlines
    exact m.spaced_lines line hline

/-- The lines of a listing are those it was written from. -/
theorem numberedLines_listing : Text.numberedLines p.listing = (p.lines.map String.toList).zipIdx 1 := by
  have hlist : p.listing.toList = (p.lines.map String.toList).flatMap (· ++ ['\n']) := by
    simp [listing, List.flatMap_map]
  have hlines : ∀ cs ∈ p.lines.map String.toList, Text.Spaced cs := List.forall_mem_map.mpr p.spaced_lines
  rw [Text.numberedLines, hlist, Text.lines_flatMap hlines]

end Program

/-- A program is assembled from its listing. -/
theorem assemble_listing (p : Program) : assemble p.listing = .ok p := by
  have hbuilds : Assembly.Builds 1 Assembly.empty p.lines ⟨p.methods, none⟩ := by
    simpa [Assembly.empty, Program.lines] using Assembly.builds_intercalate 1 #[] p.methods.toList
  have hfinish : Assembly.finish ⟨p.methods, none⟩ = .ok p := by
    simp only [Assembly.finish, p.load_methods]
    rfl
  rw [assemble, p.numberedLines_listing, show List.foldlM _ _ _ = _ from hbuilds]
  exact hfinish

end StackMachine
