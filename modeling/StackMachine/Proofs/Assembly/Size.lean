import StackMachine.Proofs.Assembly.Acceptance
import StackMachine.Proofs.Assembly.Words
import StackMachine.Proofs.Module.RoundTrip
import StackMachine.Proofs.Text.Pieces

/-! A program is no larger than its text. Headings and instructions have lines of their own, and the names of methods
are pieces of these lines; so the program of a text of fewer than `2 ^ 32` bytes fits a module. -/

namespace StackMachine

/-! ### Names in a line -/

/-- The method that an instruction calls, whether or not its label is resolved. -/
def Draft.callee? : Draft → Option String
  | ready i => i.callee?
  | _ => none

/-- The name of a method in an item, declared or called. -/
def Item.name? : Item → Option String
  | start name _ _ => some name
  | finish => none
  | instruction draft => draft.callee?

/-- The name that a statement declares or calls. -/
def Statement.name? (st : Statement) : Option String :=
  st.item.bind Item.name?

namespace Operands
variable {ts rest : List Token} {name : String}

theorem run_name_eq_ok {opcode : String} {expected : Nat}
    (h : (Operands.name opcode expected).run ts = .ok (name, rest)) : Token.ident name ∈ ts := by
  obtain ⟨t, mid, hnext, h⟩ := run_bind_eq_ok_iff.mp h
  cases ts with
  | nil => cases hnext
  | cons first ts =>
    cases hnext
    cases t with
    | ident text =>
      cases h
      exact List.mem_cons_self
    | number value => cases h
    | directive text => cases h
    | label text => cases h

theorem run_start_eq_ok {item : Item} (h : start.run ts = .ok (item, rest)) (hname : item.name? = some name) :
    Token.ident name ∈ ts := by
  obtain ⟨method, mid, hmethod, h⟩ := run_bind_eq_ok_iff.mp h
  obtain ⟨arity, mid', -, h⟩ := run_bind_eq_ok_iff.mp h
  obtain ⟨localCount, mid'', -, h⟩ := run_bind_eq_ok_iff.mp h
  cases h
  cases hname
  exact run_name_eq_ok hmethod

/-- Of all opcodes, only a call has a method name among its operands. -/
theorem run_draft_eq_ok {op : Opcode} {draft : Draft} (h : (Operands.draft op).run ts = .ok (draft, rest))
    (hname : draft.callee? = some name) : Token.ident name ∈ ts := by
  cases op with
  | invokeStatic =>
    obtain ⟨method, mid, hmethod, h⟩ := run_bind_eq_ok_iff.mp h
    obtain ⟨argc, mid', -, h⟩ := run_bind_eq_ok_iff.mp h
    cases h
    cases hname
    exact run_name_eq_ok hmethod
  | pushConst | loadLocal | storeLocal | jump | jumpIfFalse =>
    obtain ⟨operand, mid, -, h⟩ := run_bind_eq_ok_iff.mp h
    cases h
    cases hname
  | _ =>
    cases h
    cases hname

end Operands

section
variable {ts : List Token} {name : String}

theorem Item.complete_eq_ok_run {operands : Operands Item} {item : Item} (h : complete operands ts = .ok item) :
    ∃ rest, operands.run ts = .ok (item, rest) := by
  obtain ⟨⟨read, rest⟩, hrun, h⟩ := bind_eq_ok_iff.mp h
  obtain ⟨done, -, h⟩ := bind_eq_ok_iff.mp h
  cases h
  exact ⟨rest, hrun⟩

theorem Item.ident_mem_of_ofTokens {item : Item} (h : ofTokens ts = .ok (some item)) (hname : item.name? = some name) :
    Token.ident name ∈ ts := by
  cases ts with
  | nil => cases h
  | cons t ts =>
    -- The first token is a directive or a mnemonic. Names stand behind it.
    refine List.mem_cons_of_mem _ ?_
    cases t with
    | directive text =>
      obtain ⟨read, h, heq⟩ := map_eq_ok_iff.mp h
      cases heq
      simp only [ofDirective] at h
      split at h
      · obtain ⟨rest, h⟩ := complete_eq_ok_run h
        exact Operands.run_start_eq_ok h hname
      · split at h
        · obtain ⟨rest, h⟩ := complete_eq_ok_run h
          cases h
          cases hname
        · cases h
    | ident text =>
      obtain ⟨read, h, heq⟩ := map_eq_ok_iff.mp h
      cases heq
      simp only [ofMnemonic] at h
      split at h
      · obtain ⟨rest, h⟩ := complete_eq_ok_run h
        rw [StateT.run_map] at h
        obtain ⟨⟨draft, mid⟩, hdraft, heq⟩ := map_eq_ok_iff.mp h
        cases heq
        exact Operands.run_draft_eq_ok hdraft hname
      · cases h
    | number value => cases h
    | label text => cases h

theorem Statement.ident_mem_of_ofTokens {st : Statement} (h : ofTokens ts = .ok st) (hname : st.name? = some name) :
    Token.ident name ∈ ts := by
  obtain ⟨item, hitem, hname⟩ := Option.bind_eq_some_iff.mp hname
  unfold ofTokens at h
  split at h
  · obtain ⟨read, hread, rfl⟩ := map_eq_ok_iff.mp h
    cases hitem
    exact List.mem_cons_of_mem _ (Item.ident_mem_of_ofTokens hread hname)
  · obtain ⟨read, hread, rfl⟩ := map_eq_ok_iff.mp h
    cases hitem
    exact Item.ident_mem_of_ofTokens hread hname

theorem Token.isInfix_of_ofLine {line : List Char} (h : ofLine line = .ok ts) (hname : ident name ∈ ts) :
    name.toList <:+: line := by
  obtain ⟨w, hw, hword⟩ := exists_of_mem_right (mapM_eq_ok_iff.mp h) _ hname
  obtain ⟨-, -, -, rfl⟩ := ofWord_eq_ident_iff.mp hword
  exact (Text.isInfix_of_mem_words hw).trans (List.takeWhile_prefix _).isInfix

/-- A name in a statement is a piece of its line. -/
theorem Statement.isInfix_of_ofLine {line : List Char} {st : Statement} (h : ofLine line = .ok st)
    (hname : st.name? = some name) : name.toList <:+: line := by
  obtain ⟨ts, hts, hst⟩ := bind_eq_ok_iff.mp h
  exact Token.isInfix_of_ofLine hts (ident_mem_of_ofTokens hst hname)

end

/-! ### Names and sizes of a program -/

theorem Statement.Spell.sublist {sts : List Statement} {ts : List MethodText} (h : Spell sts ts) :
    (ts.flatMap (·.statements)).Sublist sts := by
  induction h with
  | nil => exact List.Sublist.refl _
  | empty _ ih => exact ih.cons _
  | method t _ ih => exact (List.Sublist.refl _).append ih

theorem Draft.StandsFor.callee?_eq {position : String → Nat} {draft : Draft} {i : Instruction}
    (h : draft.StandsFor position i) : i.callee? = draft.callee? := by
  cases draft with
  | ready j =>
    cases h
    rfl
  | jump target =>
    obtain ⟨index, -, rfl⟩ := h
    rfl
  | jumpIfFalse target =>
    obtain ⟨index, -, rfl⟩ := h
    rfl

theorem Draft.filterMap_callee?_eq {position : String → Nat} {drafts : List Draft} {code : List Instruction}
    (h : List.Forall₂ (StandsFor position) drafts code) :
    code.filterMap (·.callee?) = drafts.filterMap (·.callee?) := by
  induction h with
  | nil => rfl
  | cons hdraft _ ih => rw [List.filterMap_cons, List.filterMap_cons, ih, hdraft.callee?_eq]

namespace MethodText.StandsFor
variable {t : MethodText} {m : Method}

theorem size_code_le (h : t.StandsFor m) : m.code.size ≤ t.statements.length := by
  obtain ⟨code, hcode, hload⟩ := h
  have hdrafts := BodyLine.length_drafts_le t.lines
  rw [hcode.length_eq] at hdrafts
  rw [Method.code_of_load hload, List.size_toArray]
  refine Nat.le_trans hdrafts ?_
  simp [lines, statements]

/-- A method declares and calls what its text does. -/
theorem names_eq (h : t.StandsFor m) : m.names = t.statements.filterMap Statement.name? := by
  obtain ⟨code, hcode, hload⟩ := h
  have hlines : BodyLine.drafts t.lines = t.body.filterMap (·.draft) := by
    rw [lines, BodyLine.drafts_append]
    exact List.append_nil _
  have hstatement : ∀ l : BodyLine, l.statement.name? = l.draft.bind (·.callee?) := by
    rintro ⟨label, draft⟩
    cases draft <;> rfl
  have hend : [(⟨t.endLabel, some .finish⟩ : Statement)].filterMap Statement.name? = [] := rfl
  have hstart : Statement.name? ⟨none, some (.start t.name t.arity t.localCount)⟩ = some t.name := rfl
  rw [Method.names, Method.name_of_load hload, Method.code_of_load hload, Draft.filterMap_callee?_eq hcode, hlines,
    statements, List.filterMap_cons_some hstart, List.filterMap_append, hend, List.append_nil, List.filterMap_map,
    List.filterMap_filterMap]
  congr 2
  funext l
  exact (hstatement l).symm

end MethodText.StandsFor

/-- The names of a program are those of its text. -/
theorem MethodText.flatMap_names_eq {ts : List MethodText} {ms : List Method} (h : List.Forall₂ StandsFor ts ms) :
    ms.flatMap (·.names) = (ts.flatMap (·.statements)).filterMap Statement.name? := by
  induction h with
  | nil => rfl
  | cons ht _ ih => rw [List.flatMap_cons, List.flatMap_cons, List.filterMap_append, ih, ht.names_eq]

theorem Program.size_methods_le (p : Program) : p.methods.size ≤ p.names.length := by
  have h : ∀ ms : List Method, ms.length ≤ (ms.flatMap (·.names)).length := by
    intro ms
    induction ms with
    | nil => exact Nat.zero_le _
    | cons m ms ih =>
      rw [List.flatMap_cons, List.length_append, List.length_cons, Method.names, List.length_cons]
      omega
  exact h p.methods.toList

/-- What a text of fewer than `2 ^ 32` bytes assembles to fits a module. -/
theorem fitsModule_of_assemble {text : String} {p : Program} (hsize : text.utf8ByteSize < 2 ^ 32)
    (h : assemble text = .ok p) : p.FitsModule := by
  have hlines : (Text.lines text.toList).length ≤ text.utf8ByteSize :=
    Nat.le_trans (Text.length_lines_le _) (Text.length_le_utf8ByteSize text)
  obtain ⟨ts, ⟨sts, hsts, hspell⟩, -, hmethods⟩ := (assemble_eq_ok_iff (Nat.lt_of_le_of_lt hlines hsize)).mp h
  have hstatements : sts.length < 2 ^ 32 := by
    rw [← hsts.length_eq]
    omega
  -- Every use of a name has a statement of its own.
  have hsub : p.names.Sublist (sts.filterMap Statement.name?) := by
    rw [Program.names, MethodText.flatMap_names_eq hmethods]
    exact hspell.sublist.filterMap _
  have hnames : p.names.length < 2 ^ 32 :=
    Nat.lt_of_le_of_lt (Nat.le_trans hsub.length_le (List.length_filterMap_le _ _)) hstatements
  refine ⟨Nat.lt_of_le_of_lt p.size_methods_le hnames, ?_, fun m hm => ?_, fun name hname => ?_⟩
  · exact Nat.lt_of_le_of_lt p.names.dedup_sublist.length_le hnames
  · obtain ⟨t, ht, hstands⟩ := exists_of_mem_right hmethods m (Array.mem_toList_iff.mpr hm)
    have htext : t.statements.length ≤ sts.length :=
      ((List.sublist_flatten_of_mem (List.mem_map_of_mem ht)).trans hspell.sublist).length_le
    exact Nat.lt_of_le_of_lt (Nat.le_trans hstands.size_code_le htext) hstatements
  · -- A name comes from a statement, the statement from a line, and the line from the text.
    obtain ⟨st, hst, hst'⟩ := List.mem_filterMap.mp (hsub.subset hname)
    obtain ⟨line, hline, hread⟩ := exists_of_mem_right hsts st hst
    have hinfix := (Statement.isInfix_of_ofLine hread hst').trans (Text.isInfix_of_mem_lines hline)
    exact Nat.lt_of_le_of_lt (Text.utf8ByteSize_le_of_isInfix hinfix) hsize

/-- The module of an assembled text reads back as its program. -/
theorem decode_encode_of_assemble {text : String} {p : Program} (hsize : text.utf8ByteSize < 2 ^ 32)
    (h : assemble text = .ok p) : Program.decode p.encode = .ok p :=
  Program.decode_of_reads (Program.reads_methods (fitsModule_of_assemble hsize h) p.encode.length)

end StackMachine
