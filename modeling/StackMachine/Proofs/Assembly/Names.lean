import StackMachine.Proofs.Assembly.Size

/-! Method names and identifiers are the same strings. The load check refuses exactly the names that are not read back
as one identifier; so what comes out of the lexer always passes it, and a text can fail for many reasons but never for
a name that cannot be written down. -/

namespace StackMachine

/-! ### Words and identifiers -/

theorem Text.isWord_of_mem_words {line w : List Char} (h : w ∈ words (line.takeWhile (· != ';'))) : IsWord w := by
  obtain ⟨hpiece, hne⟩ := List.mem_filter.mp h
  refine ⟨by simpa using hne, fun c hc => ⟨forall_not_of_mem_splitOnP hpiece c hc, ?_⟩⟩
  have hmem : c ∈ line.takeWhile (· != ';') := (isInfix_of_mem_words h).subset hc
  simpa using List.mem_takeWhile_imp hmem

/-- Every identifier in a line is a name. -/
theorem Token.isName_of_ident_mem {line : List Char} {ts : List Token} {name : String} (h : ofLine line = .ok ts)
    (hname : ident name ∈ ts) : isName name = true := by
  obtain ⟨w, hw, hident⟩ := exists_of_mem_right (mapM_eq_ok_iff.mp h) _ hname
  obtain ⟨-, -, -, rfl⟩ := ofWord_eq_ident_iff.mp hident
  exact isName_iff_writes.mpr ⟨Text.isWord_of_mem_words hw, hident⟩

theorem Token.isName_iff_ofLine {s : String} : isName s = true ↔ ofLine s.toList = .ok [.ident s] := by
  constructor
  · intro h
    have hline := ofLine_intercalate (.cons (writes_name h) .nil)
    rwa [String.intercalate_singleton] at hline
  · intro h
    exact isName_of_ident_mem h List.mem_cons_self

theorem Statement.isName_of_ofLine {line : List Char} {st : Statement} {name : String} (h : ofLine line = .ok st)
    (hname : st.name? = some name) : isName name = true := by
  obtain ⟨ts, hts, hst⟩ := bind_eq_ok_iff.mp h
  exact Token.isName_of_ident_mem hts (ident_mem_of_ofTokens hst hname)

/-! ### The load check on names -/

namespace Method
variable {name : String} {arity localCount : UInt16} {code : Array Instruction}

theorem load_of_not_isName (h : ¬isName name = true) :
    load name arity localCount code = .error (.invalidName name name) := by
  rw [load_eq_error_iff]
  simp [loadError?, h]

theorem isName_of_load {m : Method} (h : load name arity localCount code = .ok m) {callee : String} {argc : UInt16}
    (hmem : .invokeStatic callee argc ∈ code) : isName callee = true := by
  obtain ⟨k, hk⟩ := Array.mem_iff_getElem?.mp hmem
  rw [← code_of_load h] at hk
  exact isName_callee hk

/-- A name is refused only if it is the method's own or one that it calls, and cannot be written down. -/
theorem not_isName_of_load {method bad : String}
    (h : load name arity localCount code = .error (.invalidName method bad)) :
    ¬isName bad = true ∧ (bad = name ∨ ∃ argc, .invokeStatic bad argc ∈ code) := by
  have hcheck := load_eq_error_iff.mp h
  unfold loadError? at hcheck
  split at hcheck
  · rename_i hn
    cases hcheck
    exact ⟨by simpa using hn, .inl rfl⟩
  · split at hcheck
    · cases hcheck
    · split at hcheck
      · cases hcheck
      · split at hcheck
        · cases hcheck
        -- All checks but those of the single instructions have passed.
        · obtain ⟨⟨i, k⟩, hmem, hi⟩ := List.exists_of_findSome?_eq_some hcheck
          have hcode : i ∈ code := Array.mem_toList_iff.mp (List.fst_mem_of_mem_zipIdx hmem)
          cases i with
          | invokeStatic callee argc =>
            simp only [instructionError?] at hi
            split at hi
            · cases hi
            · rename_i hn
              cases hi
              exact ⟨hn, .inr ⟨argc, hcode⟩⟩
          | jump target =>
            simp only [instructionError?] at hi
            split at hi <;> cases hi
          | jumpIfFalse target =>
            simp only [instructionError?] at hi
            split at hi <;> cases hi
          | _ => cases hi

end Method

/-! ### Names in an open method -/

/-- The open method has a name that can be written down, and calls only such names. -/
structure Block.Named (b : Block) : Prop where
  name : isName b.name = true
  callees : ∀ d ∈ b.body.toList, ∀ callee, d.1.callee? = some callee → isName callee = true

theorem Draft.callee?_of_resolve {labels : List (String × UInt32)} {d : Draft} {i : Instruction}
    (h : d.resolve labels = .ok i) : i.callee? = d.callee? := by
  cases d with
  | ready j =>
    cases h
    rfl
  | jump target =>
    obtain ⟨index, -, rfl⟩ := map_eq_ok_iff.mp h
    rfl
  | jumpIfFalse target =>
    obtain ⟨index, -, rfl⟩ := map_eq_ok_iff.mp h
    rfl

namespace Block
variable {b b' : Block}

theorem defineOpt_eq_ok {label : Option String} (h : b.defineOpt label = .ok b') : b' = b.withLabel label := by
  cases label with
  | none =>
    cases h
    rfl
  | some name =>
    simp only [defineOpt, define] at h
    split at h
    · cases h
    · cases h
      rfl

theorem Named.withLabel (h : b.Named) (label : Option String) : (b.withLabel label).Named := by
  cases label with
  | none => exact h
  | some name => exact ⟨h.name, h.callees⟩

theorem Named.add {d : Draft} (h : b.Named) (hd : ∀ callee, d.callee? = some callee → isName callee = true)
    (line : Nat) : (b.add d line).Named := by
  refine ⟨h.name, ?_⟩
  intro x hx callee hcallee
  rw [Block.add, Array.toList_push] at hx
  rcases List.mem_append.mp hx with hx | hx
  · exact h.callees x hx callee hcallee
  · rw [List.mem_singleton.mp hx] at hcallee
    exact hd callee hcallee

theorem named_start {name : String} (h : isName name = true) (arity localCount : UInt16) (line : Nat) :
    (start name arity localCount line).Named := by
  refine ⟨h, ?_⟩
  intro d hd
  simp [start] at hd

/-- Closing a method calls the load checks with names of the method only. -/
theorem Named.close_ne_invalidName (h : b.Named) (method bad : String) :
    b.close ≠ .error (.load (.invalidName method bad)) := by
  intro hclose
  rcases bind_eq_error_iff.mp hclose with hcode | ⟨code, hcode, hload⟩
  · -- A label that is missing is an error at a line.
    obtain ⟨d, -, hd⟩ := exists_of_mapM_eq_error hcode
    obtain ⟨e, -, he⟩ := mapError_eq_error_iff.mp hd
    cases he
  · obtain ⟨e, hload, he⟩ := mapError_eq_error_iff.mp hload
    cases he
    obtain ⟨hbad, rfl | ⟨argc, hmem⟩⟩ := Method.not_isName_of_load hload
    · exact hbad h.name
    · have hmem' : .invokeStatic bad argc ∈ code := by simpa using hmem
      obtain ⟨d, hd, hresolve⟩ := exists_of_mem_right (mapM_eq_ok_iff.mp hcode) _ hmem'
      have hcallee := Draft.callee?_of_resolve (mapError_eq_ok_iff.mp hresolve)
      exact hbad (h.callees d hd bad hcallee.symm)

end Block

/-! ### Names while a text is assembled -/

/-- The method that is open, if there is one, has names that can be written down. -/
def Assembly.Named (a : Assembly) : Prop :=
  ∀ b, a.current = some b → b.Named

namespace Assembly
variable {a a' : Assembly} {k : Nat} {st : Statement}

theorem Named.statement (h : a.Named) (hname : ∀ name, st.name? = some name → isName name = true)
    (hst : a.statement k st = .ok a') : a'.Named := by
  obtain ⟨ms, current⟩ := a
  cases current with
  | none =>
    rcases statement_closed_eq_ok_iff.mp hst with ⟨-, rfl⟩ | ⟨name, arity, localCount, rfl, rfl⟩
    · exact h
    · intro b hb
      cases hb
      exact Block.named_start (hname name rfl) arity localCount k
  | some b =>
    obtain ⟨label, item⟩ := st
    rw [statement_open_eq] at hst
    obtain ⟨b', hb', hitem⟩ := bind_eq_ok_iff.mp hst
    obtain rfl := Block.defineOpt_eq_ok (mapError_eq_ok_iff.mp hb')
    have hlabel := (h b rfl).withLabel label
    cases item with
    | none =>
      cases hitem
      intro b₁ hb₁
      cases hb₁
      exact hlabel
    | some item =>
      cases item with
      | start name arity localCount => cases hitem
      | finish =>
        -- The method is finished, and none is open.
        obtain ⟨m, -, hitem⟩ := bind_eq_ok_iff.mp hitem
        cases hitem
        intro b₁ hb₁
        cases hb₁
      | instruction d =>
        cases hitem
        intro b₁ hb₁
        cases hb₁
        exact hlabel.add hname k

theorem Named.statement_ne_invalidName (h : a.Named) (method bad : String) :
    a.statement k st ≠ .error (.load (.invalidName method bad)) := by
  intro hst
  obtain ⟨ms, current⟩ := a
  obtain ⟨label, item⟩ := st
  cases current with
  | none =>
    cases label with
    | some label => cases hst
    | none =>
      cases item with
      | none => cases hst
      | some item => cases item <;> cases hst
  | some b =>
    rw [statement_open_eq] at hst
    rcases bind_eq_error_iff.mp hst with hlabel | ⟨b', hb', hitem⟩
    · obtain ⟨e, -, he⟩ := mapError_eq_error_iff.mp hlabel
      cases he
    · obtain rfl := Block.defineOpt_eq_ok (mapError_eq_ok_iff.mp hb')
      cases item with
      | none => cases hitem
      | some item =>
        cases item with
        | start name arity localCount => cases hitem
        | instruction d => cases hitem
        -- Of all items only the end of a method calls the load checks.
        | finish =>
          rcases bind_eq_error_iff.mp hitem with hclose | ⟨m, -, hpure⟩
          · exact ((h b rfl).withLabel label).close_ne_invalidName method bad hclose
          · cases hpure

theorem Named.line {numbered : List Char × Nat} (h : a.Named) (hline : a.line numbered = .ok a') : a'.Named := by
  obtain ⟨st, hst, hadd⟩ := bind_eq_ok_iff.mp hline
  have hname : ∀ name, st.name? = some name → isName name = true :=
    fun name => Statement.isName_of_ofLine (mapError_eq_ok_iff.mp hst)
  exact h.statement hname hadd

theorem Named.line_ne_invalidName (h : a.Named) (numbered : List Char × Nat) (method bad : String) :
    a.line numbered ≠ .error (.load (.invalidName method bad)) := by
  intro hline
  rcases bind_eq_error_iff.mp hline with hst | ⟨st, -, hadd⟩
  · obtain ⟨e, -, he⟩ := mapError_eq_error_iff.mp hst
    cases he
  · exact h.statement_ne_invalidName method bad hadd

theorem Named.foldlM_line_ne_invalidName (h : a.Named) (lines : List (List Char × Nat)) (method bad : String) :
    lines.foldlM Assembly.line a ≠ .error (.load (.invalidName method bad)) := by
  induction lines generalizing a with
  | nil =>
    intro hnil
    cases hnil
  | cons numbered lines ih =>
    intro hlines
    rw [List.foldlM_cons] at hlines
    rcases bind_eq_error_iff.mp hlines with hline | ⟨a', hline, hrest⟩
    · exact h.line_ne_invalidName numbered method bad hline
    · exact ih (h.line hline) hrest

theorem finish_ne_invalidName (a : Assembly) (method bad : String) :
    a.finish ≠ .error (.load (.invalidName method bad)) := by
  intro h
  rcases finish_eq_error h with ⟨number, name, heq⟩ | ⟨name, heq⟩
  · cases heq
  · cases heq

end Assembly

theorem assemble_ne_invalidName (text method bad : String) :
    assemble text ≠ .error (.load (.invalidName method bad)) := by
  have hempty : Assembly.empty.Named := by
    intro b hb
    cases hb
  intro h
  rcases bind_eq_error_iff.mp h with hlines | ⟨a, -, hfinish⟩
  · exact hempty.foldlM_line_ne_invalidName _ method bad hlines
  · exact a.finish_ne_invalidName method bad hfinish

/-- A string passes the load check on names exactly if it is read as the one identifier that it is. So no text fails for
its names, and a method is refused if its own name or one that it calls is not read as that one identifier. -/
theorem nameCheck_agrees_with_tokens :
    (∀ s : String, isName s = true ↔ Token.ofLine s.toList = .ok [.ident s]) ∧
    (∀ text method bad, assemble text ≠ .error (.load (.invalidName method bad))) ∧
    ∀ name arity localCount code,
      (Token.ofLine name.toList ≠ .ok [.ident name] →
        Method.load name arity localCount code = .error (.invalidName name name)) ∧
      ((∃ callee argc, .invokeStatic callee argc ∈ code ∧ Token.ofLine callee.toList ≠ .ok [.ident callee]) →
        ∃ e, Method.load name arity localCount code = .error e) := by
  refine ⟨fun s => Token.isName_iff_ofLine, assemble_ne_invalidName, fun name arity localCount code => ⟨?_, ?_⟩⟩
  · intro hname
    exact Method.load_of_not_isName (mt Token.isName_iff_ofLine.mp hname)
  · rintro ⟨callee, argc, hmem, hcallee⟩
    cases hload : Method.load name arity localCount code with
    | error e => exact ⟨e, rfl⟩
    | ok m => exact absurd (Token.isName_iff_ofLine.mp (Method.isName_of_load hload hmem)) hcallee

/-- A lone colon is a name, and a word that only starts like a number is none. -/
example : Token.ofLine ":".toList = .ok [.ident ":"] ∧ isName "-3a" = false ∧
    Token.ofLine "-3a".toList = .error (.invalidNumber "-3a") := by
  decide +kernel

end StackMachine
