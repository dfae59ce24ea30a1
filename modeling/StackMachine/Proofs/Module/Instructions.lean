import StackMachine.Proofs.Module.Format

/-! Instruction words and the tables they refer to. A word is read as an instruction exactly if it has the byte of its
opcode, a reserved byte of zero, and its operands in the fields that the opcode uses. A table only grows at its end, so
a word that was written once keeps its meaning; and a word that can be read is written again as it was, up to the
fields that its opcode does not use. -/

namespace StackMachine

/-! ### Tables that grow -/

namespace NameTable
variable {t t' : NameTable} {name x : String}

theorem internAll_of_nodup {l : List String} (h : (t.names ++ l).Nodup) : t.internAll l = ⟨t.names ++ l⟩ := by
  induction l generalizing t with
  | nil =>
    rw [List.append_nil]
    rfl
  | cons name l ih =>
    have hnew : name ∉ t.names := fun hmem => List.nodup_append.mp h |>.2.2 name hmem name List.mem_cons_self rfl
    have hrec : t.internAll (name :: l) = (t.intern name).internAll l := rfl
    rw [← List.singleton_append, ← List.append_assoc] at h ⊢
    rw [List.singleton_append, hrec, intern_of_not_mem hnew]
    exact ih h

/-- Table `t'` has the names of `t` where they were, and no name twice. -/
structure Extends (t t' : NameTable) : Prop where
  front : t.names <+: t'.names
  distinct : t'.names.Nodup
  index : ∀ name ∈ t.names, t'.index name = t.index name

theorem extends_internAll (h : t.names.Nodup) (l : List String) : t.Extends (t.internAll l) :=
  ⟨t.prefix_internAll l, nodup_internAll h, fun _ => index_of_prefix (t.prefix_internAll l)⟩

end NameTable

/-- The names of a table with their positions kept beside them, as 32-bit numbers. -/
structure IndexedNames where
  names : List String
  positions : List (String × UInt32)

namespace IndexedNames

/-- No names. -/
def empty : IndexedNames := ⟨[], []⟩

/-- The position of a name, and the table with it. A name without a position is added at the end. -/
def intern (t : IndexedNames) (name : String) : UInt32 × IndexedNames :=
  match t.positions.lookup name with
  | some position => (position, t)
  | none =>
    let position := UInt32.ofNat t.names.length
    (position, ⟨t.names ++ [name], (name, position) :: t.positions⟩)

/-- Adds names one after the other. -/
def internAll (t : IndexedNames) (names : List String) : IndexedNames :=
  names.foldl (fun t name => (t.intern name).2) t

/-- The two parts are in step with a table: the same names, and for each of them its position. -/
structure InStep (t : IndexedNames) (u : NameTable) : Prop where
  names : t.names = u.names
  positions : ∀ x, t.positions.lookup x = if x ∈ u.names then some (UInt32.ofNat (u.index x)) else none

namespace InStep
variable {t : IndexedNames} {u : NameTable}

theorem intern (h : t.InStep u) (name : String) :
    (t.intern name).2.InStep (u.intern name) ∧ (t.intern name).1 = UInt32.ofNat ((u.intern name).index name) := by
  have hname := h.positions name
  by_cases hmem : name ∈ u.names
  · rw [if_pos hmem] at hname
    rw [NameTable.intern_of_mem hmem]
    simp only [IndexedNames.intern, hname]
    exact ⟨h, trivial⟩
  · rw [if_neg hmem] at hname
    have hnew : NameTable.index ⟨u.names ++ [name]⟩ name = u.names.length := by
      simp [NameTable.index, List.idxOf_append_of_notMem hmem]
    rw [NameTable.intern_of_not_mem hmem]
    simp only [IndexedNames.intern, hname, h.names, hnew]
    refine ⟨⟨rfl, fun x => ?_⟩, trivial⟩
    rw [List.lookup_cons]
    by_cases hx : x = name
    · subst hx
      simp [hnew]
    · -- The other names are looked up as before, and stand where they did.
      have hold : x ∈ u.names → NameTable.index ⟨u.names ++ [name]⟩ x = u.index x :=
        NameTable.index_of_prefix (List.prefix_append _ _)
      rw [beq_false_of_ne hx]
      simp only [h.positions x, List.mem_append, List.mem_singleton, hx, or_false]
      by_cases hxu : x ∈ u.names
      · rw [if_pos hxu, if_pos hxu, hold hxu]
      · rw [if_neg hxu, if_neg hxu]

theorem internAll (h : t.InStep u) (l : List String) : (t.internAll l).InStep (u.internAll l) := by
  induction l generalizing t u with
  | nil => exact h
  | cons name l ih => exact ih (h.intern name).1

end InStep

theorem inStep_empty : empty.InStep .empty :=
  ⟨rfl, fun _ => rfl⟩

end IndexedNames

/-! ### Reading a word -/

namespace Opcode

theorem decode_eq_ok_iff {b : UInt8} {op : Opcode} : decode b = .ok op ↔ b = op.byte := by
  constructor
  · intro h
    unfold decode at h
    split at h
    · rename_i found hfound
      cases h
      have hbyte := List.find?_some hfound
      exact (eq_of_beq hbyte).symm
    · cases h
  · rintro rfl
    exact decode_byte op

/-- Whether the opcode has an operand in the 16-bit field. -/
def usesA : Opcode → Bool
  | loadLocal | storeLocal | invokeStatic => true
  | _ => false

/-- Whether the opcode has an operand in the 32-bit field. -/
def usesB : Opcode → Bool
  | pushConst | jump | jumpIfFalse | invokeStatic => true
  | _ => false

/-- The eight bytes of a word, with zeros in the fields that the opcode does not use. -/
def clearUnused (op : Opcode) (bytes : List UInt8) : List UInt8 :=
  bytes.take 2 ++ (if op.usesA then (bytes.drop 2).take 2 else [0, 0]) ++
    (if op.usesB then bytes.drop 4 else [0, 0, 0, 0])

end Opcode

namespace Word

/-- The word with zeros in the fields that the opcode does not use. -/
def clear (w : Word) (op : Opcode) : Word :=
  { w with a := if op.usesA then w.a else 0, b := if op.usesB then w.b else 0 }

theorem bytes_clear (w : Word) (op : Opcode) : (w.clear op).bytes = op.clearUnused w.bytes := by
  have hbytes : op.clearUnused w.bytes = w.opcode :: w.reserved ::
      ((if op.usesA then Bytes.ofNat 2 w.a.toNat else [0, 0]) ++
        if op.usesB then Bytes.ofNat 4 w.b.toNat else [0, 0, 0, 0]) := rfl
  have ha : Bytes.ofNat 2 (if op.usesA then w.a else 0).toNat =
      if op.usesA then Bytes.ofNat 2 w.a.toNat else [0, 0] := by
    split <;> rfl
  have hb : Bytes.ofNat 4 (if op.usesB then w.b else 0).toNat =
      if op.usesB then Bytes.ofNat 4 w.b.toNat else [0, 0, 0, 0] := by
    split <;> rfl
  rw [hbytes, ← ha, ← hb]
  rfl

theorem clear_eq {w : Word} {op : Opcode} (hopcode : w.opcode = op.byte) (hreserved : w.reserved = 0) :
    w.clear op = ⟨op.byte, 0, if op.usesA then w.a else 0, if op.usesB then w.b else 0⟩ := by
  rw [clear, hopcode, hreserved]

/-- The word has the operands of an instruction in the fields that its opcode uses. -/
def Holds (names : List String) (w : Word) : Instruction → Prop
  | .pushConst value => w.b.toInt32 = value
  | .loadLocal slot | .storeLocal slot => w.a = slot
  | .jump target | .jumpIfFalse target => w.b = target
  | .invokeStatic method argc => names[w.b.toNat]? = some method ∧ w.a = argc
  | _ => True

end Word

namespace Instruction
variable {names : List String} {w : Word} {i : Instruction}

/-- What a word is that is read as an instruction. -/
theorem holds_of_ofWord (h : ofWord names w = .ok i) :
    w.opcode = i.opcode.byte ∧ w.reserved = 0 ∧ w.Holds names i := by
  obtain ⟨op, hop, h⟩ := bind_eq_ok_iff.mp h
  by_cases hreserved : w.reserved = 0
  · simp only [hreserved, ne_eq, not_true_eq_false, if_false] at h
    suffices hheld : i.opcode = op ∧ w.Holds names i by
      rw [hheld.1]
      exact ⟨Opcode.decode_eq_ok_iff.mp hop, hreserved, hheld.2⟩
    cases op with
    | invokeStatic =>
      cases hname : names[w.b.toNat]? with
      | none =>
        simp only [hname] at h
        cases h
      | some name =>
        simp only [hname] at h
        cases h
        exact ⟨rfl, hname, rfl⟩
    | _ =>
      cases h
      simp [opcode, Word.Holds]
  · simp only [hreserved, ne_eq, not_false_eq_true, if_true] at h
    cases h

/-- An instruction that was read from a word is written as that word, without another name in the table. -/
theorem word_of_ofWord (hnodup : names.Nodup) (h : ofWord names w = .ok i) :
    i.word ⟨names⟩ = w.clear i.opcode ∧ i.intern ⟨names⟩ = ⟨names⟩ := by
  obtain ⟨hopcode, hreserved, hheld⟩ := holds_of_ofWord h
  rw [Word.clear_eq hopcode hreserved]
  cases i with
  | invokeStatic name argc =>
    obtain ⟨hname, rfl⟩ := hheld
    obtain ⟨hlt, hget⟩ := List.getElem?_eq_some_iff.mp hname
    -- The name stands at one position only, which is then the one that is written.
    have hindex : NameTable.index ⟨names⟩ name = w.b.toNat := by
      rw [NameTable.index, ← hget, hnodup.idxOf_getElem]
    refine ⟨?_, NameTable.intern_of_mem (hget ▸ List.getElem_mem hlt)⟩
    rw [word, hindex, UInt32.ofNat_toNat]
    rfl
  | pushConst value =>
    obtain rfl : w.b.toInt32 = value := hheld
    refine ⟨?_, rfl⟩
    rw [word, UInt32.toUInt32_toInt32]
    rfl
  | loadLocal slot =>
    obtain rfl : w.a = slot := hheld
    exact ⟨rfl, rfl⟩
  | storeLocal slot =>
    obtain rfl : w.a = slot := hheld
    exact ⟨rfl, rfl⟩
  | jump target =>
    obtain rfl : w.b = target := hheld
    exact ⟨rfl, rfl⟩
  | jumpIfFalse target =>
    obtain rfl : w.b = target := hheld
    exact ⟨rfl, rfl⟩
  | _ => exact ⟨rfl, rfl⟩

/-- The bytes of an instruction mean the same to every later table. -/
theorem ofWord_encode {t : NameTable} (more : List String) (hlen : ((i.encode t).2.internAll more).names.length < 2 ^ 32) :
    ofWord ((i.encode t).2.internAll more).names (Word.ofBytes (i.encode t).1) = .ok i := by
  obtain ⟨extra, hextra⟩ := (i.encode t).2.prefix_internAll more
  have hshort : (i.intern t).names.length ≤ 2 ^ 32 := by
    rw [← hextra, List.length_append] at hlen
    exact Nat.le_of_lt (Nat.lt_of_le_of_lt (Nat.le_add_right _ _) hlen)
  rw [← hextra, encode, Word.ofBytes_bytes]
  exact ofWord_append (ofWord_word hshort fun name => mem_intern_of_callee?) extra

theorem encode_of_ofWord {bytes : List UInt8} (hlen : bytes.length = Word.size) (hnodup : names.Nodup)
    (h : ofWord names (Word.ofBytes bytes) = .ok i) : i.encode ⟨names⟩ = (i.opcode.clearUnused bytes, ⟨names⟩) := by
  obtain ⟨hword, hintern⟩ := word_of_ofWord hnodup h
  rw [encode, hintern, hword, Word.bytes_clear, Word.bytes_ofBytes hlen]

end Instruction

/-- What is written for an instruction is read as that instruction against every later table, since interning moves no
name and adds none twice, and gives each name its position, also where the positions are kept beside the names. What is
read from a word is written back as that word, with zeros in the fields that its opcode does not use. -/
theorem Instruction.words_exact :
    (∀ (names more : List String) (i : Instruction), let written := i.encode (NameTable.empty.internAll names)
      (written.2.internAll more).names.length < 2 ^ 32 →
        ofWord (written.2.internAll more).names (Word.ofBytes written.1) = .ok i) ∧
    (∀ names more : List String, let t := NameTable.empty.internAll names
      t.Extends (t.internAll more) ∧ (∀ name, (t.intern name).names[(t.intern name).index name]? = some name) ∧
      (IndexedNames.empty.internAll names).InStep t ∧
      ∀ name, ((IndexedNames.empty.internAll names).intern name).1 = UInt32.ofNat ((t.intern name).index name)) ∧
    (∀ (bytes : List UInt8) (names : List String) (i : Instruction), bytes.length = Word.size → names.Nodup →
      ofWord names (Word.ofBytes bytes) = .ok i → NameTable.empty.internAll names = ⟨names⟩ ∧
        i.encode ⟨names⟩ = (i.opcode.clearUnused bytes, ⟨names⟩)) := by
  refine ⟨fun names more i hlen => ofWord_encode more hlen, fun names more => ?_, ?_⟩
  · have hnodup : (NameTable.empty.internAll names).names.Nodup := NameTable.nodup_internAll List.nodup_nil
    have hstep := IndexedNames.inStep_empty.internAll names
    refine ⟨NameTable.extends_internAll hnodup more, fun name => ?_, hstep, fun name => (hstep.intern name).2⟩
    exact NameTable.getElem?_index (NameTable.mem_intern.mpr (Or.inr rfl))
  · intro bytes names i hlen hnodup h
    exact ⟨NameTable.internAll_of_nodup hnodup, encode_of_ofWord hlen hnodup h⟩

/-- A negative constant and a call against tables that have grown, a slot with something in the field for constants, and
a call that is written back to the position of its name. -/
theorem Instruction.words_exact_constant_call_and_slot :
    ofWord ["f", "g"] (Word.ofBytes [0x01, 0, 0, 0, 0xFE, 0xFF, 0xFF, 0xFF]) = .ok (.pushConst (-2)) ∧
    ofWord ["f", "g", "h"] (Word.ofBytes [0x50, 0, 2, 0, 1, 0, 0, 0]) = .ok (.invokeStatic "g" 2) ∧
    (Instruction.loadLocal 3).encode ⟨["f", "g"]⟩ = ([0x02, 0, 3, 0, 0, 0, 0, 0], ⟨["f", "g"]⟩) ∧
    (Instruction.invokeStatic "g" 2).encode ⟨["f", "g"]⟩ = ([0x50, 0, 2, 0, 1, 0, 0, 0], ⟨["f", "g"]⟩) := by
  obtain ⟨hread, -, hwrite⟩ := Instruction.words_exact
  have hbytes : (Instruction.pushConst (-2)).encode (NameTable.empty.internAll ["f"]) =
      ([0x01, 0, 0, 0, 0xFE, 0xFF, 0xFF, 0xFF], ⟨["f"]⟩) := by decide +kernel
  have hlater : NameTable.internAll ⟨["f"]⟩ ["g"] = ⟨["f", "g"]⟩ := by decide +kernel
  have hconstant := hread ["f"] ["g"] (.pushConst (-2))
  simp only [hbytes, hlater] at hconstant
  -- The call interns its name, so that it is the second one also after a third.
  have hcallBytes : (Instruction.invokeStatic "g" 2).encode (NameTable.empty.internAll ["f"]) =
      ([0x50, 0, 2, 0, 1, 0, 0, 0], ⟨["f", "g"]⟩) := by decide +kernel
  have hcallLater : NameTable.internAll ⟨["f", "g"]⟩ ["h"] = ⟨["f", "g", "h"]⟩ := by decide +kernel
  have hcall := hread ["f"] ["h"] (.invokeStatic "g" 2)
  simp only [hcallBytes, hcallLater] at hcall
  have hslot := hwrite [0x02, 0, 3, 0, 9, 8, 7, 6] ["f", "g"] (.loadLocal 3) rfl (by decide +kernel) (by decide +kernel)
  have hname := hwrite [0x50, 0, 2, 0, 1, 0, 0, 0] ["f", "g"] (.invokeStatic "g" 2) rfl (by decide +kernel)
    (by decide +kernel)
  exact ⟨hconstant (by decide), hcall (by decide), hslot.2, hname.2⟩

end StackMachine
