import Mathlib.Data.List.Dedup
import StackMachine.Proofs.Loaded
import StackMachine.Proofs.Module.Reading
import StackMachine.Proofs.Module.Writing

/-! Binary modules read back as the program they were written from, as long as its counts and lengths fit the fields
of a module. A position in the table stands for its name because the table lists every declared and called name, and
once only. -/

namespace StackMachine

/-! ### Name tables -/

/-- The table is as long as there are different names. -/
theorem Program.length_nameTable (p : Program) : p.nameTable.names.length = p.names.dedup.length := by
  have hnodup : p.nameTable.names.Nodup := NameTable.nodup_internAll List.nodup_nil
  apply List.Perm.length_eq
  rw [List.perm_ext_iff_of_nodup hnodup p.names.nodup_dedup]
  intro name
  rw [List.mem_dedup, mem_nameTable]

/-! ### Words -/

@[simp] theorem Word.length_bytes (w : Word) : w.bytes.length = size := by
  simp [bytes, size]

theorem Word.ofBytes_bytes (w : Word) : ofBytes w.bytes = w := by
  have ha : Bytes.toNat (Bytes.ofNat 2 w.a.toNat) = w.a.toNat := Bytes.toNat_ofNat_of_lt w.a.toNat_lt
  have hb : Bytes.toNat (Bytes.ofNat 4 w.b.toNat) = w.b.toNat := Bytes.toNat_ofNat_of_lt w.b.toNat_lt
  have hta : ((w.bytes.drop 2).take 2) = Bytes.ofNat 2 w.a.toNat := rfl
  have htb : ((w.bytes.drop 4).take 4) = Bytes.ofNat 4 w.b.toNat := rfl
  unfold ofBytes
  rw [hta, htb, ha, hb, UInt16.ofNat_toNat, UInt32.ofNat_toNat]
  rfl

theorem Opcode.decode_byte (op : Opcode) : decode op.byte = .ok op := by
  cases op with
  | arith op => cases op <;> rfl
  | compare op => cases op <;> rfl
  | _ => rfl

/-- An instruction reads back from its word, if the table has the name that it calls. -/
theorem Instruction.ofWord_word {t : NameTable} {i : Instruction} (ht : t.names.length ≤ 2 ^ 32)
    (hi : ∀ name, i.callee? = some name → name ∈ t.names) : ofWord t.names (i.word t) = .ok i := by
  cases i with
  | invokeStatic name argc =>
    have hmem := hi name rfl
    have hlt : t.index name < 2 ^ 32 := Nat.lt_of_lt_of_le (NameTable.index_lt hmem) ht
    have hname : t.names[(UInt32.ofNat (t.index name)).toNat]? = some name := by
      rw [UInt32.toNat_ofNat_of_lt' hlt]
      exact NameTable.getElem?_index hmem
    simp only [ofWord, word, Opcode.decode_byte, hname]
    rfl
  | pushConst value =>
    simp only [ofWord, word, Opcode.decode_byte, Int32.toInt32_toUInt32]
    rfl
  | arith op => cases op <;> rfl
  | compare op => cases op <;> rfl
  | _ => rfl

/-! ### Methods and programs -/

namespace Module
variable {size : Nat} {t : NameTable}

theorem reads_word {names : List String} {w : Word} {i : Instruction} (h : Instruction.ofWord names w = .ok i) :
    Reads (instruction size names) w.bytes i := by
  refine (reads_take (Word.length_bytes w)).bind_nil (Reads.ofOk ?_)
  rw [Word.ofBytes_bytes]
  exact h

theorem reads_instruction {i : Instruction} (ht : t.names.length ≤ 2 ^ 32)
    (hi : ∀ name, i.callee? = some name → name ∈ t.names) : Reads (instruction size t.names) (i.word t).bytes i :=
  reads_word (Instruction.ofWord_word ht hi)

theorem reads_method {m : Method} (ht : t.names.length ≤ 2 ^ 32) (hm : ∀ name ∈ m.names, name ∈ t.names)
    (hcode : m.code.size < 2 ^ 32) : Reads (method size t.names) (m.encode t) m := by
  have hname : m.name ∈ t.names := hm m.name List.mem_cons_self
  have hindex : t.index m.name < 256 ^ 4 := Nat.lt_of_lt_of_le (NameTable.index_lt hname) ht
  have hbody : Reads (many (fun _ => instruction size t.names) 0 m.code.toList.length)
      (m.code.toList.flatMap fun i => (i.word t).bytes) m.code.toList :=
    reads_many (fun i hi _ => reads_instruction ht fun name hcallee =>
      hm name (List.mem_cons_of_mem _ (List.mem_filterMap.mpr ⟨i, hi, hcallee⟩))) 0
  refine reads_method_parts hindex (NameTable.getElem?_index hname) hcode hbody ?_
  rw [Array.toArray_toList, m.load_parts]

end Module

namespace Program

/-- The counts and lengths of a program fit the fields of a module. -/
structure FitsModule (p : Program) : Prop where
  methods : p.methods.size < 2 ^ 32
  names : p.names.dedup.length < 2 ^ 32
  code : ∀ m ∈ p.methods, m.code.size < 2 ^ 32
  nameBytes : ∀ name ∈ p.names, name.utf8ByteSize < 2 ^ 32

theorem reads_methods {p : Program} (h : p.FitsModule) (size : Nat) :
    Reads (Module.methods size) p.encode p.methods.toList := by
  have ht : p.nameTable.names.length < 2 ^ 32 := p.length_nameTable ▸ h.names
  have hnames : Reads (Module.many (Module.name size) 0 p.nameTable.names.length)
      (p.nameTable.names.flatMap Module.nameBytes) p.nameTable.names :=
    Module.reads_many (fun name hname index => Module.reads_name (h.nameBytes name (mem_nameTable.mp hname)) index) 0
  -- A method is written against the table of all names, so every name it needs is there.
  have hmethods : Reads (Module.many (fun _ => Module.method size p.nameTable.names) 0 p.methods.toList.length)
      (p.methods.toList.flatMap (·.encode p.nameTable)) p.methods.toList :=
    Module.reads_many (fun m hm _ => Module.reads_method (Nat.le_of_lt ht)
      (fun name hname => mem_nameTable.mpr (List.mem_flatMap.mpr ⟨m, hm, hname⟩)) (h.code m (Array.mem_toList_iff.mp hm))) 0
  rw [p.encode_eq]
  exact Module.reads_methods_parts ht hnames h.methods hmethods

/-- Bytes from which the methods of a program are read, and nothing is left, decode to that program. -/
theorem decode_of_reads {bytes : List UInt8} {p : Program}
    (h : Reads (Module.methods bytes.length) bytes p.methods.toList) : decode bytes = .ok p := by
  simp only [decode, h.run_eq, bind, Except.bind, ne_eq, not_true_eq_false, if_false, Array.toArray_toList,
    p.load_methods]
  rfl

/-- A program whose counts and lengths fit a module is read back from its module. -/
theorem decode_encode_of_fitsModule {p : Program} (h : p.FitsModule) : decode p.encode = .ok p :=
  decode_of_reads (reads_methods h p.encode.length)

theorem decode_encode_doubling : doubling.FitsModule ∧ decode doubling.encode = .ok doubling :=
  have h : doubling.FitsModule := ⟨by decide +kernel, by decide +kernel, by decide +kernel, by decide +kernel⟩
  ⟨h, decode_encode_of_fitsModule h⟩

end Program

end StackMachine
