import Mathlib.Data.List.Flatten
import Mathlib.Data.List.Perm.Subperm
import StackMachine.Proofs.Module.Instructions

/-! A program that was read from a module is written as a shortest module of it. Its methods take as many bytes in every
module; its names all stand in the table that they were read from, which may also have names that nothing refers to or
that stand in it twice. So the program fits a module because it came from one. -/

namespace StackMachine

theorem length_flatMap_le_of_subset {α β : Type} {l l' : List α} (hnodup : l.Nodup) (hsub : l ⊆ l') (f : α → List β) :
    (l.flatMap f).length ≤ (l'.flatMap f).length := by
  obtain ⟨between, hperm, hsublist⟩ := hnodup.subperm hsub
  rw [← (hperm.flatMap_right f).length_eq]
  exact (hsublist.flatMap f).length_le

theorem length_flatMap_eq_of_forall₂ {α β γ : Type} {R : α → β → Prop} {f : α → List γ} {g : β → List γ} {l : List α}
    {l' : List β} (h : List.Forall₂ R l l') (hlen : ∀ a b, R a b → (f a).length = (g b).length) :
    (l.flatMap f).length = (l'.flatMap g).length := by
  induction h with
  | nil => rfl
  | cons hab _ ih => simp only [List.flatMap_cons, List.length_append, hlen _ _ hab, ih]

namespace Module

namespace MethodRecord.StandsFor
variable {names : List String} {r : MethodRecord} {m : Method}

/-- A method has its own name and the names it calls from the table. -/
theorem mem_names (h : r.StandsFor names m) {name : String} (hname : name ∈ m.names) : name ∈ names := by
  obtain ⟨own, code, hown, hwords, hload⟩ := h
  rcases List.mem_cons.mp hname with rfl | hname
  · rw [Method.name_of_load hload]
    exact List.mem_of_getElem? hown
  · obtain ⟨i, hi, hcallee⟩ := List.mem_filterMap.mp hname
    rw [Method.code_of_load hload] at hi
    obtain ⟨w, -, hw⟩ := exists_of_mem_right hwords i hi
    cases i with
    | invokeStatic callee argc =>
      obtain ⟨-, -, hget, -⟩ := Instruction.holds_of_ofWord hw
      cases hcallee
      exact List.mem_of_getElem? hget
    | _ => cases hcallee

theorem size_code (h : r.StandsFor names m) : m.code.size = r.words.length := by
  obtain ⟨own, code, -, hwords, hload⟩ := h
  rw [Method.code_of_load hload, List.size_toArray, hwords.length_eq]

theorem length_encode (h : r.StandsFor names m) (t : NameTable) : (m.encode t).length = r.bytes.length := by
  obtain ⟨own, code, -, hwords, hload⟩ := id h
  have hcode : (m.code.toList.flatMap fun i => (i.word t).bytes).length = (r.words.flatMap Word.bytes).length := by
    rw [Method.code_of_load hload]
    exact (length_flatMap_eq_of_forall₂ hwords fun w i _ => by simp).symm
  simp only [Method.encode, Method.record, Method.bodyIn, bytes, List.length_append, Bytes.length_ofNat, hcode]

end MethodRecord.StandsFor

namespace Layout.StandsFor
variable {l : Layout} {p : Program} (h : l.StandsFor p.methods.toList)
include h

theorem mem_names {name : String} (hname : name ∈ p.names) : name ∈ l.names := by
  obtain ⟨m, hm, hname⟩ := List.mem_flatMap.mp hname
  obtain ⟨r, -, hr⟩ := exists_of_mem_right h m hm
  exact hr.mem_names hname

theorem nameTable_subset : p.nameTable.names ⊆ l.names :=
  fun _ hname => h.mem_names (Program.mem_nameTable.mp hname)

theorem fitsModule : p.FitsModule where
  methods := by
    rw [← Array.length_toList, ← h.length_eq]
    exact l.length_records
  names := by
    have hsub : p.names.dedup ⊆ l.names := fun _ hname => h.mem_names (List.mem_dedup.mp hname)
    exact Nat.lt_of_le_of_lt (p.names.nodup_dedup.subperm hsub).length_le l.length_names
  code m hm := by
    obtain ⟨r, -, hr⟩ := exists_of_mem_right h m (Array.mem_toList_iff.mpr hm)
    rw [hr.size_code]
    exact r.length_words
  nameBytes name hname := l.size_name name (h.mem_names hname)

/-- The methods take the same number of bytes, and the table has the names that they need. -/
theorem length_encode_le : p.encode.length ≤ l.bytes.length := by
  have hnodup : p.nameTable.names.Nodup := NameTable.nodup_internAll List.nodup_nil
  have hnames := length_flatMap_le_of_subset hnodup h.nameTable_subset nameBytes
  have hmethods := length_flatMap_eq_of_forall₂ h fun r m hr => (hr.length_encode p.nameTable).symm
  simp only [Program.encode_eq, bytes, List.length_append, Bytes.length_ofNat, ← hmethods]
  omega

end Layout.StandsFor

end Module

namespace Program
variable {bytes : List UInt8} {p : Program}

/-- Whatever module a program was read from, it is read again from the module that is written for it, which is no longer
than that one, nor than any other that the program is read from. Writing it once more gives the same bytes. -/
theorem encode_shortest (h : decode bytes = .ok p) :
    decode p.encode = .ok p ∧ p.encode.length ≤ bytes.length ∧
    (∀ q, decode p.encode = .ok q → q.encode = p.encode) ∧
    ∀ bytes', decode bytes' = .ok p → p.encode.length ≤ bytes'.length := by
  have hshortest : ∀ bytes', decode bytes' = .ok p → p.encode.length ≤ bytes'.length := by
    intro bytes' h'
    obtain ⟨l, hl, rfl⟩ := decode_eq_ok_iff.mp h'
    exact hl.length_encode_le
  obtain ⟨l, hl, -⟩ := decode_eq_ok_iff.mp h
  have hagain : decode p.encode = .ok p := decode_of_reads (reads_methods hl.fitsModule p.encode.length)
  refine ⟨hagain, hshortest bytes h, fun q hq => ?_, hshortest⟩
  rw [hagain] at hq
  cases hq
  rfl

/-- A module of the doubling program with one name twice, the names in another order, and unused fields that are set. -/
def roundabout : List UInt8 :=
  [0x54, 0x56, 0x4D, 0x42, 1, 3, 0, 0, 0, 8, 0, 0, 0, 0x67, 0x72, 0xC3, 0xB6, 0xC3, 0x9F, 0x65, 0x72,
    4, 0, 0, 0, 0x6D, 0x61, 0x69, 0x6E, 4, 0, 0, 0, 0x6D, 0x61, 0x69, 0x6E, 2, 0, 0, 0] ++
  [2, 0, 0, 0, 0, 0, 0, 0, 3, 0, 0, 0, 0x01, 0, 5, 5, 0xF9, 0xFF, 0xFF, 0xFF, 0x50, 0, 1, 0, 0, 0, 0, 0,
    0x51, 0, 9, 9, 9, 9, 9, 9] ++
  [0, 0, 0, 0, 1, 0, 1, 0, 5, 0, 0, 0, 0x02, 0, 0, 0, 7, 7, 7, 7, 0x04, 0, 1, 1, 1, 1, 1, 1,
    0x30, 0, 2, 2, 3, 0, 0, 0, 0x10, 0, 0, 0, 0, 0, 0, 0, 0x51, 0, 0, 0, 0, 0, 0, 0]

theorem encode_shortest_roundabout : decode roundabout = .ok doubling ∧ decode doubling.encode = .ok doubling ∧
    doubling.encode.length ≤ roundabout.length ∧ doubling.encode.length + 8 = roundabout.length := by
  have h : decode roundabout = .ok doubling := by decide +kernel
  obtain ⟨hagain, hlen, -⟩ := encode_shortest h
  exact ⟨h, hagain, hlen, by decide +kernel⟩

end Program

end StackMachine
