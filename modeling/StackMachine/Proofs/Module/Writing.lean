import Mathlib.Data.List.Nodup
import StackMachine.Module.Encode
import StackMachine.Proofs.Results

/-! The module of a program is written in one pass, which interns a name where it is needed first. The table only grows
at its end, so the positions written so far are those in the whole table, and the module is the one that is written
against the table of all names. -/

namespace StackMachine

/-! ### Tables that grow -/

namespace NameTable
variable {t t' : NameTable} {name x : String} {l : List String}

theorem intern_of_mem (h : name ∈ t.names) : t.intern name = t :=
  if_pos h

theorem intern_of_not_mem (h : name ∉ t.names) : t.intern name = ⟨t.names ++ [name]⟩ :=
  if_neg h

theorem prefix_intern (t : NameTable) (name : String) : t.names <+: (t.intern name).names := by
  by_cases h : name ∈ t.names
  · exact ⟨[], by rw [intern_of_mem h, List.append_nil]⟩
  · rw [intern_of_not_mem h]
    exact List.prefix_append _ _

theorem prefix_internAll (t : NameTable) (l : List String) : t.names <+: (t.internAll l).names := by
  induction l generalizing t with
  | nil => exact List.prefix_refl _
  | cons name l ih => exact (t.prefix_intern name).trans (ih (t.intern name))

theorem index_of_prefix (h : t.names <+: t'.names) (hx : x ∈ t.names) : t'.index x = t.index x := by
  obtain ⟨extra, hextra⟩ := h
  rw [index, ← hextra, List.idxOf_append_of_mem hx]
  rfl

theorem internAll_append (t : NameTable) (l l' : List String) : t.internAll (l ++ l') = (t.internAll l).internAll l' :=
  List.foldl_append

theorem mem_intern : x ∈ (t.intern name).names ↔ x ∈ t.names ∨ x = name := by
  unfold intern
  split
  · rename_i hmem
    constructor
    · exact Or.inl
    · rintro (hx | rfl)
      · exact hx
      · exact hmem
  · simp

theorem mem_internAll : x ∈ (t.internAll l).names ↔ x ∈ t.names ∨ x ∈ l := by
  induction l generalizing t with
  | nil => simp [internAll]
  | cons name l ih =>
    have hrec : t.internAll (name :: l) = (t.intern name).internAll l := rfl
    rw [hrec, ih, mem_intern, List.mem_cons, or_assoc]

theorem nodup_intern (h : t.names.Nodup) : (t.intern name).names.Nodup := by
  unfold intern
  split
  · exact h
  · rename_i hmem
    exact List.nodup_append.mpr ⟨h, List.nodup_singleton name, by
      intro x hx y hy
      rw [List.mem_singleton.mp hy]
      exact fun hxy => hmem (hxy ▸ hx)⟩

theorem nodup_internAll (h : t.names.Nodup) : (t.internAll l).names.Nodup := by
  induction l generalizing t with
  | nil => exact h
  | cons name l ih => exact ih (nodup_intern h)

theorem getElem?_index (h : name ∈ t.names) : t.names[t.index name]? = some name := by
  have hlt := List.idxOf_lt_length_iff.mpr h
  rw [index, List.getElem?_eq_getElem hlt, List.getElem_idxOf hlt]

theorem index_lt (h : name ∈ t.names) : t.index name < t.names.length :=
  List.idxOf_lt_length_iff.mpr h

end NameTable

/-! ### Writing against a table -/

/-- The names that a method needs in a table: its own and those it calls, in the order of its code. -/
def Method.names (m : Method) : List String :=
  m.name :: m.code.toList.filterMap (·.callee?)

/-- The body of a method against a table that has its names. -/
def Method.bodyIn (t : NameTable) (m : Method) : Nat × List UInt8 :=
  (t.index m.name, m.code.toList.flatMap fun i => (i.word t).bytes)

/-- The bytes of a method against a table that has its names. -/
def Method.encode (t : NameTable) (m : Method) : List UInt8 :=
  m.record (m.bodyIn t)

/-- The names that the methods declare and call, as often as they do. -/
def Program.names (p : Program) : List String :=
  p.methods.toList.flatMap (·.names)

/-- The names that the methods declare and call, in order of first use. -/
def Program.nameTable (p : Program) : NameTable :=
  NameTable.empty.internAll p.names

theorem Program.mem_nameTable {p : Program} {name : String} : name ∈ p.nameTable.names ↔ name ∈ p.names := by
  rw [nameTable, NameTable.mem_internAll]
  simp [NameTable.empty, names]

/-! ### One pass -/

section
variable {t u : NameTable}

theorem Instruction.mem_intern_of_callee? {i : Instruction} {name : String} (h : i.callee? = some name) :
    name ∈ (i.intern t).names := by
  rw [intern, NameTable.mem_internAll, h]
  exact Or.inr (List.mem_singleton_self name)

/-- A word that has its name in a table is the same word in every table that goes on from there. -/
theorem Instruction.word_of_isPrefix {i : Instruction} (h : t.names <+: u.names)
    (hi : ∀ name, i.callee? = some name → name ∈ t.names) : i.word u = i.word t := by
  cases i with
  | invokeStatic name argc => rw [word, word, NameTable.index_of_prefix h (hi name rfl)]
  | _ => rfl

/-- Parts of a module that each intern their names, and are written as they would be against a table `u` that goes on
from there, do so one after the other. -/
theorem NameTable.run_mapM {α β : Type} {write : α → StateM NameTable β} {names : α → List String} {written : α → β}
    (hwrite : ∀ a t, (t.internAll (names a)).names <+: u.names → (write a).run t = (written a, t.internAll (names a)))
    {l : List α} (h : (t.internAll (l.flatMap names)).names <+: u.names) :
    (l.mapM write).run t = (l.map written, t.internAll (l.flatMap names)) := by
  induction l generalizing t with
  | nil => rfl
  | cons a l ih =>
    rw [List.flatMap_cons, internAll_append] at h ⊢
    -- The table goes on to grow after the first part, up to `u`.
    have hfirst := hwrite a t ((prefix_internAll _ _).trans h)
    rw [List.mapM_cons, run_bind_of_eq hfirst, run_bind_of_eq (ih h)]
    rfl

theorem Instruction.run_write (i : Instruction) (t : NameTable) (h : (i.intern t).names <+: u.names) :
    i.write.run t = ((i.word u).bytes, i.intern t) := by
  rw [word_of_isPrefix h fun name => mem_intern_of_callee?]
  rfl

theorem Method.run_body (m : Method) (t : NameTable) (h : (t.internAll m.names).names <+: u.names) :
    m.body.run t = (m.bodyIn u, t.internAll m.names) := by
  have hnames : t.internAll m.names = (t.intern m.name).internAll (m.code.toList.flatMap (·.callee?.toList)) := by
    rw [← List.filterMap_eq_flatMap_toList]
    rfl
  rw [hnames] at h ⊢
  have hname : m.name ∈ (t.intern m.name).names := NameTable.mem_intern.mpr (Or.inr rfl)
  have hposition : (NameTable.position m.name).run t = (u.index m.name, t.intern m.name) := by
    rw [NameTable.index_of_prefix ((NameTable.prefix_internAll _ _).trans h) hname]
    rfl
  rw [body, run_bind_of_eq hposition, run_bind_of_eq (NameTable.run_mapM Instruction.run_write h), bodyIn,
    List.flatMap_def]
  rfl

end

/-- The module that is written in one pass is the one that is written against the table of all names. -/
theorem Program.encode_eq (p : Program) :
    p.encode = Module.magic ++ [Module.version] ++
      Bytes.ofNat 4 p.nameTable.names.length ++ p.nameTable.names.flatMap Module.nameBytes ++
      Bytes.ofNat 4 p.methods.size ++ p.methods.toList.flatMap (·.encode p.nameTable) := by
  have hrun : (p.methods.toList.mapM Method.body).run .empty =
      (p.methods.toList.map (Method.bodyIn p.nameTable), p.nameTable) := NameTable.run_mapM Method.run_body List.prefix_rfl
  have hrecords : (p.methods.toList.zipWith Method.record (p.methods.toList.map (Method.bodyIn p.nameTable))).flatten =
      p.methods.toList.flatMap (·.encode p.nameTable) := by
    rw [List.zipWith_map_right, List.zipWith_self, List.flatMap_def]
    rfl
  simp only [encode, hrun, hrecords]

end StackMachine
