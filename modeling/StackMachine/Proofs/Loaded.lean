import StackMachine.Program

/-! What the load checks promise of a method: its name and the names it calls can be written down, its arguments
fit its slots, every branch stays in its code, and every instruction but a terminator has another one after it.
A method and a program load again from their own parts. -/

namespace StackMachine
namespace Method

theorem findSome?_zipIdx_eq_none_iff {α β : Type} {l : List α} {f : α × Nat → Option β} :
    l.zipIdx.findSome? f = none ↔ ∀ k a, l[k]? = some a → f (a, k) = none := by
  rw [List.findSome?_eq_none_iff]
  constructor
  · intro h k a ha
    exact h (a, k) (List.mk_mem_zipIdx_iff_getElem?.mpr ha)
  · rintro h ⟨a, k⟩ ha
    exact h k a (List.mk_mem_zipIdx_iff_getElem?.mp ha)

/-- No load check fails exactly when every one of them holds. -/
theorem loadError?_eq_none_iff {name : String} {arity localCount : UInt16} {code : Array Instruction} :
    loadError? name arity localCount code = none ↔
      isName name = true ∧ arity ≤ localCount ∧ (∃ last, code.back? = some last ∧ last.opcode.isTerminator = true) ∧
        ∀ k i, code[k]? = some i → instructionError? name code.size k i = none := by
  unfold loadError?
  -- One case for each check, in the order in which they are made.
  by_cases hn : isName name = true
  · by_cases ha : localCount < arity
    · have : ¬arity ≤ localCount := UInt16.not_le.mpr ha
      simp [hn, ha, this]
    · have hle : arity ≤ localCount := UInt16.not_lt.mp ha
      cases hb : code.back? with
      | none => simp [hn, ha]
      | some last =>
        by_cases ht : last.opcode.isTerminator = true
        · have hall := findSome?_zipIdx_eq_none_iff (l := code.toList)
            (f := fun x => instructionError? name code.size x.2 x.1)
          simpa [hn, ha, hle, ht] using hall
        · simp [hn, ha, ht]
  · simp [hn]

variable (m : Method)

theorem isName_name : isName m.name = true :=
  (loadError?_eq_none_iff.mp m.checked).1

theorem arity_le_localCount : m.arity.toNat ≤ m.localCount.toNat :=
  UInt16.le_iff_toNat_le.mp (loadError?_eq_none_iff.mp m.checked).2.1

variable {m}

theorem instructionError?_eq_none {k : Nat} {i : Instruction} (hi : m.code[k]? = some i) :
    instructionError? m.name m.code.size k i = none :=
  (loadError?_eq_none_iff.mp m.checked).2.2.2 k i hi

theorem isName_callee {k : Nat} {name : String} {argc : UInt16} (hi : m.code[k]? = some (.invokeStatic name argc)) :
    isName name = true := by
  simpa [instructionError?] using instructionError?_eq_none hi

theorem target_lt {k : Nat} {i : Instruction} {t : UInt32} (hi : m.code[k]? = some i) (ht : i.target? = some t) :
    t.toNat < m.code.size := by
  have h := instructionError?_eq_none hi
  cases i <;> simp only [Instruction.target?, Option.some.injEq, reduceCtorEq] at ht <;> subst ht <;>
    simpa [instructionError?] using h

/-- The last instruction is a terminator, so every other kind has an instruction after it. -/
theorem succ_lt {k : Nat} {i : Instruction} (hi : m.code[k]? = some i) (ht : i.opcode.isTerminator = false) :
    k + 1 < m.code.size := by
  obtain ⟨last, hlast, hterm⟩ := (loadError?_eq_none_iff.mp m.checked).2.2.1
  obtain ⟨hk, rfl⟩ := Array.getElem?_eq_some_iff.mp hi
  rcases Nat.lt_or_ge (k + 1) m.code.size with hlt | hge
  · exact hlt
  -- Otherwise `i` is the last instruction, which is a terminator.
  · have hend : m.code.size - 1 = k := by omega
    rw [Array.back?_eq_getElem?, hend, hi] at hlast
    cases hlast
    rw [ht] at hterm
    cases hterm

variable (m)

theorem code_pos : 0 < m.code.size := by
  obtain ⟨last, hlast, -⟩ := (loadError?_eq_none_iff.mp m.checked).2.2.1
  rw [Array.back?_eq_getElem?] at hlast
  obtain ⟨h, -⟩ := Array.getElem?_eq_some_iff.mp hlast
  omega

theorem load_parts : load m.name m.arity m.localCount m.code = .ok m := by
  unfold load
  split
  · rfl
  · rename_i e he
    rw [m.checked] at he
    cases he

theorem name_of_load {name : String} {arity localCount : UInt16} {code : Array Instruction} {m : Method}
    (h : load name arity localCount code = .ok m) : m.name = name := by
  unfold load at h
  split at h
  · cases h
    rfl
  · cases h

theorem code_of_load {name : String} {arity localCount : UInt16} {code : Array Instruction} {m : Method}
    (h : load name arity localCount code = .ok m) : m.code = code := by
  unfold load at h
  split at h
  · cases h
    rfl
  · cases h

theorem load_eq_error_iff {name : String} {arity localCount : UInt16} {code : Array Instruction} {e : LoadError} :
    load name arity localCount code = .error e ↔ loadError? name arity localCount code = some e := by
  unfold load
  split
  · rename_i hnone
    constructor
    · intro h
      cases h
    · intro h
      rw [hnone] at h
      cases h
  · rename_i e' he
    rw [he, Except.error.injEq, Option.some.injEq]

end Method

theorem Program.firstRepeated?_eq_none_iff {seen names : List String} :
    firstRepeated? seen names = none ↔ names.Nodup ∧ ∀ name ∈ names, name ∉ seen := by
  induction names generalizing seen with
  | nil => simp [firstRepeated?]
  | cons name names ih =>
    rw [firstRepeated?, List.nodup_cons, List.forall_mem_cons]
    by_cases hseen : name ∈ seen
    · simp [hseen]
    · rw [if_neg hseen, ih]
      grind

theorem Program.duplicate?_eq_none_iff {ms : Array Method} :
    duplicate? ms = none ↔ (ms.toList.map (·.name)).Nodup := by
  simp [duplicate?, firstRepeated?_eq_none_iff]

theorem Program.load_methods (p : Program) : load p.methods = .ok p := by
  unfold load
  split
  · rfl
  · rename_i name hname
    rw [p.distinct] at hname
    cases hname

theorem Program.load_eq_ok_iff {ms : Array Method} {p : Program} : load ms = .ok p ↔ p.methods = ms := by
  constructor
  · intro h
    unfold load at h
    split at h
    · cases h
      rfl
    · cases h
  · rintro rfl
    exact p.load_methods

/-- A repeated name is reported where it stands for the second time, and no name before it is repeated. -/
theorem Program.exists_of_firstRepeated? {seen names : List String} {name : String}
    (h : firstRepeated? seen names = some name) : ∃ before after, names = before ++ name :: after ∧
      before.Nodup ∧ (∀ n ∈ before, n ∉ seen) ∧ (name ∈ before ∨ name ∈ seen) := by
  induction names generalizing seen with
  | nil => cases h
  | cons first names ih =>
    rw [firstRepeated?] at h
    split at h
    · rename_i hseen
      cases h
      exact ⟨[], names, rfl, List.nodup_nil, List.forall_mem_nil _, .inr hseen⟩
    · rename_i hseen
      obtain ⟨before, after, rfl, hnodup, hnew, hname⟩ := ih h
      have hfirst : first ∉ before := fun hmem => hnew first hmem List.mem_cons_self
      refine ⟨first :: before, after, rfl, List.nodup_cons.mpr ⟨hfirst, hnodup⟩, ?_, ?_⟩
      · intro n hn
        rcases List.mem_cons.mp hn with rfl | hn
        · exact hseen
        · exact fun hmem => hnew n hn (List.mem_cons_of_mem _ hmem)
      · -- To the rest `first` is a name that was seen; among all names it is one of those before.
        rw [List.mem_cons] at hname ⊢
        rcases hname with hname | hname | hname
        · exact .inl (.inr hname)
        · exact .inl (.inl hname)
        · exact .inr hname

theorem Program.exists_of_load_eq_error {ms : Array Method} {e : LoadError} (h : load ms = .error e) :
    ∃ name before after, e = .duplicateMethod name ∧ ms.toList.map (·.name) = before ++ name :: after ∧
      before.Nodup ∧ name ∈ before := by
  unfold load at h
  split at h
  · cases h
  · rename_i name hname
    cases h
    obtain ⟨before, after, hnames, hnodup, -, hmem⟩ := exists_of_firstRepeated? hname
    exact ⟨name, before, after, rfl, hnames, hnodup, hmem.resolve_right List.not_mem_nil⟩

theorem Program.nodup_names (p : Program) : (p.methods.toList.map (·.name)).Nodup :=
  duplicate?_eq_none_iff.mp p.distinct

/-- A small program: `main` calls a method that doubles its argument. -/
def Program.doubling : Program where
  methods := #[⟨"main", 0, 0, #[.pushConst (-7), .invokeStatic "größer" 1, .ret], by decide +kernel⟩,
    ⟨"größer", 1, 1, #[.loadLocal 0, .dup, .jump 3, .arith .add, .ret], by decide +kernel⟩]
  distinct := by decide +kernel

end StackMachine
