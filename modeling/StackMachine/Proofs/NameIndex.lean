import StackMachine.Proofs.Loaded

/-! The names of a program find its methods. A program has no two methods of one name, so a name has at most one index,
and it is that of the method with this name. A table that is filled method by method, and that gives up at the first
name it holds already, knows the same: after each method it lists exactly the methods so far. -/

namespace StackMachine

/-! ### Looking up a name -/

namespace Program
variable {p : Program} {name : String} {m : Method} {k : Nat}

theorem find?_eq_some {i : Fin p.methods.size} (h : p.find? name = some i) :
    p.methods[i.val]? = some (p.method i) ∧ (p.method i).name = name := by
  have hname := (Array.findFinIdx?_eq_some_iff.mp h).1
  exact ⟨Array.getElem?_eq_getElem i.isLt, eq_of_beq hname⟩

theorem find?_method (i : Fin p.methods.size) : p.find? (p.method i).name = some i := by
  refine Array.findFinIdx?_eq_some_iff.mpr ⟨beq_self_eq_true _, fun j hj hname => ?_⟩
  -- No two methods share a name, so none before this one has it.
  have hdistinct := List.pairwise_iff_getElem.mp p.nodup_names j i (by simp) (by simp) hj
  simp only [List.getElem_map, Array.getElem_toList] at hdistinct
  exact hdistinct (eq_of_beq hname)

/-- A name resolves to an index exactly if the method there has it. -/
theorem resolve?_eq_some_iff : p.resolve? name = some k ↔ ∃ m, p.methods[k]? = some m ∧ m.name = name := by
  constructor
  · intro h
    obtain ⟨i, hi, rfl⟩ := Option.map_eq_some_iff.mp h
    exact ⟨p.method i, find?_eq_some hi⟩
  · rintro ⟨m, hm, rfl⟩
    obtain ⟨hk, rfl⟩ := Array.getElem?_eq_some_iff.mp hm
    exact congrArg (Option.map Fin.val) (find?_method ⟨k, hk⟩)

/-- A program finds each of its methods under its name. -/
theorem get?_name (p : Program) (h : p.methods[k]? = some m) : p.get? m.name = some m := by
  obtain ⟨hk, rfl⟩ := Array.getElem?_eq_some_iff.mp h
  exact congrArg (Option.map p.method) (find?_method ⟨k, hk⟩)

theorem get?_eq_some_iff : p.get? name = some m ↔ m ∈ p.methods ∧ m.name = name := by
  constructor
  · intro h
    obtain ⟨i, hi, rfl⟩ := Option.map_eq_some_iff.mp h
    obtain ⟨hmethod, hname⟩ := find?_eq_some hi
    exact ⟨Array.mem_of_getElem? hmethod, hname⟩
  · rintro ⟨hm, rfl⟩
    obtain ⟨k, hk⟩ := Array.mem_iff_getElem?.mp hm
    exact p.get?_name hk

theorem eq_iff_methods_eq {q : Program} : p = q ↔ p.methods = q.methods := by
  constructor
  · rintro rfl
    rfl
  · intro h
    cases p
    cases q
    cases h
    rfl

/-! ### The first name that is repeated -/

/-- The name at the end of names that are new and distinct is the first one that is repeated. -/
theorem firstRepeated?_append {seen before after : List String} (hnodup : before.Nodup)
    (hnew : ∀ n ∈ before, n ∉ seen) (hname : name ∈ before ∨ name ∈ seen) :
    firstRepeated? seen (before ++ name :: after) = some name := by
  induction before generalizing seen with
  | nil =>
    have hseen : name ∈ seen := hname.resolve_left List.not_mem_nil
    rw [List.nil_append, firstRepeated?, if_pos hseen]
  | cons first before ih =>
    obtain ⟨hfirst, hnodup⟩ := List.nodup_cons.mp hnodup
    obtain ⟨hseen, hnew⟩ := List.forall_mem_cons.mp hnew
    rw [List.cons_append, firstRepeated?, if_neg hseen]
    -- From here on `first` is one of the names that were seen.
    refine ih hnodup (fun n hn hmem => ?_) ?_
    · rcases List.mem_cons.mp hmem with rfl | hmem
      · exact hfirst hn
      · exact hnew n hn hmem
    · rcases hname with hname | hname
      · rcases List.mem_cons.mp hname with rfl | hname
        · exact Or.inr List.mem_cons_self
        · exact Or.inl hname
      · exact Or.inr (List.mem_cons_of_mem _ hname)

theorem load_eq_error_iff {ms : Array Method} {e : LoadError} : load ms = .error e ↔
    ∃ name, duplicate? ms = some name ∧ e = .duplicateMethod name := by
  unfold load
  split
  · rename_i hnone
    simp [hnone]
  · rename_i name hname
    simp [hname, eq_comm]

theorem exists_load_eq_ok_iff {ms : Array Method} :
    (∃ p, load ms = .ok p ∧ p.methods = ms) ↔ (ms.toList.map (·.name)).Nodup := by
  rw [← duplicate?_eq_none_iff]
  constructor
  · rintro ⟨p, -, rfl⟩
    exact p.distinct
  · intro h
    exact ⟨⟨ms, h⟩, load_eq_ok_iff.mpr rfl, rfl⟩

/-- Loading fails with the first method whose name is that of a method before it. -/
theorem load_eq_error_iff_repeated {ms : Array Method} {e : LoadError} : load ms = .error e ↔
    ∃ before m after, ms.toList = before ++ m :: after ∧ (before.map (·.name)).Nodup ∧
      m.name ∈ before.map (·.name) ∧ e = .duplicateMethod m.name := by
  constructor
  · intro h
    obtain ⟨name, before, after, rfl, hnames, hnodup, hmem⟩ := exists_of_load_eq_error h
    obtain ⟨front, back, hms, rfl, hback⟩ := List.map_eq_append_iff.mp hnames
    obtain ⟨m, back, rfl, rfl, -⟩ := List.map_eq_cons_iff.mp hback
    exact ⟨front, m, back, hms, hnodup, hmem, rfl⟩
  · rintro ⟨before, m, after, hms, hnodup, hmem, rfl⟩
    refine load_eq_error_iff.mpr ⟨m.name, ?_, rfl⟩
    rw [duplicate?, hms, List.map_append, List.map_cons]
    exact firstRepeated?_append hnodup (fun _ _ => List.not_mem_nil) (Or.inl hmem)

end Program

/-! ### The table of names -/

/-- Names with the indices of their methods. -/
structure NameIndex where
  entries : List (String × Nat)

namespace NameIndex

/-- No names. -/
def empty : NameIndex := ⟨[]⟩

/-- The index that stands under a name. -/
def get? (t : NameIndex) (name : String) : Option Nat :=
  t.entries.lookup name

/-- Puts an index under a name, whatever stood there, and gives what stood there. -/
def insert (t : NameIndex) (name : String) (index : Nat) : Option Nat × NameIndex :=
  (t.get? name, ⟨(name, index) :: t.entries⟩)

/-- Inserts methods one by one, the first of them with this index, up to a name that has an index already. -/
def insertAll (t : NameIndex) (index : Nat) : List Method → Except LoadError NameIndex
  | [] => .ok t
  | m :: ms =>
    match t.insert m.name index with
    | (none, t) => t.insertAll (index + 1) ms
    | (some _, _) => .error (.duplicateMethod m.name)

/-- The table holds these methods: under each of their names the index of the method with it, and nothing else. -/
def Lists (t : NameIndex) (ms : List Method) : Prop :=
  ∀ name k, t.get? name = some k ↔ ∃ m, ms[k]? = some m ∧ m.name = name

variable {t : NameIndex} {ms done rest : List Method} {m : Method}

theorem lists_empty : empty.Lists [] := by
  intro name k
  simp [empty, get?]

theorem get?_insert (t : NameIndex) (name x : String) (index : Nat) :
    (t.insert name index).2.get? x = if x = name then some index else t.get? x := by
  rw [insert, get?, List.lookup_cons]
  by_cases hx : x = name
  · rw [if_pos hx, hx, beq_self_eq_true]
  · rw [if_neg hx, beq_false_of_ne hx]
    rfl

theorem Lists.get?_eq_none_iff (h : t.Lists ms) (name : String) : t.get? name = none ↔ name ∉ ms.map (·.name) := by
  rw [Option.eq_none_iff_forall_ne_some]
  constructor
  · intro hnone hmem
    obtain ⟨m, hm, rfl⟩ := List.mem_map.mp hmem
    obtain ⟨k, hk⟩ := List.mem_iff_getElem?.mp hm
    exact hnone k ((h m.name k).mpr ⟨m, hk, rfl⟩)
  · intro hmem k hk
    obtain ⟨m, hm, rfl⟩ := (h name k).mp hk
    exact hmem (List.mem_map_of_mem (List.mem_of_getElem? hm))

/-- A method with a new name is listed after those before it. -/
theorem Lists.insert (h : t.Lists done) (hnew : m.name ∉ done.map (·.name)) :
    (t.insert m.name done.length).2.Lists (done ++ [m]) := by
  intro name k
  have hname := h name k
  rw [get?_insert]
  by_cases hm : name = m.name
  · -- The methods before have other names, so only the new one is found.
    rw [if_pos hm, Option.some.injEq]
    constructor
    · rintro rfl
      exact ⟨m, List.getElem?_concat_length, hm.symm⟩
    · rintro ⟨m', hm', rfl⟩
      rcases Nat.lt_trichotomy k done.length with hk | hk | hk
      · rw [List.getElem?_append_left hk] at hm'
        exact absurd (hm ▸ List.mem_map_of_mem (List.mem_of_getElem? hm')) hnew
      · exact hk.symm
      · rw [List.getElem?_eq_none (by simp; omega)] at hm'
        cases hm'
  · rw [if_neg hm, hname]
    refine exists_congr fun m' => ?_
    rw [List.getElem?_append]
    by_cases hk : k < done.length
    · rw [if_pos hk]
    · rw [if_neg hk, List.getElem?_eq_none (Nat.le_of_not_lt hk), List.getElem?_singleton]
      split
      · constructor
        · rintro ⟨h, -⟩
          cases h
        · rintro ⟨h, hn⟩
          cases h
          exact absurd hn.symm hm
      · rfl

theorem insertAll_cons_of_mem (h : t.Lists done) (hm : m.name ∈ done.map (·.name)) (index : Nat) :
    t.insertAll index (m :: rest) = .error (.duplicateMethod m.name) := by
  have hold : t.get? m.name ≠ none := fun hnone => (h.get?_eq_none_iff _).mp hnone hm
  obtain ⟨old, hold⟩ := Option.ne_none_iff_exists'.mp hold
  simp only [insertAll, insert, hold]

theorem insertAll_cons_of_not_mem (h : t.Lists done) (hm : m.name ∉ done.map (·.name)) (index : Nat) :
    t.insertAll index (m :: rest) = (t.insert m.name index).2.insertAll (index + 1) rest := by
  simp only [insertAll, insert, (h.get?_eq_none_iff _).mpr hm]

/-- Where the first methods are listed, the others follow them up to the first name that is repeated. -/
theorem Lists.insertAll (h : t.Lists done) (rest : List Method) {seen : List String}
    (hseen : ∀ n, n ∈ seen ↔ n ∈ done.map (·.name)) :
    (∃ name, Program.firstRepeated? seen (rest.map (·.name)) = some name ∧
      t.insertAll done.length rest = .error (.duplicateMethod name)) ∨
    (Program.firstRepeated? seen (rest.map (·.name)) = none ∧
      ∃ t', t.insertAll done.length rest = .ok t' ∧ t'.Lists (done ++ rest)) := by
  induction rest generalizing t done seen with
  | nil => exact Or.inr ⟨rfl, t, rfl, by rwa [List.append_nil]⟩
  | cons m rest ih =>
    rw [List.map_cons, Program.firstRepeated?]
    by_cases hm : m.name ∈ seen
    · rw [if_pos hm]
      exact Or.inl ⟨m.name, rfl, insertAll_cons_of_mem h ((hseen _).mp hm) _⟩
    · have hnew := mt (hseen _).mpr hm
      have hnext : ∀ n, n ∈ m.name :: seen ↔ n ∈ (done ++ [m]).map (·.name) := by
        intro n
        rw [List.mem_cons, hseen, List.map_append, List.mem_append, List.map_singleton, List.mem_singleton, or_comm]
      have hrest := ih (h.insert hnew) hnext
      rw [List.length_append, List.length_singleton, List.append_assoc, List.singleton_append] at hrest
      rwa [if_neg hm, insertAll_cons_of_not_mem h hnew]

/-- Filling a table from no name on succeeds and fails as loading does, and the table then resolves names as the
program. -/
theorem insertAll_empty (ms : Array Method) :
    get? <$> empty.insertAll 0 ms.toList = Program.resolve? <$> Program.load ms := by
  have hseen : ∀ n, n ∈ [] ↔ n ∈ ([] : List Method).map (·.name) := fun _ => Iff.rfl
  rcases lists_empty.insertAll ms.toList hseen with ⟨name, hname, hfill⟩ | ⟨hnone, t, hfill, hlists⟩
  · have hload := Program.load_eq_error_iff.mpr ⟨name, hname, rfl⟩
    rw [hload]
    exact congrArg (get? <$> ·) hfill
  · have hload : Program.load ms = .ok ⟨ms, hnone⟩ := Program.load_eq_ok_iff.mpr rfl
    have hget : t.get? = Program.resolve? ⟨ms, hnone⟩ := by
      funext name
      apply Option.ext
      intro k
      rw [hlists, Program.resolve?_eq_some_iff]
      simp
    rw [hload]
    exact (congrArg (get? <$> ·) hfill).trans (congrArg Except.ok hget)

end NameIndex

/-- The name index of a program is exact. Loading takes methods with distinct names only, and otherwise names the first
method whose name was taken; a table filled on the way succeeds and fails with it and resolves the same names. A name
resolves to the index of the one method that has it, and nothing but its methods tells two programs apart. -/
theorem Program.index_exact :
    (∀ ms : Array Method, (∃ p, load ms = .ok p ∧ p.methods = ms) ↔ (ms.toList.map (·.name)).Nodup) ∧
    (∀ (ms : Array Method) (e : LoadError), load ms = .error e ↔
      ∃ before m after, ms.toList = before ++ m :: after ∧ (before.map (·.name)).Nodup ∧
        m.name ∈ before.map (·.name) ∧ e = .duplicateMethod m.name) ∧
    (∀ ms : Array Method, NameIndex.get? <$> NameIndex.empty.insertAll 0 ms.toList = resolve? <$> load ms) ∧
    (∀ (p : Program) (name : String),
      (∀ k, p.resolve? name = some k ↔ ∃ m, p.methods[k]? = some m ∧ m.name = name) ∧
      ∀ m, p.get? name = some m ↔ m ∈ p.methods ∧ m.name = name) ∧
    ∀ p q : Program, p = q ↔ p.methods = q.methods := by
  refine ⟨fun ms => exists_load_eq_ok_iff, fun ms e => load_eq_error_iff_repeated, NameIndex.insertAll_empty, ?_, ?_⟩
  · exact fun p name => ⟨fun k => resolve?_eq_some_iff, fun m => get?_eq_some_iff⟩
  · exact fun p q => eq_iff_methods_eq

end StackMachine
