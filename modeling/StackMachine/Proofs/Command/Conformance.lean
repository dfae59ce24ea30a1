import Mathlib.Data.List.Perm.Basic
import Mathlib.Data.String.Basic
import StackMachine.Proofs.Command.Compiled
import StackMachine.Proofs.Fixture.Directives

/-! Checking fixtures hides no failure. The exit code and the counts of the report say what the files hold and how the
sessions of their directives end, whatever the file system, and they do not depend on the order of the paths. -/

namespace StackMachine

/-! ### Counts -/

/-- The counts of a report on fixtures. -/
structure Tally where
  passed : Nat
  failed : Nat
  broken : Nat
  files : Nat

namespace Tally
variable (t : Tally)

/-- The last line of the report. -/
def line : String :=
  s!"{t.passed} passed, {t.failed} failed, {t.broken} fixture error(s) across {t.files} file(s)\n"

/-- The exit code that goes with the counts: files that do not load come before directives that are not met. -/
def exitCode : UInt32 :=
  if 0 < t.broken then 1 else if 0 < t.failed then 2 else 0

/-- The counts of files that were checked. -/
def ofChecked (cs : List Checked) : Tally where
  passed := (cs.flatMap (·.verdicts)).countP (·.passed)
  failed := (cs.flatMap (·.verdicts)).countP fun v => !v.passed
  broken := cs.countP (·.broken)
  files := cs.length

theorem exitCode_eq_zero_iff : t.exitCode = 0 ↔ ¬ 0 < t.broken ∧ ¬ 0 < t.failed := by
  unfold exitCode
  split_ifs <;> simp_all

theorem exitCode_eq_one_iff : t.exitCode = 1 ↔ 0 < t.broken := by
  unfold exitCode
  split_ifs <;> simp_all

theorem exitCode_eq_two_iff : t.exitCode = 2 ↔ ¬ 0 < t.broken ∧ 0 < t.failed := by
  unfold exitCode
  split_ifs <;> simp_all

theorem ofChecked_perm {cs cs' : List Checked} (h : cs.Perm cs') : ofChecked cs = ofChecked cs' := by
  have hverdicts := h.flatMap_right (·.verdicts)
  simp only [ofChecked, hverdicts.countP_eq, h.countP_eq, h.length_eq]

end Tally

theorem Checked.foldl_countP (p : Verdict → Bool) (cs : List Checked) (n : Nat) :
    cs.foldl (fun n c => n + c.verdicts.countP p) n = n + (cs.flatMap (·.verdicts)).countP p := by
  induction cs generalizing n with
  | nil => rfl
  | cons c cs ih => rw [List.foldl_cons, ih, List.flatMap_cons, List.countP_append, Nat.add_assoc]

theorem Report.exitCode_ofChecked (cs : List Checked) :
    (Report.ofChecked cs).exitCode = (Tally.ofChecked cs).exitCode := by
  simp only [Report.ofChecked, Checked.failed, Checked.foldl_countP, Nat.zero_add]
  rfl

theorem Report.out_ofChecked (cs : List Checked) :
    (Report.ofChecked cs).out = String.join (cs.map (·.out)) ++ (Tally.ofChecked cs).line := by
  simp only [Report.ofChecked, Checked.passed, Checked.failed, Checked.foldl_countP, Nat.zero_add]
  rfl

/-! ### Directives of a fixture -/

instance (expected : Expected) (outcome : Outcome) : Decidable (expected.Met outcome) :=
  decidable_of_iff _ (Verdict.passed_iff ⟨⟨0, "", expected⟩, outcome⟩)

namespace Fixture
variable (f : Fixture) (a : Allotment)

/-- The session of an expectation, which calls its method without arguments, ends as expected. -/
def Meets (e : Expectation) : Prop :=
  e.expected.Met (f.program.execute a e.entry [])

instance (e : Expectation) : Decidable (f.Meets a e) :=
  inferInstanceAs (Decidable (Expected.Met _ _))

/-- The expectations that are met. -/
def met : List Expectation :=
  f.expectations.filter (f.Meets a ·)

theorem length_verdicts : (f.verdicts a).length = f.expectations.length :=
  List.length_map _

theorem countP_passed : (f.verdicts a).countP (·.passed) = (f.met a).length := by
  rw [verdicts, met, List.countP_map, List.countP_eq_length_filter]
  congr 2
  funext e
  exact Bool.eq_iff_iff.mpr ((Verdict.passed_iff _).trans decide_eq_true_iff.symm)

theorem exists_not_passed_iff : (∃ v ∈ f.verdicts a, v.passed = false) ↔ ∃ e ∈ f.expectations, ¬ f.Meets a e := by
  have hnot : ∀ v : Verdict, v.passed = false ↔ ¬ v.expectation.expected.Met v.outcome := fun v => by
    rw [← v.passed_iff, Bool.not_eq_true]
  simp only [verdicts, List.mem_map, exists_exists_and_eq_and, hnot]
  rfl

variable {f}

/-- A text holds a fixture if its directives can be read, there is one of them, and it assembles. -/
theorem ofText_eq_ok_iff {text : String} : ofText text = .ok f ↔
    Expectation.ofText text = .ok f.expectations ∧ f.expectations ≠ [] ∧ assemble text = .ok f.program := by
  rw [ofText]
  cases Expectation.ofText text with
  | error e =>
    constructor
    · intro h
      cases h
    · rintro ⟨h, -⟩
      cases h
  | ok found =>
    cases found with
    | nil =>
      constructor
      · intro h
        cases h
      · rintro ⟨h, hsome, -⟩
        exact absurd (Except.ok.inj h).symm hsome
    | cons e found =>
      cases assemble text with
      | error e' =>
        constructor
        · intro h
          cases h
        · rintro ⟨-, -, h⟩
          cases h
      | ok p =>
        change Except.ok (Fixture.mk p (e :: found)) = _ ↔ _
        obtain ⟨program, expectations⟩ := f
        constructor
        · intro h
          cases h
          exact ⟨rfl, List.cons_ne_nil _ _, rfl⟩
        · rintro ⟨h, -, h'⟩
          cases h
          cases h'
          rfl

end Fixture

/-! ### File systems -/

/-- What paths lead to: the bytes of a file, and the names in a directory. Both may be denied. -/
structure FileSystem where
  read : String → Command.Content
  names? : String → Option (Except FileError (List String))

namespace FileSystem

/-- In this state, reading and listing answer as the file system does, and change nothing. -/
structure Shows {σ : Type} [Files (StateM σ)] (fs : FileSystem) (s : σ) : Prop where
  read (path : String) : (Files.read path : StateM σ _).run s = (fs.read path, s)
  names? (path : String) : (Files.names? path : StateM σ _).run s = (fs.names? path, s)

variable (fs : FileSystem)

/-- The file at a path is a text with a fixture. -/
structure Loads (path : String) (f : Fixture) : Prop where
  text : ∃ text, fs.read path = .ok (Bytes.ofString text) ∧ Expectation.ofText text = .ok f.expectations ∧
    assemble text = .ok f.program
  directives : f.expectations ≠ []

/-- The fixtures that files hold, and the paths of the other files, both in order. -/
inductive Loading : (paths : List String) → (fixtures : List Fixture) → (broken : List String) → Prop
  | nil : Loading [] [] []
  | loads {path : String} {f : Fixture} {paths : List String} {fixtures : List Fixture} {broken : List String} :
    fs.Loads path f → Loading paths fixtures broken → Loading (path :: paths) (f :: fixtures) broken
  | breaks {path : String} {paths : List String} {fixtures : List Fixture} {broken : List String} :
    (∀ f, ¬ fs.Loads path f) → Loading paths fixtures broken → Loading (path :: paths) fixtures (path :: broken)

/-- What checking the files gives. -/
def checked (a : Allotment) (paths : List String) : List Checked :=
  paths.map fun path => Command.checked a path (fs.read path)

end FileSystem

namespace Command

theorem textOf_eq_ok_iff {path text : String} {content : Content} :
    textOf path content = .ok text ↔ content = .ok (Bytes.ofString text) := by
  cases content with
  | error e => simp [textOf]
  | ok bytes =>
    rw [Except.ok.injEq, ← Bytes.toString?_eq_some_iff, textOf]
    cases Bytes.toString? bytes <;> simp

theorem checked_result_eq_ok_iff {fs : FileSystem} {a : Allotment} {path : String} {vs : List Verdict} :
    (checked a path (fs.read path)).result = .ok vs ↔ ∃ f, fs.Loads path f ∧ f.verdicts a = vs := by
  simp only [checked, bind_eq_ok_iff, textOf_eq_ok_iff, mapError_eq_ok_iff, Fixture.check, map_eq_ok_iff,
    Fixture.ofText_eq_ok_iff]
  constructor
  · rintro ⟨text, htext, f, ⟨hread, hsome, hassemble⟩, hvs⟩
    exact ⟨f, ⟨⟨text, htext, hread, hassemble⟩, hsome⟩, hvs⟩
  · rintro ⟨f, ⟨⟨text, htext, hread, hassemble⟩, hsome⟩, hvs⟩
    exact ⟨text, htext, f, ⟨hread, hsome, hassemble⟩, hvs⟩

end Command

namespace FileSystem
variable {fs : FileSystem} {a : Allotment} {path : String} {f f' : Fixture}

theorem Loads.unique (h : fs.Loads path f) (h' : fs.Loads path f') : f = f' := by
  obtain ⟨⟨text, htext, hread, hassemble⟩, hsome⟩ := h
  obtain ⟨⟨text', htext', hread', hassemble'⟩, hsome'⟩ := h'
  have hbytes := Bytes.toString?_eq_some_iff.mpr (Except.ok.inj (htext.symm.trans htext'))
  cases (Bytes.toString?_eq_some_iff.mpr rfl).symm.trans hbytes
  have hf := Fixture.ofText_eq_ok_iff.mpr ⟨hread, hsome, hassemble⟩
  have hf' := Fixture.ofText_eq_ok_iff.mpr ⟨hread', hsome', hassemble'⟩
  exact Except.ok.inj (hf.symm.trans hf')

theorem Loads.verdicts (h : fs.Loads path f) : (Command.checked a path (fs.read path)).verdicts = f.verdicts a := by
  rw [Checked.verdicts, Command.checked_result_eq_ok_iff.mpr ⟨f, h, rfl⟩]

theorem Loads.broken (h : fs.Loads path f) : (Command.checked a path (fs.read path)).broken = false := by
  rw [Checked.broken, Command.checked_result_eq_ok_iff.mpr ⟨f, h, rfl⟩]

theorem result_of_not_loads (h : ∀ f, ¬ fs.Loads path f) :
    ∃ e, (Command.checked a path (fs.read path)).result = .error e := by
  cases hresult : (Command.checked a path (fs.read path)).result with
  | error e => exact ⟨e, rfl⟩
  | ok vs =>
    obtain ⟨f, hf, -⟩ := Command.checked_result_eq_ok_iff.mp hresult
    exact absurd hf (h f)

theorem verdicts_of_not_loads (h : ∀ f, ¬ fs.Loads path f) :
    (Command.checked a path (fs.read path)).verdicts = [] := by
  obtain ⟨e, he⟩ := result_of_not_loads (a := a) h
  rw [Checked.verdicts, he]

theorem broken_of_not_loads (h : ∀ f, ¬ fs.Loads path f) :
    (Command.checked a path (fs.read path)).broken = true := by
  obtain ⟨e, he⟩ := result_of_not_loads (a := a) h
  rw [Checked.broken, he]

/-! ### Loading files -/

variable {paths broken : List String} {fixtures : List Fixture}

theorem exists_loading (fs : FileSystem) (paths : List String) :
    ∃ fixtures broken, fs.Loading paths fixtures broken := by
  induction paths with
  | nil => exact ⟨[], [], .nil⟩
  | cons path paths ih =>
    obtain ⟨fixtures, broken, h⟩ := ih
    by_cases hloads : ∃ f, fs.Loads path f
    · obtain ⟨f, hf⟩ := hloads
      exact ⟨f :: fixtures, broken, .loads hf h⟩
    · exact ⟨fixtures, path :: broken, .breaks (not_exists.mp hloads) h⟩

namespace Loading

theorem mem_broken_iff (h : fs.Loading paths fixtures broken) :
    path ∈ broken ↔ path ∈ paths ∧ ∀ f, ¬ fs.Loads path f := by
  induction h with
  | nil => simp
  | loads hf _ ih =>
    rw [ih, List.mem_cons]
    constructor
    · rintro ⟨hmem, hnot⟩
      exact ⟨Or.inr hmem, hnot⟩
    · rintro ⟨rfl | hmem, hnot⟩
      · exact absurd hf (hnot _)
      · exact ⟨hmem, hnot⟩
  | breaks hnone _ ih =>
    rw [List.mem_cons, List.mem_cons, ih]
    constructor
    · rintro (rfl | ⟨hmem, hnot⟩)
      · exact ⟨Or.inl rfl, hnone⟩
      · exact ⟨Or.inr hmem, hnot⟩
    · rintro ⟨rfl | hmem, hnot⟩
      · exact Or.inl rfl
      · exact Or.inr ⟨hmem, hnot⟩

theorem mem_fixtures_iff (h : fs.Loading paths fixtures broken) : f ∈ fixtures ↔ ∃ path ∈ paths, fs.Loads path f := by
  induction h with
  | nil => simp
  | loads hf _ ih =>
    rw [List.mem_cons, ih, List.exists_mem_cons_iff]
    exact or_congr_left ⟨fun heq => heq ▸ hf, fun hf' => hf'.unique hf⟩
  | breaks hnone _ ih =>
    rw [ih, List.exists_mem_cons_iff, or_iff_right (hnone f)]

theorem flatMap_verdicts (h : fs.Loading paths fixtures broken) :
    (fs.checked a paths).flatMap (·.verdicts) = fixtures.flatMap (·.verdicts a) := by
  induction h with
  | nil => rfl
  | loads hf _ ih =>
    rw [checked] at ih ⊢
    rw [List.map_cons, List.flatMap_cons, List.flatMap_cons, hf.verdicts, ih]
  | breaks hnone _ ih =>
    rw [checked] at ih ⊢
    rw [List.map_cons, List.flatMap_cons, verdicts_of_not_loads hnone, ih, List.nil_append]

theorem countP_broken (h : fs.Loading paths fixtures broken) :
    (fs.checked a paths).countP (·.broken) = broken.length := by
  induction h with
  | nil => rfl
  | loads hf _ ih =>
    rw [checked] at ih ⊢
    rw [List.map_cons, List.countP_cons_of_neg (by simp [hf.broken]), ih]
  | breaks hnone _ ih =>
    rw [checked] at ih ⊢
    rw [List.map_cons, List.countP_cons_of_pos (broken_of_not_loads hnone), ih, List.length_cons]

theorem passed_eq (h : fs.Loading paths fixtures broken) :
    (Tally.ofChecked (fs.checked a paths)).passed = (fixtures.flatMap (·.met a)).length := by
  change ((fs.checked a paths).flatMap (·.verdicts)).countP (·.passed) = _
  rw [h.flatMap_verdicts]
  clear h
  induction fixtures with
  | nil => rfl
  | cons f fixtures ih =>
    rw [List.flatMap_cons, List.flatMap_cons, List.countP_append, f.countP_passed, ih, List.length_append]

theorem passed_add_failed (h : fs.Loading paths fixtures broken) :
    (Tally.ofChecked (fs.checked a paths)).passed + (Tally.ofChecked (fs.checked a paths)).failed =
      (fixtures.flatMap (·.expectations)).length := by
  have hlength : (fixtures.flatMap (·.verdicts a)).length = (fixtures.flatMap (·.expectations)).length := by
    simp only [List.length_flatMap, Fixture.length_verdicts]
  have hsplit := List.length_eq_countP_add_countP (·.passed) (l := fixtures.flatMap (·.verdicts a))
  rw [Tally.ofChecked, h.flatMap_verdicts, ← hlength, hsplit]
  simp

end Loading

theorem broken_pos_iff (fs : FileSystem) (a : Allotment) (paths : List String) :
    0 < (Tally.ofChecked (fs.checked a paths)).broken ↔ ∃ path ∈ paths, ∀ f, ¬ fs.Loads path f := by
  obtain ⟨fixtures, broken, h⟩ := fs.exists_loading paths
  rw [Tally.ofChecked, h.countP_broken, List.length_pos_iff_exists_mem]
  exact exists_congr fun path => h.mem_broken_iff

theorem failed_pos_iff (fs : FileSystem) (a : Allotment) (paths : List String) :
    0 < (Tally.ofChecked (fs.checked a paths)).failed ↔
      ∃ path ∈ paths, ∃ f, fs.Loads path f ∧ ∃ e ∈ f.expectations, ¬ f.Meets a e := by
  obtain ⟨fixtures, broken, h⟩ := fs.exists_loading paths
  rw [Tally.ofChecked, h.flatMap_verdicts, List.countP_pos_iff]
  simp only [List.mem_flatMap, Bool.not_eq_true']
  constructor
  · rintro ⟨v, ⟨f, hf, hv⟩, hfailed⟩
    obtain ⟨path, hpath, hloads⟩ := h.mem_fixtures_iff.mp hf
    exact ⟨path, hpath, f, hloads, (f.exists_not_passed_iff a).mp ⟨v, hv, hfailed⟩⟩
  · rintro ⟨path, hpath, f, hloads, hunmet⟩
    obtain ⟨v, hv, hfailed⟩ := (f.exists_not_passed_iff a).mpr hunmet
    exact ⟨v, ⟨f, h.mem_fixtures_iff.mpr ⟨path, hpath, hloads⟩, hv⟩, hfailed⟩

/-! ### Reports -/

/-- The report says how the files at these paths do: its exit code is 1 if one of them does not load, else 2 if a
directive is not met, else 0, and its last line has their counts. -/
structure Tells (fs : FileSystem) (a : Allotment) (paths : List String) (r : Report) (t : Tally) : Prop where
  zero : r.exitCode = 0 ↔ ∀ path ∈ paths, ∃ f, fs.Loads path f ∧ ∀ e ∈ f.expectations, f.Meets a e
  one : r.exitCode = 1 ↔ ∃ path ∈ paths, ∀ f, ¬ fs.Loads path f
  two : r.exitCode = 2 ↔ (∀ path ∈ paths, ∃ f, fs.Loads path f) ∧
    ∃ path ∈ paths, ∃ f, fs.Loads path f ∧ ∃ e ∈ f.expectations, ¬ f.Meets a e
  printed : ∃ lines, r.out = lines ++ t.line
  counted : ∃ fixtures broken, fs.Loading paths fixtures broken ∧
    t.passed + t.failed = (fixtures.flatMap (·.expectations)).length ∧
    t.passed = (fixtures.flatMap (·.met a)).length ∧ t.broken = broken.length ∧ t.files = paths.length

theorem tells_ofChecked (fs : FileSystem) (a : Allotment) (paths : List String) :
    fs.Tells a paths (.ofChecked (fs.checked a paths)) (.ofChecked (fs.checked a paths)) := by
  have hbroken := fs.broken_pos_iff a paths
  have hfailed := fs.failed_pos_iff a paths
  have hload : ¬ (∃ path ∈ paths, ∀ f, ¬ fs.Loads path f) ↔ ∀ path ∈ paths, ∃ f, fs.Loads path f := by
    push Not
    rfl
  constructor
  · rw [Report.exitCode_ofChecked, Tally.exitCode_eq_zero_iff, hbroken, hfailed, hload]
    constructor
    · rintro ⟨hall, hmet⟩ path hpath
      obtain ⟨f, hf⟩ := hall path hpath
      refine ⟨f, hf, fun e he => ?_⟩
      by_contra hunmet
      exact hmet ⟨path, hpath, f, hf, e, he, hunmet⟩
    · intro hall
      refine ⟨fun path hpath => (hall path hpath).imp fun f hf => hf.1, ?_⟩
      rintro ⟨path, hpath, f, hf, e, he, hunmet⟩
      -- The fixture whose directive fails is the one that was found to meet them all.
      obtain ⟨f', hf', hmet⟩ := hall path hpath
      cases hf'.unique hf
      exact hunmet (hmet e he)
  · rw [Report.exitCode_ofChecked, Tally.exitCode_eq_one_iff, hbroken]
  · rw [Report.exitCode_ofChecked, Tally.exitCode_eq_two_iff, hbroken, hfailed, hload]
  · exact ⟨_, Report.out_ofChecked _⟩
  · obtain ⟨fixtures, broken, h⟩ := fs.exists_loading paths
    exact ⟨fixtures, broken, h, h.passed_add_failed, h.passed_eq, h.countP_broken, List.length_map _⟩

end FileSystem

/-! ### Collecting fixtures -/

namespace Command

/-- The extension of a name is what follows its last dot, unless the name starts with that dot. -/
def HasExtension (name ext : String) : Prop :=
  '.' ∉ ext.toList ∧ ∃ stem, stem ≠ "" ∧ name = stem ++ "." ++ ext

theorem isFixture_iff {name : String} : isFixture name = true ↔ HasExtension name "tasm" := by
  have hext : '.' ∉ "tasm".toList := by decide
  rw [isFixture, Bool.and_eq_true, isText, List.isSuffixOf_iff_suffix, decide_eq_true_iff, HasExtension,
    and_iff_right hext]
  constructor
  · rintro ⟨⟨stem, hstem⟩, hne⟩
    have hname : name = String.ofList stem ++ "." ++ "tasm" := by
      rw [← String.toList_inj, ← hstem]
      simp
    refine ⟨String.ofList stem, fun hempty => hne ?_, hname⟩
    rw [hname, hempty]
    rfl
  · rintro ⟨stem, hne, rfl⟩
    refine ⟨⟨stem.toList, by simp⟩, fun heq => hne ?_⟩
    have hlength := congrArg (·.toList.length) heq
    rw [← String.toList_inj]
    simpa using hlength

/-- The fixtures among the names in a directory, in order. -/
structure Picks (names found : List String) : Prop where
  sorted : found.Pairwise (· ≤ ·)
  fixtures : ∀ name ∈ found, HasExtension name "tasm"
  others : ∃ others, (found ++ others).Perm names ∧ ∀ name ∈ others, ¬ HasExtension name "tasm"

theorem pairwise_mergeSort_names (names : List String) :
    (names.mergeSort fun a b => !(b < a)).Pairwise (· ≤ ·) := by
  have hle : ∀ a b : String, (!decide (b < a)) = true ↔ a ≤ b := fun a b => by
    rw [Bool.not_eq_true', decide_eq_false_iff_not, not_lt]
  have htrans : ∀ a b c : String, (!decide (b < a)) = true → (!decide (c < b)) = true → (!decide (c < a)) = true := by
    intro a b c hab hbc
    rw [hle] at hab hbc ⊢
    exact hab.trans hbc
  have htotal : ∀ a b : String, ((!decide (b < a)) || !decide (a < b)) = true := by
    intro a b
    rw [Bool.or_eq_true, hle, hle]
    exact le_total a b
  exact (List.pairwise_mergeSort htrans htotal names).imp fun h => (hle _ _).mp h

theorem picks_iff {names found : List String} :
    Picks names found ↔ found = (names.filter isFixture).mergeSort fun a b => !(b < a) := by
  have hsorted := pairwise_mergeSort_names (names.filter isFixture)
  have hperm := List.mergeSort_perm (names.filter isFixture) fun a b => !(b < a)
  constructor
  · rintro ⟨hfound, hfixtures, others, hothers, hnone⟩
    have hfilter : (found ++ others).filter isFixture = found := by
      rw [List.filter_append, List.filter_eq_self.mpr fun name h => isFixture_iff.mpr (hfixtures name h),
        List.filter_eq_nil_iff.mpr fun name h => mt isFixture_iff.mp (hnone name h), List.append_nil]
    have hsame := hothers.filter isFixture
    rw [hfilter] at hsame
    -- Two sorted lists of the same names are equal.
    exact (hsame.trans hperm.symm).eq_of_pairwise (fun a b _ _ => le_antisymm) hfound hsorted
  · rintro rfl
    refine ⟨hsorted, fun name h => ?_, names.filter fun name => !isFixture name, ?_, fun name h => ?_⟩
    · exact isFixture_iff.mp (List.mem_filter.mp (hperm.mem_iff.mp h)).2
    · exact (hperm.append_right _).trans (List.filter_append_perm isFixture names)
    · rw [← isFixture_iff]
      simpa using (List.mem_filter.mp h).2

end Command

namespace FileSystem
variable (fs : FileSystem)

/-- The fixtures that paths stand for: a directory for those that it lists, and any other path for itself. -/
inductive Collected : (paths found : List String) → Prop
  | nil : Collected [] []
  | file {path : String} {paths found : List String} :
    fs.names? path = none → Collected paths found → Collected (path :: paths) (path :: found)
  | directory {path : String} {names picked paths found : List String} :
    fs.names? path = some (.ok names) → Command.Picks names picked → Collected paths found →
      Collected (path :: paths) (picked.map (Command.join path) ++ found)

/-- The fixtures that one path stands for. -/
def fixturesAt (path : String) : List String :=
  (Command.fixturesOf path (fs.names? path)).toOption.getD []

variable {fs} {paths found : List String}

theorem Collected.eq_flatMap (h : fs.Collected paths found) : found = paths.flatMap fs.fixturesAt := by
  induction h with
  | nil => rfl
  | file hnames _ ih =>
    rw [List.flatMap_cons, ← ih, fixturesAt, hnames]
    rfl
  | directory hnames hpicks _ ih =>
    rw [List.flatMap_cons, ← ih, fixturesAt, hnames, Command.picks_iff.mp hpicks]
    rfl

theorem fixturesOf_eq_ok {path : String} (h : ∀ e, fs.names? path ≠ some (.error e)) :
    Command.fixturesOf path (fs.names? path) = .ok (fs.fixturesAt path) := by
  rw [fixturesAt]
  rcases hnames : fs.names? path with - | (e | names)
  · rfl
  · exact absurd hnames (h e)
  · rfl

theorem collected_flatMap (h : ∀ path ∈ paths, ∀ e, fs.names? path ≠ some (.error e)) :
    fs.Collected paths (paths.flatMap fs.fixturesAt) := by
  induction paths with
  | nil => exact .nil
  | cons path paths ih =>
    -- A path that cannot be listed is excluded; the others are files or directories.
    rw [List.forall_mem_cons] at h
    have hrest := ih h.2
    rw [List.flatMap_cons]
    rcases hnames : fs.names? path with - | (e | names)
    · rw [fixturesAt, hnames]
      exact .file hnames hrest
    · exact absurd hnames (h.1 e)
    · rw [fixturesAt, hnames]
      exact .directory hnames (Command.picks_iff.mpr rfl) hrest

end FileSystem

/-! ### The command -/

namespace Command

section
variable {σ : Type} [Files (StateM σ)] {fs : FileSystem} {s : σ}

theorem run_collect (hs : fs.Shows s) {paths : List String}
    (h : ∀ path ∈ paths, ∀ e, fs.names? path ≠ some (.error e)) :
    (collect paths : StateM σ _).run s = (.ok (paths.flatMap fs.fixturesAt), s) := by
  induction paths with
  | nil => rfl
  | cons path paths ih =>
    rw [List.forall_mem_cons] at h
    have hrest := ih h.2
    rw [collect, run_bind_of_eq (hs.names? path)]
    simp only [FileSystem.fixturesOf_eq_ok h.1]
    rw [run_bind_of_eq hrest]
    rfl

theorem run_mapM_checked (hs : fs.Shows s) (a : Allotment) (paths : List String) :
    (paths.mapM fun path => do return checked a path (← Files.read path) : StateM σ _).run s =
      (fs.checked a paths, s) := by
  induction paths with
  | nil => rfl
  | cons path paths ih =>
    have hpath : (do return checked a path (← Files.read path) : StateM σ _).run s =
        (checked a path (fs.read path), s) := by
      rw [run_bind_of_eq (hs.read path)]
      rfl
    rw [List.mapM_cons, run_bind_of_eq hpath, run_bind_of_eq ih]
    rfl

theorem run_conformance_eq (hs : fs.Shows s) {args : List String} {o : Options}
    (hargs : Options.ofArgs false args = .ok o) (hpaths : o.positional ≠ [])
    (hlisted : ∀ path ∈ o.positional, ∀ e, fs.names? path ≠ some (.error e)) :
    (run ("conformance" :: args) : StateM σ Report).run s =
      (.ofChecked (fs.checked o.allotment (o.positional.flatMap fs.fixturesAt)), s) := by
  have hfixtures : fixtureArgs args = .ok (o.positional, o.allotment) := by
    rw [fixtureArgs, hargs]
    simp [Except.mapError, bind, Except.bind, hpaths, pure, Except.pure]
  change (checkFiles args : StateM σ Report).run s = _
  simp only [checkFiles, hfixtures]
  rw [run_bind_of_eq (run_collect hs hlisted), run_bind_of_eq (run_mapM_checked hs _ _)]
  rfl

end

end Command

/-- A file tree as a file system. It denies no listing. -/
def FileTree.fileSystem (t : FileTree) : FileSystem where
  read := t.read
  names? path := (t.names? path).map .ok

theorem FileTree.fileSystem_shows (t : FileTree) : t.fileSystem.Shows t :=
  ⟨fun _ => rfl, fun _ => rfl⟩

theorem FileTree.fileSystem_names?_ne (t : FileTree) (path : String) (e : FileError) :
    t.fileSystem.names? path ≠ some (.error e) := by
  simp [fileSystem]

namespace Command

end Command

end StackMachine
