import StackMachine.Fixture.Check
import StackMachine.Proofs.Assembly.Concatenation
import StackMachine.Proofs.Assembly.RoundTrip

/-! Directives are read back as they were written, and they are comments to the assembler. One text is read line by line
by two readers: each of them takes the lines of the other for nothing, so that directives in front of a program change
neither the program nor what is expected of it but for the lines that they add. -/

namespace StackMachine

/-! ### Operands of directives -/

namespace Numeral

theorem signed?_toString (n : Int) : signed? (toString n).toList = some n := by
  rw [Int.toString_eq_repr, Int.repr_eq_if]
  by_cases hn : 0 ≤ n
  · obtain ⟨k, rfl⟩ := Int.eq_ofNat_of_zero_le hn
    have hdigits : ∀ c ∈ Nat.toDigits 10 k, c.isDigit = true := fun c hc => isDigit_of_mem_toDigits hc
    rw [if_pos hn, Int.toNat_natCast, Nat.toList_repr]
    unfold signed?
    split
    -- The first digit is not a sign.
    · rename_i heq
      exact absurd (hdigits '+' (by simp [heq])) (by decide)
    · rename_i heq
      exact absurd (hdigits '-' (by simp [heq])) (by decide)
    · rw [ofDigits?_toDigits]
      rfl
  · have hk : n = -((-n).toNat : Int) := by omega
    have hlist : ("-" ++ (-n).toNat.repr).toList = '-' :: Nat.toDigits 10 (-n).toNat := by simp
    rw [if_neg hn, hlist, signed?, ofDigits?_toDigits]
    exact congrArg some hk.symm

theorem int32?_toString (value : Int32) : int32? (toString value.toInt) = some value := by
  rw [int32?, signed?_toString, Option.bind_some, toInt32?_toInt]

end Numeral

theorem FaultClass.ofName?_name (kind : FaultClass) : ofName? kind.name = some kind := by
  cases kind <;> decide +kernel

theorem FaultClass.name_inj {kind kind' : FaultClass} : kind.name = kind'.name ↔ kind = kind' := by
  constructor
  · intro h
    have hname := kind.ofName?_name
    rw [h, kind'.ofName?_name] at hname
    exact (Option.some.inj hname).symm
  · rintro rfl
    rfl

/-- The outcome is the expected one: exactly the value, or a fault whose kind has exactly the name. -/
def Expected.Met (expected : Expected) (outcome : Outcome) : Prop :=
  (∃ value, expected = .value value ∧ outcome = .returned value) ∨
    ∃ kind fault, expected = .fault kind ∧ outcome = .faulted fault ∧ fault.kind.toClass.name = kind.name

theorem Verdict.passed_iff (v : Verdict) : v.passed = true ↔ v.expectation.expected.Met v.outcome := by
  obtain ⟨⟨line, entry, expected⟩, outcome⟩ := v
  cases expected <;> cases outcome <;> simp [passed, Expected.Met, FaultClass.name_inj, eq_comm]

/-! ### Directive lines -/

/-- What a directive says: a method name, which may be any word, and how a session of the method ends. -/
structure Demand where
  entry : String
  expected : Expected
  isRun : Text.IsRun entry.toList

namespace Demand
variable (d : Demand)

/-- The directive as a line of text. -/
def line : String :=
  match d.expected with
  | .value value => s!"; @expect {d.entry} {value.toInt}"
  | .fault kind => s!"; @fault {d.entry} {kind.name}"

/-- The directives, one in a line. -/
def text (ds : List Demand) : String :=
  String.join (ds.map (·.line ++ "\n"))

/-- The expectation of the directive at a line. -/
def expectation (line : Nat) : Expectation :=
  ⟨line, d.entry, d.expected⟩

/-- The words of the directive. -/
def words : List String :=
  match d.expected with
  | .value value => ["expect", d.entry, toString value.toInt]
  | .fault kind => ["fault", d.entry, kind.name]

theorem isRun_of_all {w : List Char} (h : (!w.isEmpty && w.all fun c => !Text.isBlank c) = true) : Text.IsRun w := by
  rw [Bool.and_eq_true, List.all_eq_true] at h
  exact ⟨by simpa using h.1, fun c hc => by simpa using h.2 c hc⟩

theorem isRun_of_mem_words : ∀ w ∈ d.words.map String.toList, Text.IsRun w := by
  obtain ⟨entry, expected, hentry⟩ := d
  cases expected with
  | value value =>
    have hname : Text.IsRun "expect".toList := isRun_of_all (by decide +kernel)
    have hvalue : Text.IsRun (toString value.toInt).toList := (Token.writes_int32 value).isWord.isRun
    simpa [words] using ⟨hname, hentry, hvalue⟩
  | fault kind =>
    have hname : Text.IsRun "fault".toList := isRun_of_all (by decide +kernel)
    have hkind : Text.IsRun kind.name.toList := isRun_of_all (by cases kind <;> decide +kernel)
    simpa [words] using ⟨hname, hentry, hkind⟩

theorem toList_line : d.line.toList = ';' :: ' ' :: '@' :: [' '].intercalate (d.words.map String.toList) := by
  have hstring : ∀ s : String, toString s = s := fun _ => rfl
  obtain ⟨entry, expected, hentry⟩ := d
  cases expected <;> simp [line, words, hstring]

theorem spaced_line : Text.Spaced d.line.toList := by
  have hline : d.line.toList = [';', ' ', '@'] ++ [' '].intercalate (d.words.map String.toList) := d.toList_line
  rw [hline]
  exact (Text.spaced_of_all (by decide)).append (Text.spaced_intercalate d.isRun_of_mem_words)

theorem body?_line : Expectation.body? d.line.toList = some ([' '].intercalate (d.words.map String.toList)) := by
  rw [toList_line]
  rfl

theorem ofBody_words (n : Nat) :
    Expectation.ofBody ([' '].intercalate (d.words.map String.toList), n) = .ok (d.expectation n) := by
  have hnames : ((d.words.map String.toList).map String.ofList) = d.words := by simp
  rw [Expectation.ofBody, Text.words_intercalate d.isRun_of_mem_words, hnames]
  obtain ⟨entry, expected, hentry⟩ := d
  cases expected with
  | value value =>
    have hname : Directive.ofName? "expect" = some .expect := by decide +kernel
    simp only [words, Expectation.ofWords, hname, Directive.expected, Numeral.int32?_toString]
    rfl
  | fault kind =>
    have hname : Directive.ofName? "fault" = some .fault := by decide +kernel
    simp only [words, Expectation.ofWords, hname, Directive.expected, kind.ofName?_name]
    rfl

variable (ds : List Demand)

theorem lines_text : Text.lines (text ds).toList = ds.map (·.line.toList) := by
  have hlist : (text ds).toList = (ds.map (·.line.toList)).flatMap (· ++ ['\n']) := by
    simp [text, List.flatMap_map]
  rw [hlist, Text.lines_flatMap]
  intro line hline
  obtain ⟨d, -, rfl⟩ := List.mem_map.mp hline
  exact d.spaced_line

theorem text_eq_empty_or : text ds = "" ∨ ∃ front, text ds = front ++ "\n" := by
  rcases List.eq_nil_or_concat ds with rfl | ⟨front, d, rfl⟩
  · exact Or.inl rfl
  · refine Or.inr ⟨text front ++ d.line, ?_⟩
    rw [← String.toList_inj]
    simp [text]

theorem numberedLines_text_append (t : String) : Text.numberedLines (text ds ++ t) =
    (ds.map (·.line.toList)).zipIdx 1 ++ (Text.lines t.toList).zipIdx (1 + ds.length) := by
  have hend : (text ds).toList = [] ∨ ∃ front, (text ds).toList = front ++ ['\n'] := by
    rcases text_eq_empty_or ds with h | ⟨front, h⟩
    · exact Or.inl (by rw [h]; rfl)
    · exact Or.inr ⟨front.toList, by rw [h, String.toList_append]; rfl⟩
  rw [Text.numberedLines, String.toList_append, Text.lines_append hend, lines_text, List.zipIdx_append, List.length_map]

end Demand

/-! ### The two readers -/

namespace Expectation

/-- The directives among numbered lines. -/
def bodiesOf (lines : List (List Char × Nat)) : List (List Char × Nat) :=
  lines.filterMap fun x => (body? x.1).map fun body => (body, x.2)

theorem bodies_eq (text : String) : bodies text = bodiesOf (Text.numberedLines text) := rfl

theorem bodiesOf_eq_nil_iff {lines : List (List Char)} {k : Nat} :
    bodiesOf (lines.zipIdx k) = [] ↔ ∀ line ∈ lines, body? line = none := by
  have hmap : ∀ x : List Char × Nat, ((body? x.1).map fun body => (body, x.2)) = none ↔ body? x.1 = none :=
    fun x => Option.map_eq_none_iff
  simp only [bodiesOf, List.filterMap_eq_nil_iff, hmap]
  conv_rhs => rw [← List.zipIdx_map_fst k lines, List.forall_mem_map]

/-- Directive lines are read as the expectations that they were written for. -/
theorem mapM_bodiesOf (ds : List Demand) (k : Nat) :
    (bodiesOf ((ds.map (·.line.toList)).zipIdx k)).mapM ofBody = .ok ((ds.zipIdx k).map fun x => x.1.expectation x.2) := by
  induction ds generalizing k with
  | nil => rfl
  | cons d ds ih =>
    have hbody : bodiesOf (((d :: ds).map (·.line.toList)).zipIdx k) =
        ([' '].intercalate (d.words.map String.toList), k) :: bodiesOf ((ds.map (·.line.toList)).zipIdx (k + 1)) := by
      simp [bodiesOf, d.body?_line]
    rw [hbody, List.mapM_cons, d.ofBody_words, ih]
    rfl

theorem ofText_directives {t : String} (ht : ofText t = .ok []) (ds : List Demand) :
    ofText (Demand.text ds ++ t) = .ok ((ds.zipIdx 1).map fun x => x.1.expectation x.2) := by
  have hnone : ∀ line ∈ Text.lines t.toList, body? line = none := by
    rw [← bodiesOf_eq_nil_iff (k := 1)]
    cases hbodies : bodiesOf ((Text.lines t.toList).zipIdx 1) with
    | nil => rfl
    | cons body rest =>
      rw [ofText, bodies_eq, Text.numberedLines, hbodies] at ht
      cases mapM_eq_ok_iff.mp ht
  have happend : bodies (Demand.text ds ++ t) = bodiesOf ((ds.map (·.line.toList)).zipIdx 1) := by
    rw [bodies_eq, Demand.numberedLines_text_append, bodiesOf, List.filterMap_append]
    change bodiesOf _ ++ bodiesOf _ = _
    rw [bodiesOf_eq_nil_iff.mpr hnone, List.append_nil]
  rw [ofText, happend, mapM_bodiesOf]

end Expectation

/-- A line that starts with a comment says nothing. -/
theorem Assembly.line_comment (a : Assembly) (cs : List Char) (k : Nat) : a.line (';' :: cs, k) = .ok a := rfl

/-- The program without methods. -/
def Program.empty : Program := ⟨#[], rfl⟩

theorem assemble_directives (ds : List Demand) : assemble (Demand.text ds) = .ok .empty := by
  have hlines : ∀ k, Assembly.Builds k .empty (ds.map (·.line)) .empty := by
    induction ds with
    | nil => exact fun k => .nil
    | cons d ds ih =>
      intro k
      refine .cons ?_ (ih (k + 1))
      rw [d.toList_line]
      exact Assembly.line_comment _ _ _
  have hbuilds : ((ds.map (·.line.toList)).zipIdx 1).foldlM Assembly.line .empty = .ok .empty := by
    have h := hlines 1
    rw [Assembly.Builds, List.map_map] at h
    exact h
  rw [assemble, Text.numberedLines, Demand.lines_text, hbuilds]
  rfl

theorem assemble_directives_append {t : String} {p : Program} (ht : assemble t = .ok p) (ds : List Demand) :
    assemble (Demand.text ds ++ t) = .ok p := by
  rw [assemble_append_of_ok_of_ok (Demand.text_eq_empty_or ds) (assemble_directives ds) ht, Program.empty,
    Array.empty_append, p.load_methods]
  rfl

/-! ### Checking -/

namespace Fixture

theorem check_directives_eq {t : String} {p : Program} (ht : assemble t = .ok p)
    (hplain : Expectation.ofText t = .ok []) (a : Allotment) {ds : List Demand} (hds : ds ≠ []) :
    check a (Demand.text ds ++ t) =
      .ok ((ds.zipIdx 1).map fun x => ⟨x.1.expectation x.2, p.execute a x.1.entry []⟩) := by
  have hsome : ((ds.zipIdx 1).map fun x => x.1.expectation x.2).isEmpty = false := by
    simpa using hds
  have hfixture : ofText (Demand.text ds ++ t) = .ok ⟨p, (ds.zipIdx 1).map fun x => x.1.expectation x.2⟩ := by
    rw [ofText, Expectation.ofText_directives hplain, assemble_directives_append ht]
    simp only [Except.mapError, bind, Except.bind, hsome]
    rfl
  rw [check, hfixture]
  change Except.ok (verdicts a _) = _
  rw [verdicts, List.map_map]
  rfl

/-- Directives are read back and checked faithfully, and do not touch the program. In front of a text that assembles and
has no directives, each directive has its verdict in order, with its line, its method and its expectation, on the
session of the program of the text; and it passes exactly if that session ends as expected. -/
theorem check_directives {t : String} {p : Program} (ht : assemble t = .ok p) (hplain : Expectation.ofText t = .ok [])
    (a : Allotment) {ds : List Demand} (hds : ds ≠ []) :
    assemble (Demand.text ds ++ t) = .ok p ∧
    ∃ vs : List Verdict, check a (Demand.text ds ++ t) = .ok vs ∧ vs.length = ds.length ∧
      ∀ (k : Nat) (d : Demand), ds[k]? = some d → ∃ v, vs[k]? = some v ∧ v.expectation = ⟨k + 1, d.entry, d.expected⟩ ∧
        v.outcome = p.execute a d.entry [] ∧ (v.passed = true ↔ d.expected.Met (p.execute a d.entry [])) := by
  refine ⟨assemble_directives_append ht ds, _, check_directives_eq ht hplain a hds, by simp, ?_⟩
  intro k d hd
  refine ⟨⟨d.expectation (k + 1), p.execute a d.entry []⟩, ?_, rfl, rfl, Verdict.passed_iff _⟩
  rw [List.getElem?_map, List.getElem?_zipIdx, hd, Nat.add_comm 1 k]
  rfl

/-- A directive on a method that cannot be there, and one with a wrong sign. -/
def sampleDemands : List Demand :=
  [⟨";@größer:", .fault .unknownMethod, Demand.isRun_of_all (by decide +kernel)⟩,
    ⟨"main", .value 14, Demand.isRun_of_all (by decide +kernel)⟩]

theorem check_directives_doubling : assemble Program.doubling.listing = .ok Program.doubling ∧
    ∃ vs : List Verdict, check {} (Demand.text sampleDemands ++ Program.doubling.listing) = .ok vs ∧ vs.length = 2 ∧
      (∃ v, vs[0]? = some v ∧ v.passed = true) ∧ ∃ v, vs[1]? = some v ∧ v.passed = false := by
  have hp : assemble Program.doubling.listing = .ok Program.doubling := by decide +kernel
  have hplain : Expectation.ofText Program.doubling.listing = .ok [] := by decide +kernel
  have hunknown : Program.doubling.execute {} ";@größer:" [] =
      .faulted ⟨.unknownMethod ";@größer:", none⟩ := by decide +kernel
  have hmain : Program.doubling.execute {} "main" [] = .returned (-14) := by decide +kernel
  obtain ⟨-, vs, hvs, hlength, hall⟩ := check_directives hp hplain {} (List.cons_ne_nil _ _ : sampleDemands ≠ [])
  obtain ⟨v, hv, -, -, hpassed⟩ := hall 0 _ rfl
  obtain ⟨v', hv', -, -, hfailed⟩ := hall 1 _ rfl
  refine ⟨hp, vs, hvs, hlength, ⟨v, hv, hpassed.mpr ?_⟩, v', hv', Bool.eq_false_iff.mpr (mt hfailed.mp ?_)⟩
  · exact Or.inr ⟨.unknownMethod, _, rfl, hunknown, rfl⟩
  · rintro (⟨value, hvalue, hreturned⟩ | ⟨kind, fault, hfault, -⟩)
    · cases hvalue
      rw [hmain] at hreturned
      exact absurd (Outcome.returned.inj hreturned) (by decide)
    · cases hfault

end Fixture

end StackMachine
