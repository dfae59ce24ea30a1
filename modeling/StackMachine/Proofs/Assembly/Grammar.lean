import Mathlib.Data.List.Forall2
import StackMachine.Assembly.Assemble

/-! The grammar of assembly texts. The lines of a text are empty lines and the texts of methods, one after the other.
Labels are resolved as if in two passes: the first counts the instructions before each label of a method, the second
puts these numbers in the place of the labels. -/

namespace StackMachine

/-! ### The text of a method -/

/-- A line inside a method, with or without a label and with or without an instruction. -/
structure BodyLine where
  label : Option String
  draft : Option Draft

namespace BodyLine

/-- The statement of a line in a method. -/
def statement (l : BodyLine) : Statement :=
  ⟨l.label, l.draft.map .instruction⟩

/-- The labels that lines define. -/
def labels (ls : List BodyLine) : List String :=
  ls.filterMap (·.label)

/-- The instructions that stand in lines. -/
def drafts (ls : List BodyLine) : List Draft :=
  ls.filterMap (·.draft)

/-- The number of instructions that stand before the line with a label. -/
def position (ls : List BodyLine) (name : String) : Nat :=
  (drafts (ls.takeWhile fun l => l.label != some name)).length

end BodyLine

/-- The label that a branch target uses. -/
def Target.label? : Target → Option String
  | index _ => none
  | label name => some name

/-- The label that an instruction uses. -/
def Draft.label? : Draft → Option String
  | ready _ => none
  | jump target | jumpIfFalse target => target.label?

/-- The index that a target stands for: a label stands for its position. -/
def Target.StandsFor (position : String → Nat) : Target → UInt32 → Prop
  | index value, i => value = i
  | label name, i => i.toNat = position name

/-- The instruction that a line stands for. -/
def Draft.StandsFor (position : String → Nat) : Draft → Instruction → Prop
  | ready i, instruction => i = instruction
  | jump target, instruction => ∃ i, target.StandsFor position i ∧ .jump i = instruction
  | jumpIfFalse target, instruction => ∃ i, target.StandsFor position i ∧ .jumpIfFalse i = instruction

/-- The text of a method: a heading, the lines of its body, and a closing line that may have a label. -/
structure MethodText where
  name : String
  arity : UInt16
  localCount : UInt16
  body : List BodyLine
  endLabel : Option String

namespace MethodText

/-- The statements of a method, from its heading to its end. -/
def statements (t : MethodText) : List Statement :=
  ⟨none, some (.start t.name t.arity t.localCount)⟩ ::
    (t.body.map BodyLine.statement ++ [⟨t.endLabel, some .finish⟩])

/-- The lines after the heading. -/
def lines (t : MethodText) : List BodyLine :=
  t.body ++ [⟨t.endLabel, none⟩]

/-- No label is defined twice, and every label that is used is defined, before or after its use. -/
structure WellLabelled (t : MethodText) : Prop where
  distinct : (BodyLine.labels t.lines).Nodup
  defined : ∀ draft ∈ BodyLine.drafts t.lines, ∀ name, draft.label? = some name → name ∈ BodyLine.labels t.lines

/-- The method that the text stands for: it has passed the load checks, and its code is that of the lines with each
label replaced by its position. -/
def StandsFor (t : MethodText) (m : Method) : Prop :=
  ∃ code, List.Forall₂ (Draft.StandsFor (BodyLine.position t.lines)) (BodyLine.drafts t.lines) code ∧
    Method.load t.name t.arity t.localCount code.toArray = .ok m

end MethodText

/-- The statements are empty lines and these texts of methods, in this order. -/
inductive Statement.Spell : List Statement → List MethodText → Prop
  | nil : Spell [] []
  | empty {sts : List Statement} {ts : List MethodText} : Spell sts ts → Spell (⟨none, none⟩ :: sts) ts
  | method (t : MethodText) {sts : List Statement} {ts : List MethodText} : Spell sts ts →
    Spell (t.statements ++ sts) (t :: ts)

/-- Every line of the text is read as a statement, and these spell the texts of methods. -/
def Text.Spells (text : String) (ts : List MethodText) : Prop :=
  ∃ sts, List.Forall₂ (fun line st => Statement.ofLine line = .ok st) (lines text.toList) sts ∧ Statement.Spell sts ts

/-! ### Positions -/

namespace BodyLine
variable {ls : List BodyLine} {name : String}

theorem labels_append (ls ls' : List BodyLine) : labels (ls ++ ls') = labels ls ++ labels ls' :=
  List.filterMap_append

theorem labels_append_line (ls : List BodyLine) (label : Option String) (draft : Option Draft) :
    labels (ls ++ [⟨label, draft⟩]) = labels ls ++ label.toList := by
  rw [labels_append]
  cases label <;> rfl

theorem drafts_append (ls ls' : List BodyLine) : drafts (ls ++ ls') = drafts ls ++ drafts ls' :=
  List.filterMap_append

theorem mem_labels : name ∈ labels ls ↔ ∃ l ∈ ls, l.label = some name :=
  List.mem_filterMap

theorem position_append_of_mem (h : name ∈ labels ls) (ls' : List BodyLine) :
    position (ls ++ ls') name = position ls name := by
  unfold position
  congr 2
  induction ls with
  | nil => cases h
  | cons l ls ih =>
    rw [List.cons_append, List.takeWhile_cons, List.takeWhile_cons]
    split
    · rename_i hl
      obtain ⟨l', hmem, hlabel⟩ := mem_labels.mp h
      rcases List.mem_cons.mp hmem with rfl | hmem
      · simp [hlabel] at hl
      · rw [ih (mem_labels.mpr ⟨l', hmem, hlabel⟩)]
    · rfl

theorem position_append_of_not_mem (h : name ∉ labels ls) (draft : Option Draft) :
    position (ls ++ [⟨some name, draft⟩]) name = (drafts ls).length := by
  have hall : ∀ l ∈ ls, (l.label != some name) = true := by
    intro l hl
    rw [bne_iff_ne]
    exact fun hlabel => h (mem_labels.mpr ⟨l, hl, hlabel⟩)
  unfold position
  rw [List.takeWhile_append_of_pos hall, List.takeWhile_cons_of_neg (by simp), List.append_nil]

theorem length_drafts_le (ls : List BodyLine) : (drafts ls).length ≤ ls.length :=
  List.length_filterMap_le _ _

theorem position_le (ls : List BodyLine) (name : String) : position ls name ≤ ls.length :=
  Nat.le_trans (length_drafts_le _) (List.takeWhile_prefix _).length_le

end BodyLine

/-! ### Reading the grammar line by line -/

namespace Statement

/-- The statements are the rest of the method text `t`, which is open, and then more texts of methods. -/
def Finish (t : MethodText) (sts : List Statement) (ts : List MethodText) : Prop :=
  ∃ body endLabel rest ts', sts = body.map BodyLine.statement ++ ⟨endLabel, some .finish⟩ :: rest ∧
    Spell rest ts' ∧ ts = { t with body := t.body ++ body, endLabel := endLabel } :: ts'

theorem not_finish_nil {t : MethodText} {ts : List MethodText} : ¬Finish t [] ts := by
  rintro ⟨body, endLabel, rest, ts', hsts, -⟩
  cases body <;> cases hsts

theorem finish_cons_iff {t : MethodText} {st : Statement} {sts : List Statement} {ts : List MethodText} :
    Finish t (st :: sts) ts ↔
      (∃ l, st = BodyLine.statement l ∧ Finish { t with body := t.body ++ [l] } sts ts) ∨
      (∃ label ts', st = ⟨label, some .finish⟩ ∧ Spell sts ts' ∧ ts = { t with endLabel := label } :: ts') := by
  constructor
  · rintro ⟨body, endLabel, rest, ts', hsts, hspell, rfl⟩
    cases body with
    | nil =>
      cases hsts
      exact .inr ⟨endLabel, ts', rfl, hspell, by rw [List.append_nil]⟩
    | cons l body =>
      cases hsts
      exact .inl ⟨l, rfl, body, endLabel, rest, ts', rfl, hspell, by rw [List.append_assoc]; rfl⟩
  · rintro (⟨l, rfl, body, endLabel, rest, ts', rfl, hspell, rfl⟩ | ⟨label, ts', rfl, hspell, rfl⟩)
    · exact ⟨l :: body, endLabel, rest, ts', rfl, hspell, by rw [List.append_assoc]; rfl⟩
    · exact ⟨[], label, sts, ts', rfl, hspell, by rw [List.append_nil]⟩

theorem spell_nil_iff {ts : List MethodText} : Spell [] ts ↔ ts = [] := by
  constructor
  · intro h
    cases h with
    | nil => rfl
  · rintro rfl
    exact .nil

theorem spell_cons_iff {st : Statement} {sts : List Statement} {ts : List MethodText} :
    Spell (st :: sts) ts ↔ (st = ⟨none, none⟩ ∧ Spell sts ts) ∨
      ∃ name arity localCount, st = ⟨none, some (.start name arity localCount)⟩ ∧
        Finish ⟨name, arity, localCount, [], none⟩ sts ts := by
  constructor
  · intro h
    generalize hsts : st :: sts = all at h
    cases h with
    | nil => cases hsts
    | empty h =>
      cases hsts
      exact .inl ⟨rfl, h⟩
    | method t h =>
      cases hsts
      exact .inr ⟨t.name, t.arity, t.localCount, rfl, t.body, t.endLabel, _, _, by simp, h, rfl⟩
  · rintro (⟨rfl, h⟩ | ⟨name, arity, localCount, rfl, body, endLabel, rest, ts', rfl, h, rfl⟩)
    · exact .empty h
    · simpa [MethodText.statements] using Spell.method ⟨name, arity, localCount, body, endLabel⟩ h

end Statement

namespace MethodText

/-- Texts of this kind stand for the methods that `ms'` has after those of `ms`. -/
def Added (texts : List MethodText → Prop) (ms ms' : Array Method) : Prop :=
  ∃ ts l, texts ts ∧ List.Forall₂ (fun t m => WellLabelled t ∧ t.StandsFor m) ts l ∧ ms' = ms ++ l.toArray

variable {ms ms' : Array Method} {t : MethodText} {st : Statement} {sts : List Statement}

theorem added_spell_nil_iff : Added (Statement.Spell []) ms ms' ↔ ms = ms' := by
  simp [Added, Statement.spell_nil_iff, eq_comm]

theorem not_added_finish_nil : ¬Added (Statement.Finish t []) ms ms' := by
  rintro ⟨ts, l, hts, -⟩
  exact Statement.not_finish_nil hts

theorem added_spell_cons_iff : Added (Statement.Spell (st :: sts)) ms ms' ↔
    (st = ⟨none, none⟩ ∧ Added (Statement.Spell sts) ms ms') ∨
      ∃ name arity localCount, st = ⟨none, some (.start name arity localCount)⟩ ∧
        Added (Statement.Finish ⟨name, arity, localCount, [], none⟩ sts) ms ms' := by
  simp only [Added, Statement.spell_cons_iff]
  constructor
  · rintro ⟨ts, l, ⟨hst, hts⟩ | ⟨name, arity, localCount, hst, hts⟩, hl⟩
    · exact .inl ⟨hst, ts, l, hts, hl⟩
    · exact .inr ⟨name, arity, localCount, hst, ts, l, hts, hl⟩
  · rintro (⟨hst, ts, l, hts, hl⟩ | ⟨name, arity, localCount, hst, ts, l, hts, hl⟩)
    · exact ⟨ts, l, .inl ⟨hst, hts⟩, hl⟩
    · exact ⟨ts, l, .inr ⟨name, arity, localCount, hst, hts⟩, hl⟩

/-- The labels of an open text that is finished well are distinct from the start. -/
theorem nodup_of_added_finish (h : Added (Statement.Finish t sts) ms ms') : (BodyLine.labels t.body).Nodup := by
  obtain ⟨ts, l, ⟨body, endLabel, rest, ts', -, -, rfl⟩, hl, -⟩ := h
  cases hl with
  | cons ht hl =>
    have hdistinct := ht.1.distinct
    rw [lines, BodyLine.labels_append, BodyLine.labels_append, List.append_assoc] at hdistinct
    exact (List.nodup_append.mp hdistinct).1

theorem added_finish_cons_iff : Added (Statement.Finish t (st :: sts)) ms ms' ↔
    (∃ l, st = BodyLine.statement l ∧ Added (Statement.Finish { t with body := t.body ++ [l] } sts) ms ms') ∨
    (∃ label m, st = ⟨label, some .finish⟩ ∧ WellLabelled { t with endLabel := label } ∧
      StandsFor { t with endLabel := label } m ∧ Added (Statement.Spell sts) (ms.push m) ms') := by
  simp only [Added, Statement.finish_cons_iff]
  constructor
  · rintro ⟨ts, ms₁, ⟨l, hst, hts⟩ | ⟨label, ts', hst, hts, rfl⟩, hl, rfl⟩
    · exact .inl ⟨l, hst, ts, ms₁, hts, hl, rfl⟩
    · cases hl with
      | cons ht hl => exact .inr ⟨label, _, hst, ht.1, ht.2, ts', _, hts, hl, by simp⟩
  · rintro (⟨l, hst, ts, ms₁, hts, hl, hms⟩ | ⟨label, m, hst, hlabels, hm, ts, ms₁, hts, hl, rfl⟩)
    · exact ⟨ts, ms₁, .inl ⟨l, hst, hts⟩, hl, hms⟩
    · exact ⟨_, m :: ms₁, .inr ⟨label, ts, hst, hts, rfl⟩, .cons ⟨hlabels, hm⟩ hl, by simp⟩

end MethodText

end StackMachine
