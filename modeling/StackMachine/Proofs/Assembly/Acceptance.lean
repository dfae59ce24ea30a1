import Mathlib.Algebra.Group.Nat.Defs
import StackMachine.Proofs.Assembly.Grammar
import StackMachine.Proofs.Loaded
import StackMachine.Proofs.Results

/-! Exactly the texts of the grammar assemble, to the methods that they stand for. The assembler makes one pass over the
lines and resolves the labels of a method at its end; what an open method has collected says as much as its lines. -/

namespace StackMachine

/-! ### What an open method has collected -/

/-- The open method has collected the instructions and the labels of these lines. -/
structure Block.Collects (b : Block) (ls : List BodyLine) : Prop where
  body : b.body.toList.map Prod.fst = BodyLine.drafts ls
  distinct : (BodyLine.labels ls).Nodup
  labels : ∀ name, b.labels.lookup name =
    if name ∈ BodyLine.labels ls then some (UInt32.ofNat (BodyLine.position ls name)) else none

namespace Block

/-- Binds the label of a line, if it has one. -/
def defineOpt (b : Block) : Option String → Except LineError Block
  | some name => b.define name
  | none => .ok b

/-- The block with the label of a line. -/
def withLabel (b : Block) : Option String → Block
  | some name => { b with labels := (name, UInt32.ofNat b.body.size) :: b.labels }
  | none => b

/-- The block with the instruction of a line. -/
def withDraft (b : Block) (line : Nat) : Option Draft → Block
  | some draft => b.add draft line
  | none => b

theorem collects_start (name : String) (arity localCount : UInt16) (line : Nat) :
    (start name arity localCount line).Collects [] :=
  ⟨rfl, List.nodup_nil, fun _ => rfl⟩

namespace Collects
variable {b b' : Block} {ls : List BodyLine} {label : Option String} {draft : Option Draft}

theorem size_body (h : b.Collects ls) : b.body.size = (BodyLine.drafts ls).length := by
  rw [← h.body, List.length_map, Array.length_toList]

theorem isSome_lookup (h : b.Collects ls) (name : String) :
    (b.labels.lookup name).isSome = true ↔ name ∈ BodyLine.labels ls := by
  rw [h.labels]
  by_cases hmem : name ∈ BodyLine.labels ls
  · simp [hmem]
  · simp [hmem]

theorem nodup_append_iff (h : b.Collects ls) : (BodyLine.labels (ls ++ [⟨label, draft⟩])).Nodup ↔
    ∀ name, label = some name → name ∉ BodyLine.labels ls := by
  rw [BodyLine.labels_append_line, List.nodup_append]
  cases label with
  | none => simp [h.distinct]
  | some new => grind [h.distinct]

/-- The label of a line can be bound exactly if the labels stay distinct. -/
theorem defineOpt_eq_ok_iff (h : b.Collects ls) (draft : Option Draft) : b.defineOpt label = .ok b' ↔
    (BodyLine.labels (ls ++ [⟨label, draft⟩])).Nodup ∧ b' = b.withLabel label := by
  rw [h.nodup_append_iff]
  cases label with
  | none => simp [defineOpt, withLabel, eq_comm]
  | some name =>
    have hlookup := h.isSome_lookup name
    simp only [defineOpt, define, withLabel]
    by_cases hmem : name ∈ BodyLine.labels ls
    · simp [hlookup.mpr hmem, hmem]
    · simp [mt hlookup.mp hmem, hmem, eq_comm]

theorem lookup_withLabel (h : b.Collects ls) (hnodup : (BodyLine.labels (ls ++ [⟨label, draft⟩])).Nodup)
    (name : String) :
    (b.withLabel label).labels.lookup name = if name ∈ BodyLine.labels (ls ++ [⟨label, draft⟩])
      then some (UInt32.ofNat (BodyLine.position (ls ++ [⟨label, draft⟩]) name)) else none := by
  -- Labels of the lines so far stand where they stood, whatever lines follow.
  have hold : ∀ ls', b.labels.lookup name = if name ∈ BodyLine.labels ls
      then some (UInt32.ofNat (BodyLine.position (ls ++ ls') name)) else none := by
    intro ls'
    rw [h.labels]
    by_cases hmem : name ∈ BodyLine.labels ls
    · rw [BodyLine.position_append_of_mem hmem]
    · rw [if_neg hmem, if_neg hmem]
  rw [h.nodup_append_iff] at hnodup
  rw [BodyLine.labels_append_line]
  cases label with
  | none =>
    rw [Option.toList_none, List.append_nil]
    exact hold [⟨none, draft⟩]
  | some new =>
    rw [withLabel, List.lookup_cons]
    -- The new label stands at the number of instructions so far.
    by_cases hname : name = new
    · subst hname
      rw [BodyLine.position_append_of_not_mem (hnodup name rfl), h.size_body]
      simp
    · simpa [beq_false_of_ne hname, hname] using hold [⟨some new, draft⟩]

/-- A line adds its label at the number of instructions so far, and then its instruction. -/
theorem line (h : b.Collects ls) (hnodup : (BodyLine.labels (ls ++ [⟨label, draft⟩])).Nodup) (k : Nat) :
    ((b.withLabel label).withDraft k draft).Collects (ls ++ [⟨label, draft⟩]) where
  body := by
    have hbody : (b.withLabel label).body = b.body := by cases label <;> rfl
    rw [BodyLine.drafts_append]
    cases draft with
    | none => simpa [withDraft, hbody, BodyLine.drafts] using h.body
    | some d => simpa [withDraft, add, hbody, BodyLine.drafts] using h.body
  distinct := hnodup
  labels name := by
    have hlabels : ((b.withLabel label).withDraft k draft).labels = (b.withLabel label).labels := by cases draft <;> rfl
    rw [hlabels]
    exact h.lookup_withLabel hnodup name

end Collects

/-! ### Closing a method -/

section
variable {b : Block} {ls : List BodyLine} (h : b.Collects ls) (hlen : ls.length < 2 ^ 32)
include h hlen

theorem Collects.resolveTarget_eq_ok_iff (target : Target) (index : UInt32) :
    Draft.resolveTarget b.labels target = .ok index ↔
      (∀ name, target.label? = some name → name ∈ BodyLine.labels ls) ∧ target.StandsFor (BodyLine.position ls) index := by
  cases target with
  | index value => simp [Draft.resolveTarget, Target.StandsFor, Target.label?]
  | label name =>
    simp only [Draft.resolveTarget, h.labels, Target.StandsFor, Target.label?]
    by_cases hmem : name ∈ BodyLine.labels ls
    · have hposition : BodyLine.position ls name < 2 ^ 32 := Nat.lt_of_le_of_lt (BodyLine.position_le ls name) hlen
      have hindex : UInt32.ofNat (BodyLine.position ls name) = index ↔ index.toNat = BodyLine.position ls name := by
        rw [← UInt32.toNat_inj, UInt32.toNat_ofNat_of_lt' hposition, eq_comm]
      simpa [hmem] using hindex
    · simp [hmem]

theorem Collects.resolve_eq_ok_iff {draft : Draft} {i : Instruction} :
    draft.resolve b.labels = .ok i ↔
      (∀ name, draft.label? = some name → name ∈ BodyLine.labels ls) ∧ draft.StandsFor (BodyLine.position ls) i := by
  have htarget := h.resolveTarget_eq_ok_iff hlen
  cases draft with
  | ready j => simp [Draft.resolve, Draft.label?, Draft.StandsFor]
  | jump target => simp [Draft.resolve, Draft.label?, Draft.StandsFor, map_eq_ok_iff, htarget, and_assoc]
  | jumpIfFalse target => simp [Draft.resolve, Draft.label?, Draft.StandsFor, map_eq_ok_iff, htarget, and_assoc]

theorem Collects.code_eq_ok_iff {code : List Instruction} : b.code = .ok code ↔
    (∀ draft ∈ BodyLine.drafts ls, ∀ name, draft.label? = some name → name ∈ BodyLine.labels ls) ∧
      List.Forall₂ (Draft.StandsFor (BodyLine.position ls)) (BodyLine.drafts ls) code := by
  rw [Block.code, mapM_eq_ok_iff, ← h.body, ← List.forall₂_and_left, List.forall₂_map_left_iff]
  simp only [mapError_eq_ok_iff, h.resolve_eq_ok_iff hlen]

end

/-- The text of the open method, if it has these lines so far. -/
def text (b : Block) (ls : List BodyLine) : MethodText :=
  ⟨b.name, b.arity, b.localCount, ls, none⟩

theorem text_withLabel (b : Block) (label : Option String) : (b.withLabel label).text = b.text := by
  cases label <;> rfl

theorem text_withDraft (b : Block) (line : Nat) (draft : Option Draft) : (b.withDraft line draft).text = b.text := by
  cases draft <;> rfl

/-- A method can be closed exactly if all labels that are used are defined and the load checks pass. -/
theorem Collects.close_eq_ok_iff {b : Block} {ls : List BodyLine} {label : Option String} {m : Method}
    (h : b.Collects ls) (hnodup : (BodyLine.labels (ls ++ [⟨label, none⟩])).Nodup) (hlen : ls.length + 1 < 2 ^ 32) :
    (b.withLabel label).close = .ok m ↔
      MethodText.WellLabelled { b.text ls with endLabel := label } ∧
        MethodText.StandsFor { b.text ls with endLabel := label } m := by
  have hlines : (b.withLabel label).Collects (ls ++ [⟨label, none⟩]) := h.line hnodup 0
  have hlen' : (ls ++ [(⟨label, none⟩ : BodyLine)]).length < 2 ^ 32 := by
    rwa [List.length_append]
  have hload : Method.load (b.withLabel label).name (b.withLabel label).arity (b.withLabel label).localCount =
      Method.load b.name b.arity b.localCount := by
    cases label <;> rfl
  rw [close, bind_eq_ok_iff, hload]
  simp only [mapError_eq_ok_iff, hlines.code_eq_ok_iff hlen']
  constructor
  · rintro ⟨code, ⟨hdefined, hcode⟩, hm⟩
    exact ⟨⟨hnodup, hdefined⟩, code, hcode, hm⟩
  · rintro ⟨⟨-, hdefined⟩, code, hcode, hm⟩
    exact ⟨code, ⟨hdefined, hcode⟩, hm⟩

end Block

/-! ### Adding statements -/

namespace Assembly
variable {k : Nat} {ms : Array Method} {a a' : Assembly} {st : Statement} {sts : List Statement}

/-- Adding these statements, the first of which stands in line `k`, leads from one assembly to the other. -/
inductive Takes : Nat → Assembly → List Statement → Assembly → Prop
  | nil {k : Nat} {a : Assembly} : Takes k a [] a
  | cons {k : Nat} {a a' a'' : Assembly} {st : Statement} {sts : List Statement} :
    a.statement k st = .ok a' → Takes (k + 1) a' sts a'' → Takes k a (st :: sts) a''

theorem takes_nil_iff : Takes k a [] a' ↔ a = a' := by
  constructor
  · intro h
    cases h
    rfl
  · rintro rfl
    exact .nil

theorem takes_cons_iff {a'' : Assembly} :
    Takes k a (st :: sts) a'' ↔ ∃ a', a.statement k st = .ok a' ∧ Takes (k + 1) a' sts a'' := by
  constructor
  · intro h
    cases h with
    | cons hst h => exact ⟨_, hst, h⟩
  · rintro ⟨a', hst, h⟩
    exact .cons hst h

/-- Lines are added as the statements that they are read as. -/
theorem foldlM_line_eq_ok_iff {lines : List (List Char)} : (lines.zipIdx k).foldlM line a = .ok a' ↔
    ∃ sts, List.Forall₂ (fun line st => Statement.ofLine line = .ok st) lines sts ∧ Takes k a sts a' := by
  induction lines generalizing k a with
  | nil => simp [takes_nil_iff, pure, Except.pure]
  | cons cs lines ih =>
    rw [List.zipIdx_cons, List.foldlM_cons, bind_eq_ok_iff]
    simp only [List.forall₂_cons_left_iff, ih, line, bind_eq_ok_iff, mapError_eq_ok_iff]
    constructor
    · rintro ⟨a₁, ⟨st, hst, ha₁⟩, sts, hsts, h⟩
      exact ⟨st :: sts, ⟨st, sts, hst, hsts, rfl⟩, .cons ha₁ h⟩
    · rintro ⟨_, ⟨st, sts, hst, hsts, rfl⟩, h⟩
      obtain ⟨a₁, ha₁, h⟩ := takes_cons_iff.mp h
      exact ⟨a₁, ⟨st, hst, ha₁⟩, sts, hsts, h⟩

/-- Where no method is open, only an empty line or the heading of a method may stand. -/
theorem statement_closed_eq_ok_iff : statement ⟨ms, none⟩ k st = .ok a ↔ (st = ⟨none, none⟩ ∧ a = ⟨ms, none⟩) ∨
    ∃ name arity localCount, st = ⟨none, some (.start name arity localCount)⟩ ∧
      a = ⟨ms, some (.start name arity localCount k)⟩ := by
  obtain ⟨label, item⟩ := st
  cases label with
  | some label => simp [statement, define, bind, Except.bind, Except.mapError]
  | none =>
    cases item with
    | none => simp [statement, bind, Except.bind, pure, Except.pure, eq_comm]
    | some item => cases item <;> simp [statement, Assembly.item, bind, Except.bind, pure, Except.pure, eq_comm]

theorem statement_open_eq {b : Block} {label : Option String} {item : Option Item} :
    statement ⟨ms, some b⟩ k ⟨label, item⟩ = (b.defineOpt label).mapError (.line k) >>= fun b' =>
      match item with
      | some item => Assembly.item ⟨ms, some b'⟩ k item
      | none => .ok ⟨ms, some b'⟩ := by
  cases label with
  | none => rfl
  | some label =>
    simp only [statement, define, Block.defineOpt]
    cases b.define label <;> rfl

/-- Where a method is open, a line of its body or its end may stand, with a label that is not taken. -/
theorem statement_open_eq_ok_iff {b : Block} {ls : List BodyLine} (h : b.Collects ls) :
    statement ⟨ms, some b⟩ k st = .ok a ↔
      (∃ l, st = BodyLine.statement l ∧ (BodyLine.labels (ls ++ [l])).Nodup ∧
        a = ⟨ms, some ((b.withLabel l.label).withDraft k l.draft)⟩) ∨
      (∃ label m, st = ⟨label, some .finish⟩ ∧ (BodyLine.labels (ls ++ [⟨label, none⟩])).Nodup ∧
        (b.withLabel label).close = .ok m ∧ a = ⟨ms.push m, none⟩) := by
  obtain ⟨label, item⟩ := st
  rw [statement_open_eq, bind_eq_ok_iff]
  simp only [mapError_eq_ok_iff]
  constructor
  · rintro ⟨b', hb', ha⟩
    cases item with
    | none =>
      obtain ⟨hnodup, rfl⟩ := (h.defineOpt_eq_ok_iff none).mp hb'
      cases ha
      exact .inl ⟨⟨label, none⟩, rfl, hnodup, rfl⟩
    | some item =>
      cases item with
      | start name arity localCount => cases ha
      | finish =>
        obtain ⟨hnodup, rfl⟩ := (h.defineOpt_eq_ok_iff none).mp hb'
        obtain ⟨m, hm, ha⟩ := bind_eq_ok_iff.mp ha
        cases ha
        exact .inr ⟨label, m, rfl, hnodup, hm, rfl⟩
      | instruction draft =>
        obtain ⟨hnodup, rfl⟩ := (h.defineOpt_eq_ok_iff (some draft)).mp hb'
        cases ha
        exact .inl ⟨⟨label, some draft⟩, rfl, hnodup, rfl⟩
  · rintro (⟨⟨label', draft⟩, hst, hnodup, rfl⟩ | ⟨label', m, hst, hnodup, hm, rfl⟩)
    · cases hst
      refine ⟨b.withLabel label', (h.defineOpt_eq_ok_iff draft).mpr ⟨hnodup, rfl⟩, ?_⟩
      cases draft <;> rfl
    · cases hst
      exact ⟨b.withLabel label, (h.defineOpt_eq_ok_iff none).mpr ⟨hnodup, rfl⟩, bind_eq_ok_iff.mpr ⟨m, hm, rfl⟩⟩

theorem finish_eq_ok_iff {p : Program} : a.finish = .ok p ↔ a = ⟨p.methods, none⟩ := by
  obtain ⟨ms, current⟩ := a
  cases current with
  | some b => simp [finish]
  | none =>
    rw [finish, mapError_eq_ok_iff]
    constructor
    · intro h
      unfold Program.load at h
      split at h
      · cases h
        rfl
      · cases h
    · intro h
      cases h
      exact p.load_methods

/-- At the end of a text, only a method that is open or two methods of one name can be wrong. -/
theorem finish_eq_error {e : AssemblyError} (h : a.finish = .error e) :
    (∃ number name, e = .line number (.unterminatedMethod name)) ∨ ∃ name, e = .load (.duplicateMethod name) := by
  obtain ⟨ms, current⟩ := a
  cases current with
  | some b =>
    cases h
    exact .inl ⟨b.line, b.name, rfl⟩
  | none =>
    obtain ⟨cause, hload, rfl⟩ := mapError_eq_error_iff.mp h
    obtain ⟨name, -, -, rfl, -⟩ := Program.exists_of_load_eq_error hload
    exact .inr ⟨name, rfl⟩

theorem takes_closed_cons_iff : Takes k ⟨ms, none⟩ (st :: sts) a ↔
    (st = ⟨none, none⟩ ∧ Takes (k + 1) ⟨ms, none⟩ sts a) ∨
      ∃ name arity localCount, st = ⟨none, some (.start name arity localCount)⟩ ∧
        Takes (k + 1) ⟨ms, some (.start name arity localCount k)⟩ sts a := by
  rw [takes_cons_iff]
  constructor
  · rintro ⟨a', hst, h⟩
    rcases statement_closed_eq_ok_iff.mp hst with ⟨rfl, rfl⟩ | ⟨name, arity, localCount, rfl, rfl⟩
    · exact .inl ⟨rfl, h⟩
    · exact .inr ⟨name, arity, localCount, rfl, h⟩
  · rintro (⟨rfl, h⟩ | ⟨name, arity, localCount, rfl, h⟩)
    · exact ⟨_, statement_closed_eq_ok_iff.mpr (.inl ⟨rfl, rfl⟩), h⟩
    · exact ⟨_, statement_closed_eq_ok_iff.mpr (.inr ⟨name, arity, localCount, rfl, rfl⟩), h⟩

theorem takes_open_cons_iff {b : Block} {ls : List BodyLine} (hb : b.Collects ls) (hlen : ls.length + 1 < 2 ^ 32) :
    Takes k ⟨ms, some b⟩ (st :: sts) a ↔
      (∃ l, st = BodyLine.statement l ∧ (BodyLine.labels (ls ++ [l])).Nodup ∧
        Takes (k + 1) ⟨ms, some ((b.withLabel l.label).withDraft k l.draft)⟩ sts a) ∨
      (∃ label m, st = ⟨label, some .finish⟩ ∧ MethodText.WellLabelled { b.text ls with endLabel := label } ∧
        MethodText.StandsFor { b.text ls with endLabel := label } m ∧ Takes (k + 1) ⟨ms.push m, none⟩ sts a) := by
  rw [takes_cons_iff]
  constructor
  · rintro ⟨a', hst, h⟩
    rcases (statement_open_eq_ok_iff hb).mp hst with ⟨l, rfl, hnodup, rfl⟩ | ⟨label, m, rfl, hnodup, hm, rfl⟩
    · exact .inl ⟨l, rfl, hnodup, h⟩
    · obtain ⟨hlabels, hm⟩ := (hb.close_eq_ok_iff hnodup hlen).mp hm
      exact .inr ⟨label, m, rfl, hlabels, hm, h⟩
  · rintro (⟨l, rfl, hnodup, h⟩ | ⟨label, m, rfl, hlabels, hm, h⟩)
    · exact ⟨_, (statement_open_eq_ok_iff hb).mpr (.inl ⟨l, rfl, hnodup, rfl⟩), h⟩
    · have hclose := (hb.close_eq_ok_iff hlabels.distinct hlen).mpr ⟨hlabels, hm⟩
      exact ⟨_, (statement_open_eq_ok_iff hb).mpr (.inr ⟨label, m, rfl, hlabels.distinct, hclose, rfl⟩), h⟩

/-- The statements lead to these methods exactly if they spell texts that stand for them. -/
theorem takes_iff_added {ms' : Array Method} (hlen : sts.length < 2 ^ 32) :
    (Takes k ⟨ms, none⟩ sts ⟨ms', none⟩ ↔ MethodText.Added (Statement.Spell sts) ms ms') ∧
    ∀ b ls, Block.Collects b ls → ls.length + sts.length < 2 ^ 32 →
      (Takes k ⟨ms, some b⟩ sts ⟨ms', none⟩ ↔ MethodText.Added (Statement.Finish (b.text ls) sts) ms ms') := by
  -- Both sides follow the same recursion over the statements. A statement may open a method or close it, so the
  -- induction is for assemblies with and without an open method at once.
  induction sts generalizing k ms with
  | nil =>
    refine ⟨?_, fun b ls _ _ => ?_⟩
    · rw [takes_nil_iff, MethodText.added_spell_nil_iff, Assembly.mk.injEq, and_iff_left rfl]
    · simp [takes_nil_iff, MethodText.not_added_finish_nil]
  | cons st sts ih =>
    rw [List.length_cons] at hlen
    have hrest : sts.length < 2 ^ 32 := Nat.lt_of_succ_lt hlen
    refine ⟨?_, fun b ls hb hls => ?_⟩
    · have hstart : ∀ name arity localCount, Takes (k + 1) ⟨ms, some (.start name arity localCount k)⟩ sts ⟨ms', none⟩ ↔
          MethodText.Added (Statement.Finish ⟨name, arity, localCount, [], none⟩ sts) ms ms' := by
        intro name arity localCount
        exact (ih hrest).2 _ [] (Block.collects_start name arity localCount k) (by rwa [List.length_nil, Nat.zero_add])
      rw [takes_closed_cons_iff, MethodText.added_spell_cons_iff]
      simp only [(ih hrest).1, hstart]
    · rw [List.length_cons] at hls
      have hline : ∀ l, (BodyLine.labels (ls ++ [l])).Nodup →
          (Takes (k + 1) ⟨ms, some ((b.withLabel l.label).withDraft k l.draft)⟩ sts ⟨ms', none⟩ ↔
            MethodText.Added (Statement.Finish (b.text (ls ++ [l])) sts) ms ms') := by
        intro l hnodup
        have hlonger : (ls ++ [l]).length + sts.length < 2 ^ 32 := by
          rw [List.length_append, List.length_singleton]
          omega
        rw [(ih hrest).2 _ _ (hb.line hnodup k) hlonger, Block.text_withDraft, Block.text_withLabel]
      rw [takes_open_cons_iff hb (by omega), MethodText.added_finish_cons_iff]
      simp only [(ih hrest).1]
      refine or_congr_left (exists_congr fun l => and_congr_right fun _ => ?_)
      constructor
      · rintro ⟨hnodup, h⟩
        exact (hline l hnodup).mp h
      · intro h
        have hnodup := MethodText.nodup_of_added_finish h
        exact ⟨hnodup, (hline l hnodup).mpr h⟩

end Assembly

/-! ### Programs -/

theorem MethodText.map_name_eq {ts : List MethodText} {ms : List Method} (h : List.Forall₂ StandsFor ts ms) :
    ms.map (·.name) = ts.map (·.name) := by
  induction h with
  | nil => rfl
  | cons hm _ ih =>
    obtain ⟨code, -, hload⟩ := hm
    rw [List.map_cons, List.map_cons, ih, Method.name_of_load hload]

theorem MethodText.exists_standsFor_iff {ts : List MethodText} :
    (∃ ms, List.Forall₂ StandsFor ts ms) ↔ ∀ t ∈ ts, ∃ m, t.StandsFor m := by
  induction ts with
  | nil => simp
  | cons t ts ih =>
    rw [List.forall_mem_cons, ← ih]
    constructor
    · rintro ⟨_, h⟩
      cases h with
      | cons hm hms => exact ⟨⟨_, hm⟩, _, hms⟩
    · rintro ⟨⟨m, hm⟩, ms, hms⟩
      exact ⟨m :: ms, .cons hm hms⟩

theorem assemble_eq_ok_iff {text : String} (hlen : (Text.lines text.toList).length < 2 ^ 32) {p : Program} :
    assemble text = .ok p ↔ ∃ ts, Text.Spells text ts ∧ (∀ t ∈ ts, t.WellLabelled) ∧
      List.Forall₂ MethodText.StandsFor ts p.methods.toList := by
  have htakes : ∀ sts, List.Forall₂ (fun line st => Statement.ofLine line = .ok st) (Text.lines text.toList) sts →
      (Assembly.Takes 1 .empty sts ⟨p.methods, none⟩ ↔ MethodText.Added (Statement.Spell sts) #[] p.methods) :=
    fun sts hsts => (Assembly.takes_iff_added (hsts.length_eq ▸ hlen)).1
  rw [assemble, bind_eq_ok_iff]
  simp only [Assembly.finish_eq_ok_iff, Text.numberedLines, Assembly.foldlM_line_eq_ok_iff]
  constructor
  · rintro ⟨_, ⟨sts, hsts, h⟩, rfl⟩
    obtain ⟨ts, l, hts, hl, hmethods⟩ := (htakes sts hsts).mp h
    obtain ⟨hlabelled, hl⟩ := (List.forall₂_and_left _ _).mp hl
    rw [hmethods, Array.empty_append]
    exact ⟨ts, ⟨sts, hsts, hts⟩, hlabelled, hl⟩
  · rintro ⟨ts, ⟨sts, hsts, hts⟩, hl⟩
    have hadded := (htakes sts hsts).mpr ⟨ts, _, hts, (List.forall₂_and_left _ _).mpr hl, by simp⟩
    exact ⟨_, ⟨sts, hsts, hadded⟩, rfl⟩

/-- Exactly the texts of the grammar are accepted: those that spell methods of distinct names, with every label defined
once and the code passing the load checks. The program has the methods that the texts stand for, in their order. -/
theorem assemble_eq_ok_iff_spells (text : String) (hlen : (Text.lines text.toList).length < 2 ^ 32) :
    (∀ p, assemble text = .ok p ↔ ∃ ts, Text.Spells text ts ∧ (ts.map (·.name)).Nodup ∧
      (∀ t ∈ ts, t.WellLabelled) ∧ List.Forall₂ MethodText.StandsFor ts p.methods.toList) ∧
    ((∃ p, assemble text = .ok p) ↔ ∃ ts, Text.Spells text ts ∧ (ts.map (·.name)).Nodup ∧
      (∀ t ∈ ts, t.WellLabelled) ∧ ∀ t ∈ ts, ∃ m, t.StandsFor m) := by
  have hdistinct : ∀ ts (ms : Array Method), List.Forall₂ MethodText.StandsFor ts ms.toList →
      (Program.duplicate? ms = none ↔ (ts.map (·.name)).Nodup) := by
    intro ts ms h
    rw [Program.duplicate?_eq_none_iff, MethodText.map_name_eq h]
  refine ⟨fun p => ?_, ?_⟩
  · rw [assemble_eq_ok_iff hlen]
    constructor
    · rintro ⟨ts, hts, hlabelled, hmethods⟩
      exact ⟨ts, hts, (hdistinct ts _ hmethods).mp p.distinct, hlabelled, hmethods⟩
    · rintro ⟨ts, hts, -, hlabelled, hmethods⟩
      exact ⟨ts, hts, hlabelled, hmethods⟩
  · constructor
    · rintro ⟨p, hp⟩
      obtain ⟨ts, hts, hlabelled, hmethods⟩ := (assemble_eq_ok_iff hlen).mp hp
      exact ⟨ts, hts, (hdistinct ts _ hmethods).mp p.distinct, hlabelled,
        MethodText.exists_standsFor_iff.mp ⟨_, hmethods⟩⟩
    · rintro ⟨ts, hts, hnames, hlabelled, hgood⟩
      -- The methods have the names of their texts, so together they are a program.
      obtain ⟨ms, hms⟩ := MethodText.exists_standsFor_iff.mpr hgood
      exact ⟨⟨ms.toArray, (hdistinct ts ms.toArray hms).mpr hnames⟩,
        (assemble_eq_ok_iff hlen).mpr ⟨ts, hts, hlabelled, hms⟩⟩

/-- A text with labels used before and after their lines, and one label in two methods. -/
def Text.looping : String :=
  ".method f 1 1\na: LOAD_LOCAL 0\nJUMP_IF_FALSE b\nJUMP a\nb:\nJUMP a\n.end\n\n.method g 0 0\na: JUMP a\nb: .end"

/-- The program of that text. -/
def Program.looping : Program where
  methods := #[⟨"f", 1, 1, #[.loadLocal 0, .jumpIfFalse 3, .jump 0, .jump 0], by decide +kernel⟩,
    ⟨"g", 0, 0, #[.jump 0], by decide +kernel⟩]
  distinct := by decide +kernel

theorem assemble_looping_spells : (Text.lines Text.looping.toList).length < 2 ^ 32 ∧
    assemble Text.looping = .ok Program.looping ∧
    ∃ ts, Text.Spells Text.looping ts ∧ (ts.map (·.name)).Nodup ∧ (∀ t ∈ ts, t.WellLabelled) ∧
      List.Forall₂ MethodText.StandsFor ts Program.looping.methods.toList := by
  have hlen : (Text.lines Text.looping.toList).length < 2 ^ 32 := by decide +kernel
  have hp : assemble Text.looping = .ok Program.looping := by decide +kernel
  exact ⟨hlen, hp, ((assemble_eq_ok_iff_spells Text.looping hlen).1 Program.looping).mp hp⟩

end StackMachine
