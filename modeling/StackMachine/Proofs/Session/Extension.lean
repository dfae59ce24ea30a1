import StackMachine.Proofs.Session.Bounds
import StackMachine.Proofs.Session.Calls

/-! What a session does depends on the methods that its program has, not on their places or on methods that it does
not call. In a program with more methods, in any order, a frame has another index for the same method; a call finds the
method of its name in both programs, unless only the larger one has it. So the two sessions do the same, step by step,
until the smaller program lacks a method. -/

namespace StackMachine

namespace Program

/-- Every method of the one program is a method of the other. -/
instance : HasSubset Program where
  Subset p p' := ∀ m ∈ p.methods, m ∈ p'.methods

section
variable {p p' : Program} {name : String}

/-- A program finds the methods of a smaller program under their names. -/
theorem exists_find?_of_subset (h : p ⊆ p') {i : Fin p.methods.size} (hi : p.find? name = some i) :
    ∃ j, p'.find? name = some j ∧ p'.method j = p.method i := by
  obtain ⟨hmethod, rfl⟩ := find?_eq_some hi
  obtain ⟨j, hj, hmem⟩ := Array.mem_iff_getElem.mp (h _ (Array.mem_of_getElem? hmethod))
  have heq : p'.method ⟨j, hj⟩ = p.method i := hmem
  exact ⟨⟨j, hj⟩, by rw [← heq, find?_method], heq⟩

end

end Program

/-- A call of a method that only the larger program has. -/
def FaultKind.OfMissing (p p' : Program) (kind : FaultKind) : Prop :=
  ∃ name, kind = .unknownMethod name ∧ p.find? name = none ∧ p'.find? name ≠ none

theorem FaultKind.not_ofMissing {p p' : Program} (h : p' ⊆ p) (kind : FaultKind) : ¬kind.OfMissing p p' := by
  rintro ⟨name, -, hnone, hsome⟩
  obtain ⟨j, hj⟩ := Option.ne_none_iff_exists'.mp hsome
  obtain ⟨i, hi, -⟩ := Program.exists_find?_of_subset h hj
  rw [hnone] at hi
  cases hi

section
variable {p p' : Program} {limits : Limits}

theorem Program.callee_of_subset (h : p ⊆ p') (depth : Nat) (name : String) (argc : Nat) :
    (∃ kind, p.callee limits depth name argc = .error kind ∧
      (kind.OfMissing p p' ∨ p'.callee limits depth name argc = .error kind)) ∨
    ∃ index index' m, p.callee limits depth name argc = .ok (index, m) ∧
      p'.callee limits depth name argc = .ok (index', m) := by
  unfold callee
  cases hp : p.find? name with
  | none =>
    refine Or.inl ⟨_, rfl, ?_⟩
    -- A method that `p` lacks may be one of `p'`.
    cases hp' : p'.find? name with
    | none => exact Or.inr rfl
    | some j => exact Or.inl ⟨name, rfl, hp, by rw [hp']; exact Option.some_ne_none j⟩
  | some i =>
    obtain ⟨j, hp', hmethod⟩ := exists_find?_of_subset h hp
    simp only [hp', hmethod]
    split
    · exact Or.inl ⟨_, rfl, Or.inr rfl⟩
    · split
      · exact Or.inl ⟨_, rfl, Or.inr rfl⟩
      · exact Or.inr ⟨i, j, p.method i, rfl, rfl⟩

/-! ### Frames -/

/-- The frames are at the same instruction of the same method, which may have another index in `p'`, and hold the
same. -/
structure Frame.Corresponds (p p' : Program) (f g : Frame) : Prop where
  method : ∃ m, p.methods[f.method]? = some m ∧ p'.methods[g.method]? = some m
  pc : f.pc = g.pc
  locals : f.locals = g.locals
  stack : f.stack = g.stack

namespace Frame.Corresponds
variable {f g : Frame}

theorem fetch? (h : f.Corresponds p p' g) : p.fetch? f = p'.fetch? g := by
  obtain ⟨⟨m, hm, hm'⟩, hpc, -, -⟩ := h
  simp only [Program.fetch?, hm, hm', hpc]

theorem withStack (h : f.Corresponds p p' g) (stack : Stack Int32) :
    Corresponds p p' { f with stack := stack } { g with stack := stack } :=
  ⟨h.method, h.pc, h.locals, rfl⟩

theorem next (h : f.Corresponds p p' g) (stack : Stack Int32) : (f.next stack).Corresponds p p' (g.next stack) :=
  ⟨h.method, congrArg (· + 1) h.pc, h.locals, rfl⟩

theorem receive (h : f.Corresponds p p' g) (value : Int32) : (f.receive value).Corresponds p p' (g.receive value) :=
  ⟨h.method, h.pc, h.locals, congrArg (·.push value) h.stack⟩

theorem ofArgs {depth argc index index' : Nat} {name : String} {m : Method}
    (h : p.callee limits depth name argc = .ok (index, m)) (h' : p'.callee limits depth name argc = .ok (index', m))
    (args : List Int32) : (Frame.ofArgs index m.localCount.toNat args).Corresponds p p'
      (Frame.ofArgs index' m.localCount.toNat args) :=
  ⟨⟨m, (Program.callee_eq_ok h).1, (Program.callee_eq_ok h').1⟩, rfl, rfl, rfl⟩

end Frame.Corresponds

/-! ### Effects -/

namespace Effect

/-- The effects are the same up to frames that correspond. -/
inductive Corresponds (p p' : Program) : Effect → Effect → Prop
  | stay {f g : Frame} {heap : Heap} : f.Corresponds p p' g → Corresponds p p' (.stay f heap) (.stay g heap)
  | call {f g f' g' : Frame} {heap : Heap} : f.Corresponds p p' g → f'.Corresponds p p' g' →
    Corresponds p p' (.call f f' heap) (.call g g' heap)
  | give {value : Int32} {heap : Heap} : Corresponds p p' (.give value heap) (.give value heap)
  | fault {kind : FaultKind} {f g : Frame} {heap : Heap} : f.Corresponds p p' g →
    Corresponds p p' (.fault kind f heap) (.fault kind g heap)

/-- The effects correspond, or the first is a fault for want of a method. -/
def CorrespondsOrMissing (p p' : Program) (e e' : Effect) : Prop :=
  e.Corresponds p p' e' ∨ ∃ kind f heap, e = .fault kind f heap ∧ kind.OfMissing p p'

variable {heap : Heap} {f g : Frame}

theorem corresponds_push (h : f.Corresponds p p' g) (value : Int32) :
    (push limits heap f value).Corresponds p p' (push limits heap g value) := by
  unfold push Frame.push
  rw [h.stack]
  by_cases hroom : g.stack.height < limits.operandStack
  · simp only [hroom, if_true]
    exact .stay (h.next _)
  · simp only [hroom, if_false]
    exact .fault h

theorem corresponds_underflow (h : f.Corresponds p p' g) : (underflow heap f).Corresponds p p' (underflow heap g) :=
  .fault (h.withStack .empty)

theorem corresponds_replace (h : f.Corresponds p p' g) (rest : Stack Int32) (result : Except FaultKind Int32) :
    (replace heap f rest result).Corresponds p p' (replace heap g rest result) := by
  cases result with
  | ok value => exact .stay (h.next _)
  | error kind => exact .fault (h.withStack rest)

/-- Only a call looks for a method in the program. -/
theorem corresponds_ofInstruction (h : f.Corresponds p p' g) (depth : Nat) {i : Instruction} (hi : i.callee? = none) :
    (ofInstruction p limits depth heap f i).Corresponds p p' (ofInstruction p' limits depth heap g i) := by
  cases i with
  | invokeStatic name argc => cases hi
  | pushConst value => exact corresponds_push h value
  | loadLocal slot =>
    have hload : f.load slot = g.load slot := by simp only [Frame.load, Frame.invalidSlot, h.locals]
    simp only [ofInstruction, hload]
    cases g.load slot with
    | ok value => exact corresponds_push h value
    | error kind => exact .fault h
  | storeLocal slot =>
    have hslot : f.hasSlot slot ↔ g.hasSlot slot := by simp only [Frame.hasSlot, h.locals]
    have hfault : f.invalidSlot slot = g.invalidSlot slot := by simp only [Frame.invalidSlot, h.locals]
    simp only [ofInstruction, h.stack, hslot, hfault]
    cases g.stack.pop? with
    | none => exact corresponds_underflow h
    | some popped =>
      by_cases hg : g.hasSlot slot
      · simp only [hg, if_true]
        exact .stay ⟨h.method, congrArg (· + 1) h.pc, congrArg (·.set slot.toNat popped.1) h.locals, rfl⟩
      · simp only [hg, if_false]
        exact .fault (h.withStack popped.2)
  | dup =>
    simp only [ofInstruction, h.stack]
    cases g.stack.pop? with
    | none => exact corresponds_underflow h
    | some popped => exact corresponds_push h popped.1
  | pop =>
    simp only [ofInstruction, h.stack]
    cases g.stack.pop? with
    | none => exact corresponds_underflow h
    | some popped => exact .stay (h.next popped.2)
  | arith op =>
    simp only [ofInstruction, h.stack]
    cases g.stack.pop2? with
    | none => exact corresponds_underflow h
    | some popped => exact corresponds_replace h _ _
  | neg =>
    simp only [ofInstruction, h.stack]
    cases g.stack.pop? with
    | none => exact corresponds_underflow h
    | some popped => exact corresponds_replace h _ _
  | compare op =>
    simp only [ofInstruction, h.stack]
    cases g.stack.pop2? with
    | none => exact corresponds_underflow h
    | some popped => exact corresponds_replace h _ _
  | jump target => exact .stay ⟨h.method, rfl, h.locals, h.stack⟩
  | jumpIfFalse target =>
    simp only [ofInstruction, h.stack]
    cases g.stack.pop? with
    | none => exact corresponds_underflow h
    | some popped =>
      by_cases hz : popped.1 = 0
      · simp only [hz, if_true]
        exact .stay ⟨h.method, rfl, h.locals, rfl⟩
      · simp only [hz, if_false]
        exact .stay (h.next popped.2)
  | newArray =>
    simp only [ofInstruction, h.stack]
    cases g.stack.pop? with
    | none => exact corresponds_underflow h
    | some popped =>
      simp only
      cases heap.request limits.heapCells popped.1 with
      | ok size => exact .stay (h.next _)
      | error kind => exact .fault (h.withStack popped.2)
  | arrayLoad =>
    simp only [ofInstruction, h.stack]
    cases g.stack.pop2? with
    | none => exact corresponds_underflow h
    | some popped => exact corresponds_replace h _ _
  | arrayStore =>
    simp only [ofInstruction, h.stack]
    cases g.stack.pop3? with
    | none => exact corresponds_underflow h
    | some popped =>
      simp only
      cases heap.locate popped.2.2.1 popped.2.1 with
      | ok place => exact .stay (h.next _)
      | error kind => exact .fault (h.withStack _)
  | arrayLength =>
    simp only [ofInstruction, h.stack]
    cases g.stack.pop? with
    | none => exact corresponds_underflow h
    | some popped => exact corresponds_replace h _ _
  | ret =>
    simp only [ofInstruction, h.stack]
    cases g.stack.pop? with
    | none => exact corresponds_underflow h
    | some popped => exact .give

theorem invoke_of_subset (h : p ⊆ p') (hf : f.Corresponds p p' g) (depth : Nat) (name : String) (argc : UInt16) :
    CorrespondsOrMissing p p' (invoke p limits depth heap f name argc) (invoke p' limits depth heap g name argc) := by
  unfold invoke
  rcases Program.callee_of_subset h depth name argc.toNat with ⟨kind, hc, hmissing | hc'⟩ | ⟨index, index', m, hc, hc'⟩
  · rw [hc]
    exact Or.inr ⟨kind, f, heap, rfl, hmissing⟩
  · rw [hc, hc']
    exact Or.inl (.fault hf)
  · simp only [hc, hc', Frame.popArgs, hf.stack]
    by_cases hargs : argc.toNat ≤ g.stack.height
    · simp only [hargs, if_true]
      exact Or.inl (.call (hf.next _) (.ofArgs hc hc' _))
    · simp only [hargs, if_false]
      exact Or.inl (.fault hf)

theorem ofInstruction_of_subset (h : p ⊆ p') (hf : f.Corresponds p p' g) (depth : Nat) (i : Instruction) :
    CorrespondsOrMissing p p' (ofInstruction p limits depth heap f i) (ofInstruction p' limits depth heap g i) := by
  cases hi : i.callee? with
  | none => exact Or.inl (corresponds_ofInstruction hf depth hi)
  | some name =>
    cases i with
    | invokeStatic name argc => exact invoke_of_subset h hf depth name argc
    | _ => cases hi

end Effect

/-! ### Sessions -/

namespace Session

/-- The sessions are in the same state, with frames that correspond. -/
structure Corresponds (p p' : Program) (s t : Session) : Prop where
  frames : List.Forall₂ (Frame.Corresponds p p') s.frames.toList t.frames.toList
  heap : s.heap = t.heap
  steps : s.steps = t.steps
  status : s.status = t.status

/-- The sessions correspond, or the first has halted for want of a method. -/
def CorrespondsOrMissing (p p' : Program) (s t : Session) : Prop :=
  s.Corresponds p p' t ∨ ∃ fault, s.status = .faulted fault ∧ fault.kind.OfMissing p p'

variable {s t : Session} {callers callers' : Stack Frame}

theorem corresponds_give (h : List.Forall₂ (Frame.Corresponds p p') callers.toList callers'.toList) (heap : Heap)
    (steps : Nat) (name : String) (pc : Nat) (value : Int32) :
    (give limits callers heap steps name pc value).Corresponds p p' (give limits callers' heap steps name pc value) := by
  rcases callers.eq_empty_or_eq_push with rfl | ⟨rest, caller, rfl⟩ <;>
    rcases callers'.eq_empty_or_eq_push with rfl | ⟨rest', caller', rfl⟩
  · exact ⟨.nil, rfl, rfl, rfl⟩
  · cases h
  · cases h
  · obtain ⟨hcaller, hrest⟩ := List.forall₂_cons.mp h
    simp only [give_push, hcaller.stack]
    split
    · exact ⟨.cons (hcaller.receive value) hrest, rfl, rfl, rfl⟩
    · exact ⟨h, rfl, rfl, rfl⟩

theorem corresponds_apply (h : List.Forall₂ (Frame.Corresponds p p') callers.toList callers'.toList) {e e' : Effect}
    (he : e.Corresponds p p' e') (steps : Nat) (name : String) (pc : Nat) :
    (apply limits callers steps name pc e).Corresponds p p' (apply limits callers' steps name pc e') := by
  cases he with
  | stay hf => exact ⟨.cons hf h, rfl, rfl, rfl⟩
  | call hf hf' => exact ⟨.cons hf' (.cons hf h), rfl, rfl, rfl⟩
  | give => exact corresponds_give h _ _ _ _ _
  | fault hf => exact ⟨.cons hf h, rfl, rfl, rfl⟩

theorem start_of_subset (h : p ⊆ p') (entry : String) (args : List Int32) :
    CorrespondsOrMissing p p' (start p limits entry args) (start p' limits entry args) := by
  unfold start
  rcases Program.callee_of_subset h 0 entry args.length with ⟨kind, hc, hmissing | hc'⟩ | ⟨index, index', m, hc, hc'⟩
  · rw [hc]
    exact Or.inr ⟨_, rfl, hmissing⟩
  · rw [hc, hc']
    exact Or.inl ⟨.nil, rfl, rfl, rfl⟩
  · rw [hc, hc']
    exact Or.inl ⟨.cons (.ofArgs hc hc' args) .nil, rfl, rfl, rfl⟩

theorem Corresponds.step (hsub : p ⊆ p') (h : s.Corresponds p p' t) (hb : s.Bounded p limits) :
    CorrespondsOrMissing p p' (s.step p limits) (t.step p' limits) := by
  by_cases hrun : s.status = .running
  · obtain ⟨f, callers, m, i, hf, -, hi, -⟩ := hb.active hrun
    have hframes := h.frames
    rw [hf] at hframes
    rcases t.frames.eq_empty_or_eq_push with ht | ⟨callers', g, ht⟩
    · rw [ht] at hframes
      cases hframes
    · rw [ht] at hframes
      obtain ⟨hg, hcallers⟩ := List.forall₂_cons.mp hframes
      have hheight : callers.height = callers'.height := by
        rw [callers.height_eq, callers'.height_eq, hcallers.length_eq]
      have hrun' : t.status = .running := h.status ▸ hrun
      rw [step_eq_apply hrun hf hi, step_eq_apply hrun' ht (hg.fetch? ▸ hi), ← h.heap, ← h.steps, ← hg.pc, ← hheight]
      rcases Effect.ofInstruction_of_subset hsub hg (callers.height + 1) i with he | ⟨kind, f', heap, he, hmissing⟩
      · exact Or.inl (corresponds_apply hcallers he _ _ _)
      · rw [he]
        exact Or.inr ⟨_, rfl, hmissing⟩
  · have hhalt := Status.isHalted_of_ne_running hrun
    rw [step_of_halted hhalt, step_of_halted (h.status ▸ hhalt)]
    exact Or.inl h

theorem after_of_subset (hsub : p ⊆ p') (entry : String) (args : List Int32) (n : Nat) :
    CorrespondsOrMissing p p' (after p limits entry args n) (after p' limits entry args n) := by
  induction n with
  | zero => exact start_of_subset hsub entry args
  | succ n ih =>
    rw [after_succ, after_succ]
    rcases ih with hsame | ⟨fault, hfault, hmissing⟩
    · exact hsame.step hsub (bounded_after entry args n)
    · have hhalt : (after p limits entry args n).status.isHalted = true := by
        rw [hfault]
        rfl
      rw [step_of_halted hhalt]
      exact Or.inr ⟨fault, hfault, hmissing⟩

/-- A program that has all methods of another, wherever they stand, does the same after every number of steps: it is in
the same state, with the same heap, and its frames are in the same methods, unless the other program has halted because
it lacks a method. Programs with the same methods always do the same. -/
theorem after_corresponds_of_subset (h : p ⊆ p') (limits : Limits) (entry : String) (args : List Int32) (n : Nat) :
    ((after p limits entry args n).Corresponds p p' (after p' limits entry args n) ∨
      ∃ name location, (after p limits entry args n).status = .faulted ⟨.unknownMethod name, location⟩) ∧
    (p' ⊆ p → (after p limits entry args n).Corresponds p p' (after p' limits entry args n)) := by
  rcases after_of_subset h entry args n with hsame | ⟨⟨kind, location⟩, hfault, hmissing⟩
  · exact ⟨Or.inl hsame, fun _ => hsame⟩
  · refine ⟨Or.inr ?_, fun h' => absurd hmissing (FaultKind.not_ofMissing h' kind)⟩
    obtain ⟨name, rfl, -⟩ := hmissing
    exact ⟨name, location, hfault⟩

end Session

end

/-- The doubling program with its methods in reverse and one more method. -/
def Program.doublingReversed : Program where
  methods := Program.doubling.methods.reverse.push ⟨"zero", 0, 0, #[.pushConst 0, .ret], by decide +kernel⟩
  distinct := by decide +kernel

theorem Session.after_corresponds_doubling : Program.doubling ⊆ Program.doublingReversed ∧
    (after .doubling {} "main" [] 4).Corresponds .doubling .doublingReversed (after .doublingReversed {} "main" [] 4) := by
  have hsub : Program.doubling ⊆ Program.doublingReversed :=
    show ∀ m ∈ Program.doubling.methods, m ∈ Program.doublingReversed.methods by decide +kernel
  refine ⟨hsub, ?_⟩
  rcases (after_corresponds_of_subset hsub {} "main" [] 4).1 with hsame | ⟨name, location, hfault⟩
  · exact hsame
  · have hrun : (after .doubling {} "main" [] 4).status = .running := by decide +kernel
    rw [hrun] at hfault
    cases hfault

end StackMachine
