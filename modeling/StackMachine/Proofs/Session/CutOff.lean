import StackMachine.Proofs.Loaded
import StackMachine.Proofs.Session.Run

/-! Limits only cut a session off. Of two sessions that differ in their limits alone, the one with the smaller limits
is in the same state after every number of steps, until it halts at a fault of a limit. Each limit is read in one
place only: the call depth where a method is called, the operand stack where a value is pushed, the heap cells where
an array is requested. So each of these either does the same under larger limits or raises a fault of its limit. -/

namespace StackMachine

/-- Limits that allow at least as much of everything. -/
instance : LE Limits where
  le c d := c.callDepth ≤ d.callDepth ∧ c.operandStack ≤ d.operandStack ∧ c.heapCells ≤ d.heapCells

instance (c d : Limits) : Decidable (c ≤ d) :=
  inferInstanceAs (Decidable (_ ∧ _ ∧ _))

/-- A fault that a limit raises. -/
def FaultKind.OfLimit (kind : FaultKind) : Prop :=
  kind.toClass = .stackOverflow ∨ kind.toClass = .operandStackOverflow ∨ kind.toClass = .heapExhausted

/-- A session that has halted at a fault of a limit. -/
def Status.IsCutOff (status : Status) : Prop :=
  ∃ fault, status = .faulted fault ∧ fault.kind.OfLimit

theorem Status.IsCutOff.isHalted {status : Status} (h : status.IsCutOff) : status.isHalted = true := by
  obtain ⟨fault, rfl, -⟩ := h
  rfl

/-- Two results are the same, or the first is a fault of a limit. -/
def SameOrCut {α : Type} (a b : Except FaultKind α) : Prop :=
  a = b ∨ ∃ kind, a = .error kind ∧ kind.OfLimit

section
variable {c d : Limits}

theorem Program.callee_sameOrCut (h : c ≤ d) (p : Program) (depth : Nat) (name : String) (argc : Nat) :
    SameOrCut (p.callee c depth name argc) (p.callee d depth name argc) := by
  unfold callee
  cases p.find? name with
  | none => exact Or.inl rfl
  | some i =>
    dsimp only
    by_cases hargc : argc ≠ (p.method i).arity.toNat
    · rw [if_pos hargc, if_pos hargc]
      exact Or.inl rfl
    · rw [if_neg hargc, if_neg hargc]
      by_cases hdepth : c.callDepth ≤ depth
      · rw [if_pos hdepth]
        exact Or.inr ⟨_, rfl, Or.inl rfl⟩
      · have hdepth' : ¬d.callDepth ≤ depth := fun hd => hdepth (Nat.le_trans h.1 hd)
        rw [if_neg hdepth, if_neg hdepth']
        exact Or.inl rfl

theorem Frame.push_sameOrCut (h : c ≤ d) (value : Int32) (f : Frame) :
    SameOrCut (f.push c.operandStack value) (f.push d.operandStack value) := by
  unfold push
  by_cases hroom : f.stack.height < c.operandStack
  · rw [if_pos hroom, if_pos (Nat.lt_of_lt_of_le hroom h.2.1)]
    exact Or.inl rfl
  · rw [if_neg hroom]
    exact Or.inr ⟨_, rfl, Or.inr (Or.inl rfl)⟩

theorem Heap.request_sameOrCut (h : c ≤ d) (length : Int32) (heap : Heap) :
    SameOrCut (heap.request c.heapCells length) (heap.request d.heapCells length) := by
  unfold request
  by_cases hneg : length < 0
  · rw [if_pos hneg, if_pos hneg]
    exact Or.inl rfl
  · rw [if_neg hneg, if_neg hneg]
    dsimp only
    by_cases hfit : heap.cells + length.toInt.toNat ≤ c.heapCells ∧ heap.arrays.size < maxArrays
    · rw [if_pos hfit, if_pos ⟨Nat.le_trans hfit.1 h.2.2, hfit.2⟩]
      exact Or.inl rfl
    · rw [if_neg hfit]
      exact Or.inr ⟨_, rfl, Or.inr (Or.inr rfl)⟩

/-! ### Effects -/

namespace Effect

/-- The effects are the same, or the first is a fault of a limit. -/
def SameOrCut (e e' : Effect) : Prop :=
  e = e' ∨ ∃ kind f heap, e = .fault kind f heap ∧ kind.OfLimit

theorem push_sameOrCut (h : c ≤ d) (heap : Heap) (f : Frame) (value : Int32) :
    SameOrCut (push c heap f value) (push d heap f value) := by
  unfold push
  rcases Frame.push_sameOrCut h value f with hsame | ⟨kind, hcut, hkind⟩
  · rw [hsame]
    exact Or.inl rfl
  · rw [hcut]
    exact Or.inr ⟨kind, f, heap, rfl, hkind⟩

theorem invoke_sameOrCut (h : c ≤ d) (p : Program) (depth : Nat) (heap : Heap) (f : Frame) (name : String)
    (argc : UInt16) : SameOrCut (invoke p c depth heap f name argc) (invoke p d depth heap f name argc) := by
  unfold invoke
  rcases Program.callee_sameOrCut h p depth name argc.toNat with hsame | ⟨kind, hcut, hkind⟩
  · rw [hsame]
    exact Or.inl rfl
  · rw [hcut]
    exact Or.inr ⟨kind, f, heap, rfl, hkind⟩

theorem ofInstruction_sameOrCut (h : c ≤ d) (p : Program) (depth : Nat) (heap : Heap) (f : Frame) (i : Instruction) :
    SameOrCut (ofInstruction p c depth heap f i) (ofInstruction p d depth heap f i) := by
  cases i with
  | pushConst value => exact push_sameOrCut h heap f value
  | loadLocal slot =>
    simp only [ofInstruction]
    cases f.load slot with
    | ok value => exact push_sameOrCut h heap f value
    | error kind => exact Or.inl rfl
  | dup =>
    simp only [ofInstruction]
    cases f.stack.pop? with
    | none => exact Or.inl rfl
    | some popped => exact push_sameOrCut h heap f popped.1
  | newArray =>
    simp only [ofInstruction]
    cases f.stack.pop? with
    | none => exact Or.inl rfl
    | some popped =>
      rcases Heap.request_sameOrCut h popped.1 heap with hsame | ⟨kind, hcut, hkind⟩
      · simp only [hsame]
        exact Or.inl rfl
      · simp only [hcut]
        exact Or.inr ⟨kind, _, heap, rfl, hkind⟩
  | invokeStatic name argc => exact invoke_sameOrCut h p depth heap f name argc
  -- The other instructions ask for no limit.
  | _ => exact Or.inl rfl

end Effect

/-! ### Sessions -/

namespace Session

/-- The sessions are the same, or the first was ended by a limit. -/
def SameOrCut (s t : Session) : Prop :=
  s = t ∨ s.status.IsCutOff

theorem start_sameOrCut (h : c ≤ d) (p : Program) (entry : String) (args : List Int32) :
    SameOrCut (start p c entry args) (start p d entry args) := by
  unfold start
  rcases p.callee_sameOrCut h 0 entry args.length with hsame | ⟨kind, hcut, hkind⟩
  · rw [hsame]
    exact Or.inl rfl
  · rw [hcut]
    exact Or.inr ⟨_, rfl, hkind⟩

theorem give_sameOrCut (h : c ≤ d) (callers : Stack Frame) (heap : Heap) (steps : Nat) (name : String) (pc : Nat)
    (value : Int32) : SameOrCut (give c callers heap steps name pc value) (give d callers heap steps name pc value) := by
  unfold give
  cases callers.pop? with
  | none => exact Or.inl rfl
  | some popped =>
    rcases Frame.push_sameOrCut h value popped.1 with hsame | ⟨kind, hcut, hkind⟩
    · simp only [hsame]
      exact Or.inl rfl
    · simp only [hcut]
      exact Or.inr ⟨_, rfl, hkind⟩

theorem apply_sameOrCut (h : c ≤ d) {e e' : Effect} (he : e.SameOrCut e') (callers : Stack Frame) (steps : Nat)
    (name : String) (pc : Nat) : SameOrCut (apply c callers steps name pc e) (apply d callers steps name pc e') := by
  rcases he with rfl | ⟨kind, f, heap, rfl, hkind⟩
  · cases e with
    | give value heap => exact give_sameOrCut h callers heap steps name pc value
    | _ => exact Or.inl rfl
  · exact Or.inr ⟨_, rfl, hkind⟩

theorem step_sameOrCut (h : c ≤ d) (p : Program) (s : Session) : SameOrCut (s.step p c) (s.step p d) := by
  obtain ⟨frames, heap, steps, status⟩ := s
  cases status with
  | running =>
    simp only [step]
    cases frames.pop? with
    | none => exact Or.inl rfl
    | some popped =>
      simp only
      cases p.fetch? popped.1 with
      | none => exact Or.inl rfl
      | some fetched => exact apply_sameOrCut h (Effect.ofInstruction_sameOrCut h p _ heap popped.1 fetched.2) _ _ _ _
  | returned value => exact Or.inl rfl
  | faulted fault => exact Or.inl rfl

theorem after_sameOrCut (h : c ≤ d) (p : Program) (entry : String) (args : List Int32) (n : Nat) :
    SameOrCut (after p c entry args n) (after p d entry args n) := by
  induction n with
  | zero => exact start_sameOrCut h p entry args
  | succ n ih =>
    rw [after_succ, after_succ]
    rcases ih with hsame | hcut
    · rw [hsame]
      exact step_sameOrCut h p _
    -- A session that is cut off has halted, so another step leaves it cut off.
    · rw [step_of_halted hcut.isHalted]
      exact Or.inr hcut

theorem SameOrCut.status_eq {s t : Session} (h : s.SameOrCut t) (hs : ¬s.status.IsCutOff) : t.status = s.status := by
  rcases h with rfl | hcut
  · rfl
  · exact absurd hcut hs

/-- Limits only cut a run off: under larger limits a session is in the same state after as many steps, unless the
smaller limits have halted it. So a value, or a fault of another kind, does not depend on the larger limits. -/
theorem after_eq_or_isCutOff (h : c ≤ d) (p : Program) (entry : String) (args : List Int32) (n : Nat) :
    (after p c entry args n = after p d entry args n ∨ (after p c entry args n).status.IsCutOff) ∧
      (∀ value, (after p c entry args n).status = .returned value →
        (after p d entry args n).status = .returned value) ∧
      ∀ fault, (after p c entry args n).status = .faulted fault → ¬fault.kind.OfLimit →
        (after p d entry args n).status = .faulted fault := by
  have hsame := after_sameOrCut h p entry args n
  refine ⟨hsame, fun value hv => ?_, fun fault hf hkind => ?_⟩
  · rw [hsame.status_eq, hv]
    rintro ⟨fault, hfault, -⟩
    rw [hv] at hfault
    cases hfault
  · rw [hsame.status_eq, hf]
    rintro ⟨fault', hfault, hcut⟩
    rw [hf] at hfault
    cases hfault
    exact hkind hcut

/-- The least limits under which a run returns give the value that the usual limits give. -/
theorem after_doubling_returned : (⟨2, 2, 0⟩ : Limits) ≤ {} ∧
    (after .doubling ⟨2, 2, 0⟩ "main" [] 8).status = .returned (-14) ∧
    (after .doubling {} "main" [] 8).status = .returned (-14) :=
  have hv : (after .doubling ⟨2, 2, 0⟩ "main" [] 8).status = .returned (-14) := by decide +kernel
  ⟨by decide, hv, (after_eq_or_isCutOff (by decide) .doubling "main" [] 8).2.1 _ hv⟩

end Session

end

end StackMachine
