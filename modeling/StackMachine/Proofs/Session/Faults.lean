import StackMachine.Proofs.Heap.Memory
import StackMachine.Proofs.Results
import StackMachine.Proofs.Session.Budget
import StackMachine.Proofs.Session.Context
import StackMachine.Proofs.Session.Extension
import StackMachine.Proofs.Session.Operations

/-! Faults. An instruction that faults leaves the heap, the callers and its own place as they are; at most it has taken
values from its stack, or it has returned to a caller without room for its value. And its fault fits it: each kind is
raised by few instructions, and says of them, of the limits and of the heap what is so. -/

namespace StackMachine

/-! ### Which faults fit -/

/-- The fault with which a call of this method, with so many arguments and on top of `depth` frames, is refused. -/
def FaultKind.RefusesCall (p : Program) (limits : Limits) (depth : Nat) (name : String) (argc : Nat) : FaultKind → Prop
  | .unknownMethod unknown => unknown = name ∧ p.get? name = none
  | .arityMismatch method expected found =>
    method = name ∧ found = argc ∧ found ≠ expected.toNat ∧ ∃ m, p.get? name = some m ∧ expected = m.arity
  | .stackOverflow limit =>
    limit = limits.callDepth ∧ limit = depth ∧ ∃ m, p.get? name = some m ∧ m.arity.toNat = argc
  | _ => False

/-- The fault fits the instruction that has raised it, in a method with so many slots, on top of `depth` frames with its
own, and with this heap. -/
def FaultKind.Fits (p : Program) (limits : Limits) (depth : Nat) (heap : Heap) (localCount : UInt16) (i : Instruction)
    (kind : FaultKind) : Prop :=
  match kind with
  | .stackUnderflow => i.opcode ∉ [.pushConst, .loadLocal, .jump]
  | .operandStackOverflow limit => i.opcode ∈ [.pushConst, .loadLocal, .dup, .ret] ∧ limit = limits.operandStack
  | .unknownMethod _ | .arityMismatch _ _ _ | .stackOverflow _ =>
    ∃ name argc, i = .invokeStatic name argc ∧ kind.RefusesCall p limits depth name argc.toNat
  | .invalidSlot slot count =>
    (i = .loadLocal slot ∨ i = .storeLocal slot) ∧ count = localCount ∧ count ≤ slot
  | .divisionByZero => i = .arith .div ∨ i = .arith .rem
  | .negativeArraySize length => i = .newArray ∧ length < 0
  | .heapExhausted requested limit => i = .newArray ∧ limit = limits.heapCells ∧
    (limit < heap.cells + requested ∨ Heap.maxArrays ≤ heap.arrays.size)
  | .indexOutOfBounds index length => (i = .arrayLoad ∨ i = .arrayStore) ∧ (index < 0 ∨ length ≤ index.toInt.toNat) ∧
    ∃ reference array, heap.elements reference = .ok array ∧ array.size = length
  | .nullReference reference => (i = .arrayLoad ∨ i = .arrayStore ∨ i = .arrayLength) ∧
    heap.elements reference = .error (.nullReference reference)

section
variable {p : Program} {limits : Limits} {depth : Nat} {heap : Heap} {localCount : UInt16} {i : Instruction}
  {kind : FaultKind}

theorem Program.callee_eq_error {name : String} {argc : Nat} (hdepth : depth ≤ limits.callDepth)
    (h : p.callee limits depth name argc = .error kind) : kind.RefusesCall p limits depth name argc := by
  unfold callee at h
  cases hfind : p.find? name with
  | none =>
    rw [hfind] at h
    cases h
    exact ⟨rfl, by rw [get?, hfind]; rfl⟩
  | some index =>
    have hget : p.get? name = some (p.method index) := by rw [get?, hfind]; rfl
    simp only [hfind] at h
    by_cases hargc : argc = (p.method index).arity.toNat
    · rw [if_neg (not_not_intro hargc)] at h
      split at h
      · rename_i hfull
        cases h
        exact ⟨rfl, Nat.le_antisymm hfull hdepth, _, hget, hargc.symm⟩
      · cases h
    · rw [if_pos hargc] at h
      cases h
      exact ⟨rfl, rfl, hargc, _, hget, rfl⟩

theorem Arith.apply_eq_error {op : Arith} {a b : Int32} (h : op.apply a b = .error kind) :
    kind.Fits p limits depth heap localCount (.arith op) := by
  cases op with
  | add => cases h
  | sub => cases h
  | mul => cases h
  | div =>
    simp only [apply] at h
    split at h
    · cases h
      exact Or.inl rfl
    · cases h
  | rem =>
    simp only [apply] at h
    split at h
    · cases h
      exact Or.inr rfl
    · cases h

namespace Heap
variable {length index reference : Int32}

theorem request_eq_error (h : heap.request limits.heapCells length = .error kind) :
    kind.Fits p limits depth heap localCount .newArray := by
  unfold request at h
  by_cases hneg : length < 0
  · rw [if_pos hneg] at h
    cases h
    exact ⟨rfl, hneg⟩
  · rw [if_neg hneg] at h
    dsimp only at h
    split at h
    · cases h
    · rename_i hfull
      cases h
      exact ⟨rfl, rfl, by omega⟩

theorem locate_eq_error (hi : i = .arrayLoad ∨ i = .arrayStore) (h : heap.locate reference index = .error kind) :
    kind.Fits p limits depth heap localCount i := by
  rcases heap.elements_eq_ok_or_null reference with ⟨array, ha⟩ | hnull
  · rw [locate_of_elements ha] at h
    split at h
    · cases h
    · rename_i hout
      cases h
      refine ⟨hi, ?_, reference, array, ha, rfl⟩
      rcases Int32.lt_or_le index 0 with hneg | hpos
      · exact Or.inl hneg
      · exact Or.inr (Nat.le_of_not_lt fun hlt => hout ⟨hpos, hlt⟩)
  · rw [locate_of_null hnull] at h
    cases h
    exact ⟨hi.imp_right Or.inl, hnull⟩

theorem load_eq_error (h : heap.load reference index = .error kind) :
    kind.Fits p limits depth heap localCount .arrayLoad := by
  rw [load_eq_map_locate, map_eq_error_iff] at h
  exact locate_eq_error (Or.inl rfl) h

theorem length_eq_error (h : heap.length reference = .error kind) :
    kind.Fits p limits depth heap localCount .arrayLength := by
  rw [length_eq_map_elements, map_eq_error_iff] at h
  rcases heap.elements_eq_ok_or_null reference with ⟨array, ha⟩ | hnull
  · rw [ha] at h
    cases h
  · rw [hnull] at h
    cases h
    exact ⟨Or.inr (Or.inr rfl), hnull⟩

end Heap

/-! ### Instructions that fault -/

/-- The number of slots of a method has 16 bits, so nothing is cut from it where a fault gives it. -/
theorem Frame.invalidSlot_eq {f : Frame} (hslots : f.locals.size = localCount.toNat) (slot : UInt16) :
    f.invalidSlot slot = .invalidSlot slot localCount := by
  rw [invalidSlot, hslots, UInt16.ofNat_toNat]

/-- If this is a fault, it fits instruction `i` of frame `f` with so many slots; and the instructions that fault only
before they take a value have left the stack whole. -/
def Effect.FaultsFit (p : Program) (limits : Limits) (depth : Nat) (heap : Heap) (localCount : UInt16) (f : Frame)
    (i : Instruction) (e : Effect) : Prop :=
  ∀ kind g heap', e = .fault kind g heap' → kind.Fits p limits depth heap localCount i ∧
    (i.opcode ∈ [.pushConst, .loadLocal, .dup, .invokeStatic] → g.stack = f.stack)

namespace Effect.FaultsFit
variable {f : Frame} {heap' : Heap}

theorem ofStay (g : Frame) : FaultsFit p limits depth heap localCount f i (.stay g heap') := by
  intro _ _ _ h
  cases h

theorem ofCall (caller callee : Frame) : FaultsFit p limits depth heap localCount f i (.call caller callee heap') := by
  intro _ _ _ h
  cases h

theorem ofGive (value : Int32) : FaultsFit p limits depth heap localCount f i (.give value heap') := by
  intro _ _ _ h
  cases h

theorem ofFault {stack : Stack Int32} (hkind : kind.Fits p limits depth heap localCount i)
    (hwhole : i.opcode ∈ [.pushConst, .loadLocal, .dup, .invokeStatic] → stack = f.stack) :
    FaultsFit p limits depth heap localCount f i (.fault kind { f with stack := stack } heap') := by
  rintro _ _ _ ⟨⟩
  exact ⟨hkind, hwhole⟩

theorem ofPush (hi : i.opcode ∈ [.pushConst, .loadLocal, .dup, .ret]) (value : Int32) :
    FaultsFit p limits depth heap localCount f i (Effect.push limits heap f value) := by
  unfold Effect.push Frame.push
  by_cases hroom : f.stack.height < limits.operandStack
  · simp only [hroom, if_true]
    exact ofStay _
  · simp only [hroom, if_false]
    exact ofFault ⟨hi, rfl⟩ fun _ => rfl

theorem ofUnderflow (hi : i.opcode ∉ [.pushConst, .loadLocal, .jump, .dup, .invokeStatic]) :
    FaultsFit p limits depth heap localCount f i (Effect.underflow heap f) := by
  simp only [List.mem_cons, not_or] at hi
  exact ofFault (by simp [FaultKind.Fits, hi]) (by simp [hi])

theorem ofReplace (hi : i.opcode ∉ [.pushConst, .loadLocal, .dup, .invokeStatic]) (rest : Stack Int32)
    {result : Except FaultKind Int32}
    (hresult : ∀ kind, result = .error kind → kind.Fits p limits depth heap localCount i) :
    FaultsFit p limits depth heap localCount f i (Effect.replace heap f rest result) := by
  cases result with
  | ok value => exact ofStay _
  | error kind => exact ofFault (hresult kind rfl) fun hmem => absurd hmem hi

theorem ofInvoke {name : String} {argc : UInt16} (hdepth : depth ≤ limits.callDepth) :
    FaultsFit p limits depth heap localCount f (.invokeStatic name argc) (Effect.invoke p limits depth heap f name argc) := by
  unfold Effect.invoke
  cases hc : p.callee limits depth name argc.toNat with
  | error kind =>
    have hrefused := Program.callee_eq_error hdepth hc
    refine ofFault ?_ fun _ => rfl
    cases kind with
    | unknownMethod unknown => exact ⟨name, argc, rfl, hrefused⟩
    | arityMismatch method expected found => exact ⟨name, argc, rfl, hrefused⟩
    | stackOverflow limit => exact ⟨name, argc, rfl, hrefused⟩
    | _ => exact hrefused.elim
  | ok entered =>
    simp only [Frame.popArgs]
    by_cases hargs : argc.toNat ≤ f.stack.height
    · simp only [hargs, if_true]
      exact ofCall _ _
    · simp only [hargs, if_false]
      exact ofFault (by simp [FaultKind.Fits, Instruction.opcode]) fun _ => rfl

end Effect.FaultsFit

theorem Effect.ofInstruction_faultsFit (p : Program) (hdepth : depth ≤ limits.callDepth) (heap : Heap) {f : Frame}
    (hslots : f.locals.size = localCount.toNat) (i : Instruction) :
    FaultsFit p limits depth heap localCount f i (ofInstruction p limits depth heap f i) := by
  cases i with
  | pushConst value => exact .ofPush List.mem_cons_self value
  | loadLocal slot =>
    simp only [ofInstruction, Frame.load]
    cases hslot : f.locals.get? slot.toNat with
    | some value => exact .ofPush (by simp [Instruction.opcode]) value
    | none =>
      simp only [Frame.invalidSlot_eq hslots]
      refine .ofFault ⟨Or.inl rfl, rfl, UInt16.not_lt.mp fun hlt => ?_⟩ fun _ => rfl
      have hsome := CellArray.isSome_get?_iff.mpr (hslots ▸ UInt16.lt_iff_toNat_lt.mp hlt)
      rw [hslot] at hsome
      cases hsome
  | storeLocal slot =>
    simp only [ofInstruction]
    cases f.stack.pop? with
    | none => exact .ofUnderflow (by simp [Instruction.opcode])
    | some popped =>
      by_cases hslot : f.hasSlot slot
      · simp only [hslot, if_true]
        exact .ofStay _
      · simp only [hslot, if_false, Frame.invalidSlot_eq hslots]
        rw [Frame.hasSlot, hslots, ← UInt16.lt_iff_toNat_lt] at hslot
        exact .ofFault ⟨Or.inr rfl, rfl, UInt16.not_lt.mp hslot⟩ (by simp [Instruction.opcode])
  | dup =>
    simp only [ofInstruction]
    cases hp : f.stack.pop? with
    -- There is nothing that a copy could be taken of, and nothing to lose.
    | none => exact .ofFault (by simp [FaultKind.Fits, Instruction.opcode]) fun _ => (Stack.pop?_eq_none_iff.mp hp).symm
    | some popped => exact .ofPush (by simp [Instruction.opcode]) popped.1
  | pop =>
    simp only [ofInstruction]
    cases f.stack.pop? with
    | none => exact .ofUnderflow (by simp [Instruction.opcode])
    | some popped => exact .ofStay _
  | arith op =>
    simp only [ofInstruction]
    cases f.stack.pop2? with
    | none => exact .ofUnderflow (by simp [Instruction.opcode])
    | some popped => exact .ofReplace (by simp [Instruction.opcode]) _ fun _ => Arith.apply_eq_error
  | neg =>
    simp only [ofInstruction]
    cases f.stack.pop? with
    | none => exact .ofUnderflow (by simp [Instruction.opcode])
    | some popped => exact .ofStay _
  | compare op =>
    simp only [ofInstruction]
    cases f.stack.pop2? with
    | none => exact .ofUnderflow (by simp [Instruction.opcode])
    | some popped => exact .ofStay _
  | jump target => exact .ofStay _
  | jumpIfFalse target =>
    simp only [ofInstruction]
    cases f.stack.pop? with
    | none => exact .ofUnderflow (by simp [Instruction.opcode])
    | some popped =>
      by_cases hz : popped.1 = 0
      · simp only [hz, if_true]
        exact .ofStay _
      · simp only [hz, if_false]
        exact .ofStay _
  | newArray =>
    simp only [ofInstruction]
    cases f.stack.pop? with
    | none => exact .ofUnderflow (by simp [Instruction.opcode])
    | some popped =>
      simp only
      cases hr : heap.request limits.heapCells popped.1 with
      | ok size => exact .ofStay _
      | error kind => exact .ofFault (Heap.request_eq_error hr) (by simp [Instruction.opcode])
  | arrayLoad =>
    simp only [ofInstruction]
    cases f.stack.pop2? with
    | none => exact .ofUnderflow (by simp [Instruction.opcode])
    | some popped => exact .ofReplace (by simp [Instruction.opcode]) _ fun _ => Heap.load_eq_error
  | arrayStore =>
    simp only [ofInstruction]
    cases f.stack.pop3? with
    | none => exact .ofUnderflow (by simp [Instruction.opcode])
    | some popped =>
      simp only
      cases hl : heap.locate popped.2.2.1 popped.2.1 with
      | ok place => exact .ofStay _
      | error kind => exact .ofFault (Heap.locate_eq_error (Or.inr rfl) hl) (by simp [Instruction.opcode])
  | arrayLength =>
    simp only [ofInstruction]
    cases f.stack.pop? with
    | none => exact .ofUnderflow (by simp [Instruction.opcode])
    | some popped => exact .ofReplace (by simp [Instruction.opcode]) _ fun _ => Heap.length_eq_error
  | invokeStatic name argc => exact .ofInvoke hdepth
  | ret =>
    simp only [ofInstruction]
    cases f.stack.pop? with
    | none => exact .ofUnderflow (by simp [Instruction.opcode])
    | some popped => exact .ofGive _

/-- A return that faults itself has no value; one without room for its value in the caller ends its frame first. -/
theorem Effect.ofInstruction_ret_eq_fault {f g : Frame} {heap' : Heap}
    (h : ofInstruction p limits depth heap f .ret = .fault kind g heap') : kind = .stackUnderflow := by
  simp only [ofInstruction] at h
  cases hp : f.stack.pop? with
  | none =>
    rw [hp] at h
    cases h
    rfl
  | some popped =>
    rw [hp] at h
    cases h

end

/-! ### Steps that fault -/

namespace Session
variable {p : Program} {limits : Limits} {s : Session} {fault : Fault}

theorem give_faulted {callers : Stack Frame} {heap : Heap} {steps pc : Nat} {name : String} {value : Int32}
    (h : (give limits callers heap steps name pc value).status = .faulted fault) :
    give limits callers heap steps name pc value = ⟨callers, heap, steps, .faulted fault⟩ ∧
      fault = ⟨.operandStackOverflow limits.operandStack, some ⟨name, pc⟩⟩ := by
  rcases callers.eq_empty_or_eq_push with rfl | ⟨rest, caller, rfl⟩
  · cases h
  · rw [give_push] at h ⊢
    split at h
    · cases h
    · rename_i hroom
      cases h
      rw [if_neg hroom]
      exact ⟨rfl, rfl⟩

/-- A step that faults has executed an instruction of the active frame. Either that frame is still there, without some
values of its stack perhaps, or it has returned to a caller without room. -/
theorem Bounded.step_faulted (h : s.Bounded p limits) (hrun : s.status = .running)
    (hfault : (s.step p limits).status = .faulted fault) :
    ∃ (f : Frame) (callers : Stack Frame) (m : Method) (i : Instruction), s.frames = callers.push f ∧
      f.Fits p limits m ∧ p.fetch? f = some (m, i) ∧ m.code[f.pc]? = some i ∧
      fault.location = some ⟨m.name, f.pc⟩ ∧ (s.step p limits).heap = s.heap ∧
      ((i = .ret ∧ fault.kind = .operandStackOverflow limits.operandStack ∧ (s.step p limits).frames = callers) ∨
        ((i = .ret → fault.kind = .stackUnderflow) ∧
          fault.kind.Fits p limits s.frames.height s.heap m.localCount i ∧
          ∃ stack, (s.step p limits).frames = callers.push { f with stack := stack } ∧
            stack.toList <:+ f.stack.toList ∧
            (i.opcode ∈ [.pushConst, .loadLocal, .dup, .invokeStatic] → stack = f.stack))) := by
  obtain ⟨f, callers, m, i, hf, hm, hi, hcode⟩ := h.active hrun
  have hdepth : callers.height + 1 ≤ limits.callDepth := by
    have := h.depth
    rwa [hf] at this
  refine ⟨f, callers, m, i, hf, hm, hi, hcode, ?_⟩
  rw [step_eq_apply hrun hf hi] at hfault ⊢
  have hfit := Effect.ofInstruction_faultsFit p hdepth s.heap hm.slots i
  have hmoves := Effect.ofInstruction_moves p limits (callers.height + 1) s.heap f i
  cases he : Effect.ofInstruction p limits (callers.height + 1) s.heap f i with
  | stay g heap =>
    rw [he] at hfault
    cases hfault
  | call caller callee heap =>
    rw [he] at hfault
    cases hfault
  | give value heap =>
    rw [he] at hfault hmoves
    cases hmoves with
    | give hret hstack =>
      -- The frame has ended by now, and its caller has no room for the value.
      obtain ⟨hgive, rfl⟩ := give_faulted hfault
      rw [apply, hgive]
      exact ⟨rfl, rfl, Or.inl ⟨hret, rfl, rfl⟩⟩
  | fault kind g heap =>
    obtain ⟨hkind, hwhole⟩ := hfit kind g heap he
    rw [he] at hfault hmoves
    cases hfault
    cases hmoves with
    | fault hs =>
      refine ⟨rfl, rfl, Or.inr ⟨?_, ?_, _, rfl, hs, hwhole⟩⟩
      · rintro rfl
        exact Effect.ofInstruction_ret_eq_fault he
      · rw [hf]
        exact hkind

/-- What a faulting instruction may change. The step is that of the operations of the instruction, one after another. -/
theorem step_faulted_changes (hs : s.Reachable p limits) (hrun : s.status = .running)
    (hfault : (s.step p limits).status = .faulted fault) :
    ∃ (f : Frame) (callers : Stack Frame) (m : Method) (i : Instruction), s.frames = callers.push f ∧
      p.fetch? f = some (m, i) ∧
      s.step p limits = apply limits callers (s.steps + 1) m.name f.pc
        (Operation.effect (Operation.ofInstruction p limits s.frames.height i) f s.heap) ∧
      fault.location = some ⟨m.name, f.pc⟩ ∧ (s.step p limits).heap = s.heap ∧
      (s.step p limits).steps = s.steps + 1 ∧
      (i = .ret ∧ fault.kind.toClass = .operandStackOverflow → (s.step p limits).frames = callers) ∧
      (¬(i = .ret ∧ fault.kind.toClass = .operandStackOverflow) →
        ∃ stack, (s.step p limits).frames = callers.push { f with stack := stack } ∧
          stack.toList <:+ f.stack.toList ∧
          (i.opcode ∈ [.pushConst, .loadLocal, .dup, .invokeStatic] → stack = f.stack)) := by
  obtain ⟨f, callers, m, i, hf, hm, hi, -, hlocation, hheap, hcases⟩ := hs.bounded.step_faulted hrun hfault
  have hstep : s.step p limits = _ := step_eq_operations hrun hf hm.height hi
  refine ⟨f, callers, m, i, hf, hi, hstep, hlocation, hheap, ?_, ?_⟩
  · rw [hstep, steps_apply]
  · rcases hcases with ⟨hret, hkind, hframes⟩ | ⟨hunderflow, -, hstack⟩
    · exact ⟨fun _ => hframes, fun hnot => absurd ⟨hret, by rw [hkind]; rfl⟩ hnot⟩
    · refine ⟨fun ⟨hret, hclass⟩ => ?_, fun _ => hstack⟩
      rw [hunderflow hret] at hclass
      cases hclass

/-- The doubling program with one frame: its first call faults, and leaves the argument on the stack. -/
theorem step_faulted_doubling :
    (after .doubling ⟨1, 2, 0⟩ "main" [] 1).Reachable .doubling ⟨1, 2, 0⟩ ∧
      ((after .doubling ⟨1, 2, 0⟩ "main" [] 1).step .doubling ⟨1, 2, 0⟩).status =
        .faulted ⟨.stackOverflow 1, some ⟨"main", 1⟩⟩ ∧
      ((after .doubling ⟨1, 2, 0⟩ "main" [] 1).step .doubling ⟨1, 2, 0⟩).heap =
        (after .doubling ⟨1, 2, 0⟩ "main" [] 1).heap := by
  have hs : (after .doubling ⟨1, 2, 0⟩ "main" [] 1).Reachable .doubling ⟨1, 2, 0⟩ := ⟨"main", [], 1, rfl⟩
  have hfault : ((after .doubling ⟨1, 2, 0⟩ "main" [] 1).step .doubling ⟨1, 2, 0⟩).status =
      .faulted ⟨.stackOverflow 1, some ⟨"main", 1⟩⟩ := by decide +kernel
  obtain ⟨_, _, _, _, _, _, _, _, hheap, _⟩ := step_faulted_changes hs (by decide +kernel) hfault
  exact ⟨hs, hfault, hheap⟩

/-! ### Runs that end in a fault -/

/-- The operations of instruction `i`, which is at `pc` in method `m`, make session `t` of a running session. -/
def Executes (p : Program) (limits : Limits) (m : Method) (i : Instruction) (pc : Nat) (s t : Session) : Prop :=
  ∃ (f : Frame) (callers : Stack Frame), s.status = .running ∧ s.frames = callers.push f ∧ f.pc = pc ∧
    p.fetch? f = some (m, i) ∧ t = apply limits callers (s.steps + 1) m.name pc
      (Operation.effect (Operation.ofInstruction p limits s.frames.height i) f s.heap)

/-- A fault of this session of an entry method has its reason: the entry call, or the instruction where it is, which
the session has executed operation by operation. -/
def Explained (p : Program) (limits : Limits) (entry : String) (args : List Int32) (s : Session) : Prop :=
  ∀ fault, s.status = .faulted fault →
    (fault.location = none → s = start p limits entry args ∧ fault.kind.RefusesCall p limits 0 entry args.length) ∧
    ∀ l, fault.location = some l → ∃ m i, p.get? l.method = some m ∧ m.code[l.pc]? = some i ∧
      fault.kind.Fits p limits s.frames.height s.heap m.localCount i ∧
      ∃ k, (after p limits entry args k).Executes p limits m i l.pc s

variable {entry : String} {args : List Int32}

theorem explained_start : (start p limits entry args).Explained p limits entry args := by
  intro fault hfault
  cases hc : p.callee limits 0 entry args.length with
  | ok entered =>
    simp only [start, hc] at hfault
    cases hfault
  | error kind =>
    simp only [start, hc] at hfault
    cases hfault
    refine ⟨fun _ => ⟨rfl, Program.callee_eq_error (Nat.zero_le _) hc⟩, ?_⟩
    rintro l ⟨⟩

theorem Explained.step {k : Nat} (h : (after p limits entry args k).Explained p limits entry args) :
    ((after p limits entry args k).step p limits).Explained p limits entry args := by
  by_cases hrun : (after p limits entry args k).status = .running
  · intro fault hfault
    obtain ⟨f, callers, m, i, hf, hm, hi, hcode, hlocation, hheap, hcases⟩ :=
      (bounded_after entry args k).step_faulted hrun hfault
    rw [hlocation, hheap]
    refine ⟨fun hnone => absurd hnone (Option.some_ne_none _), ?_⟩
    rintro l ⟨⟩
    refine ⟨m, i, p.get?_name hm.method, hcode, ?_, k, f, callers, hrun, hf, rfl, hi, step_eq_operations hrun hf hm.height hi⟩
    rcases hcases with ⟨rfl, hkind, -⟩ | ⟨-, hfits, stack, hframes, -, -⟩
    · rw [hkind]
      exact ⟨by decide, rfl⟩
    · -- The active frame is still there, so the depth is that of the call.
      rw [hframes]
      rwa [hf] at hfits
  · rw [step_of_halted (Status.isHalted_of_ne_running hrun)]
    exact h

theorem explained_after (n : Nat) : (after p limits entry args n).Explained p limits entry args := by
  induction n with
  | zero => exact explained_start
  | succ n ih =>
    rw [after_succ]
    exact ih.step

/-- Every fault has its reason. A fault with a location was raised by an operation of the instruction there, in an
earlier state of the same session. -/
theorem after_faulted_explained {n : Nat} (h : (after p limits entry args n).status = .faulted fault) :
    (fault.location = none → after p limits entry args n = start p limits entry args ∧
      (after p limits entry args n).steps = 0 ∧ fault.kind.RefusesCall p limits 0 entry args.length) ∧
    ∀ l, fault.location = some l → ∃ m i, p.get? l.method = some m ∧ m.code[l.pc]? = some i ∧
      fault.kind.Fits p limits (after p limits entry args n).frames.height (after p limits entry args n).heap
        m.localCount i ∧
      ∃ k < n, (after p limits entry args k).Executes p limits m i l.pc (after p limits entry args n) := by
  obtain ⟨hentry, hinstruction⟩ := explained_after n fault h
  refine ⟨fun hnone => ?_, fun l hl => ?_⟩
  · obtain ⟨hstart, hrefused⟩ := hentry hnone
    exact ⟨hstart, by rw [hstart, steps_start], hrefused⟩
  · obtain ⟨m, i, hm, hi, hfits, k, hexecutes⟩ := hinstruction l hl
    refine ⟨m, i, hm, hi, hfits, k, Nat.lt_of_not_le fun hle => ?_, hexecutes⟩
    -- From the fault on nothing executes.
    obtain ⟨f, callers, hrun, -⟩ := hexecutes
    rw [after_eq_of_halted (by rw [h]; rfl) hle, h] at hrun
    cases hrun

/-- The call that faults in the doubling program names a method of one argument, at the greatest depth. -/
theorem after_faulted_doubling : (after .doubling ⟨1, 2, 0⟩ "main" [] 5).status =
      .faulted ⟨.stackOverflow 1, some ⟨"main", 1⟩⟩ ∧
    ∃ m i name argc, Program.doubling.get? "main" = some m ∧ m.code[1]? = some i ∧ i = .invokeStatic name argc ∧
      (FaultKind.stackOverflow 1).RefusesCall .doubling ⟨1, 2, 0⟩ 1 name argc.toNat := by
  have hfault : (after .doubling ⟨1, 2, 0⟩ "main" [] 5).status = .faulted ⟨.stackOverflow 1, some ⟨"main", 1⟩⟩ := by
    decide +kernel
  have hheight : (after .doubling ⟨1, 2, 0⟩ "main" [] 5).frames.height = 1 := by decide +kernel
  obtain ⟨m, i, hm, hi, ⟨name, argc, hcall, hrefused⟩, -⟩ := (after_faulted_explained hfault).2 _ rfl
  rw [hheight] at hrefused
  exact ⟨hfault, m, i, name, argc, hm, hi, hcall, hrefused⟩

end Session

end StackMachine
