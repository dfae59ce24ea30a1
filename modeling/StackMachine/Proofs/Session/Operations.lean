import StackMachine.Proofs.Session.Calls

/-! Instructions, operation by operation. An instruction pops its operands one at a time, asks the heap, and pushes its
result if there is room. Each of these operations may be the one that faults, and what was done before it stays. As long
as the stack of the frame is within its limit, the effect of an instruction is what its operations leave: a result takes
the place of an operand, so that there is room for it, also after the heap has changed. -/

namespace StackMachine

theorem Stack.eq_empty_of_height {α : Type} {s : Stack α} (h : s.height = 0) : s = empty :=
  ext (List.eq_nil_of_length_eq_zero (s.height_eq.symm.trans h))

/-- What comes after the operations of an instruction. -/
inductive Next where
  | goOn
  | enter (callee : Frame)
  | leave (value : Int32)

/-- Operations on the active frame and the heap. A fault keeps what they have done before it. -/
abbrev Operation (α : Type) := ExceptT FaultKind (StateM (Frame × Heap)) α

namespace Operation

section
variable {α β : Type}

/-- An operation on the frame. Where it faults, it does nothing. -/
def onFrame (g : Frame → Except FaultKind (α × Frame)) : Operation α :=
  ExceptT.mk fun s =>
    match g s.1 with
    | .ok (a, f) => (.ok a, f, s.2)
    | .error kind => (.error kind, s)

/-- An operation on the heap. Where it faults, it does nothing. -/
def onHeap (g : Heap → Except FaultKind (α × Heap)) : Operation α :=
  ExceptT.mk fun s =>
    match g s.2 with
    | .ok (a, heap) => (.ok a, s.1, heap)
    | .error kind => (.error kind, s)

/-- A result that depends on neither. -/
def ofExcept (x : Except FaultKind α) : Operation α :=
  ExceptT.mk fun s => (x, s)

/-- Takes the top value of the operand stack. -/
def pop : Operation Int32 :=
  onFrame Frame.pop

/-- Reads the top value of the operand stack. -/
def peek : Operation Int32 :=
  onFrame fun f => (·, f) <$> f.peek

/-- Pushes a value, if there is room. -/
def push (limits : Limits) (value : Int32) : Operation Unit :=
  onFrame fun f => ((), ·) <$> f.push limits.operandStack value

/-- Takes the top `count` values. -/
def popArgs (count : Nat) : Operation (List Int32) :=
  onFrame (Frame.popArgs count)

/-- Reads a local slot. -/
def loadLocal (slot : UInt16) : Operation Int32 :=
  onFrame fun f => (·, f) <$> f.load slot

/-- Sets a local slot. -/
def storeLocal (slot : UInt16) (value : Int32) : Operation Unit :=
  onFrame fun f => ((), ·) <$> f.store slot value

/-- Moves on to the next instruction. -/
def advance : Operation Next :=
  onFrame fun f => .ok (.goOn, f.next f.stack)

/-- Goes on at another instruction. -/
def jump (target : UInt32) : Operation Next :=
  onFrame fun f => .ok (.goOn, { f with pc := target.toNat })

/-- Makes a new array. -/
def allocate (limits : Limits) (length : Int32) : Operation Int32 :=
  onHeap (Heap.allocate limits.heapCells length)

/-- Reads an element of an array. -/
def load (reference index : Int32) : Operation Int32 :=
  onHeap fun heap => (·, heap) <$> heap.load reference index

/-- Sets an element of an array. -/
def store (reference index value : Int32) : Operation Unit :=
  onHeap fun heap => ((), ·) <$> heap.store reference index value

/-- Asks for the length of an array. -/
def length (reference : Int32) : Operation Int32 :=
  onHeap fun heap => (·, heap) <$> heap.length reference

/-- Pops the second operand, then the first, and pushes the result. -/
def binary (limits : Limits) (op : Int32 → Int32 → Except FaultKind Int32) : Operation Unit := do
  let b ← pop
  let a ← pop
  push limits (← ofExcept (op a b))

end

section
variable (p : Program) (limits : Limits) (depth : Nat)

/-- The operations of an instruction of the frame on top of `depth` frames, itself included. -/
def ofInstruction : Instruction → Operation Next
  | .pushConst value => do
    push limits value
    advance
  | .loadLocal slot => do
    push limits (← loadLocal slot)
    advance
  | .storeLocal slot => do
    storeLocal slot (← pop)
    advance
  | .dup => do
    push limits (← peek)
    advance
  | .pop => do
    let _ ← pop
    advance
  | .arith op => do
    binary limits op.apply
    advance
  | .neg => do
    push limits (-(← pop))
    advance
  | .compare op => do
    binary limits fun a b => .ok (op.apply a b)
    advance
  | .jump target => jump target
  | .jumpIfFalse target => do
    if (← pop) = 0 then jump target else advance
  | .newArray => do
    push limits (← allocate limits (← pop))
    advance
  | .arrayLoad => do
    let index ← pop
    let reference ← pop
    push limits (← load reference index)
    advance
  | .arrayStore => do
    let value ← pop
    let index ← pop
    let reference ← pop
    store reference index value
    advance
  | .arrayLength => do
    push limits (← length (← pop))
    advance
  | .invokeStatic name argc => do
    let callee ← ofExcept (p.callee limits depth name argc.toNat)
    let args ← popArgs argc.toNat
    let _ ← advance
    return .enter (.ofArgs callee.1 callee.2.localCount.toNat args)
  | .ret => do
    return .leave (← pop)

end

/-- What has become of the active frame. -/
def toEffect : Except FaultKind Next × Frame × Heap → Effect
  | (.ok .goOn, f, heap) => .stay f heap
  | (.ok (.enter callee), f, heap) => .call f callee heap
  | (.ok (.leave value), _, heap) => .give value heap
  | (.error kind, f, heap) => .fault kind f heap

/-- The effect of operations that start with this frame and this heap. -/
def effect (x : Operation Next) (f : Frame) (heap : Heap) : Effect :=
  toEffect (x.run (f, heap))

/-! ### Operations one after the other -/

section
variable {α : Type} {k : α → Operation Next} {f g : Frame} {heap heap' : Heap} {a : α} {kind : FaultKind}

theorem effect_bind_of_ok {x : Operation α} (hx : x.run (f, heap) = (.ok a, g, heap')) :
    effect (x >>= k) f heap = effect (k a) g heap' := by
  have hbind : (x >>= k).run (f, heap) = ExceptT.bindCont k (x.run (f, heap)).1 (x.run (f, heap)).2 := rfl
  rw [effect, hbind, hx]
  rfl

theorem effect_bind_of_error {x : Operation α} (hx : x.run (f, heap) = (.error kind, g, heap')) :
    effect (x >>= k) f heap = .fault kind g heap' := by
  have hbind : (x >>= k).run (f, heap) = ExceptT.bindCont k (x.run (f, heap)).1 (x.run (f, heap)).2 := rfl
  rw [effect, hbind, hx]
  rfl

theorem run_onFrame_of_ok {op : Frame → Except FaultKind (α × Frame)} (hop : op f = .ok (a, g)) (heap : Heap) :
    (onFrame op).run (f, heap) = (.ok a, g, heap) := by
  simp only [onFrame, ExceptT.run_mk, hop]

theorem run_onFrame_of_error {op : Frame → Except FaultKind (α × Frame)} (hop : op f = .error kind) (heap : Heap) :
    (onFrame op).run (f, heap) = (.error kind, f, heap) := by
  simp only [onFrame, ExceptT.run_mk, hop]

theorem run_onHeap_of_ok {op : Heap → Except FaultKind (α × Heap)} (hop : op heap = .ok (a, heap')) (f : Frame) :
    (onHeap op).run (f, heap) = (.ok a, f, heap') := by
  simp only [onHeap, ExceptT.run_mk, hop]

theorem run_onHeap_of_error {op : Heap → Except FaultKind (α × Heap)} (hop : op heap = .error kind) (f : Frame) :
    (onHeap op).run (f, heap) = (.error kind, f, heap) := by
  simp only [onHeap, ExceptT.run_mk, hop]

end

section
variable {k : Int32 → Operation Next} {k₂ : Int32 → Int32 → Operation Next}
  {k₃ : Int32 → Int32 → Int32 → Operation Next} {f : Frame} {heap : Heap} {rest : Stack Int32} {a b c : Int32}

theorem effect_pop (hs : f.stack = rest.push a) :
    effect (pop >>= k) f heap = effect (k a) { f with stack := rest } heap := by
  refine effect_bind_of_ok (run_onFrame_of_ok ?_ heap)
  rw [Frame.pop, Stack.pop?_eq_some_iff.mpr hs]

theorem effect_pop_of_empty (hs : f.stack = .empty) : effect (pop >>= k) f heap = .underflow heap f := by
  have hf : { f with stack := .empty } = f := by rw [← hs]
  rw [Effect.underflow, hf]
  refine effect_bind_of_error (run_onFrame_of_error ?_ heap)
  rw [Frame.pop, Stack.pop?_eq_none_iff.mpr hs]

theorem effect_pop2 (hs : f.stack = (rest.push a).push b) :
    effect (pop >>= fun b => pop >>= fun a => k₂ a b) f heap = effect (k₂ a b) { f with stack := rest } heap := by
  rw [effect_pop hs]
  exact effect_pop rfl

/-- Operands that are there are popped before the lack of another one shows. -/
theorem effect_pop2_of_none (hs : f.stack.pop2? = none) :
    effect (pop >>= fun b => pop >>= fun a => k₂ a b) f heap = .underflow heap f := by
  rw [Stack.pop2?_eq_none_iff] at hs
  rcases f.stack.eq_empty_or_eq_push with hempty | ⟨rest, b, hb⟩
  · exact effect_pop_of_empty hempty
  · rw [effect_pop hb]
    rw [hb, Stack.height_push] at hs
    have hrest : rest = .empty := Stack.eq_empty_of_height (by omega)
    exact effect_pop_of_empty hrest

theorem effect_pop3 (hs : f.stack = ((rest.push a).push b).push c) :
    effect (pop >>= fun c => pop >>= fun b => pop >>= fun a => k₃ a b c) f heap =
      effect (k₃ a b c) { f with stack := rest } heap := by
  rw [effect_pop hs]
  exact effect_pop2 rfl

theorem effect_pop3_of_none (hs : f.stack.pop3? = none) :
    effect (pop >>= fun c => pop >>= fun b => pop >>= fun a => k₃ a b c) f heap = .underflow heap f := by
  rw [Stack.pop3?_eq_none_iff] at hs
  rcases f.stack.eq_empty_or_eq_push with hempty | ⟨rest, c, hc⟩
  · exact effect_pop_of_empty hempty
  · rw [effect_pop hc]
    rw [hc, Stack.height_push] at hs
    have hrest : rest.pop2? = none := Stack.pop2?_eq_none_iff.mpr (by omega)
    exact effect_pop2_of_none hrest

end

/-! ### Results and their room -/

section
variable {limits : Limits} {f : Frame} {heap : Heap} {rest : Stack Int32}

theorem effect_push (value : Int32) :
    effect (push limits value >>= fun _ => advance) f heap = .push limits heap f value := by
  unfold Effect.push
  cases hpush : f.push limits.operandStack value with
  | ok g => exact effect_bind_of_ok (run_onFrame_of_ok (by rw [hpush]; rfl) heap)
  | error kind => exact effect_bind_of_error (run_onFrame_of_error (by rw [hpush]; rfl) heap)

/-- There is room for a result where an operand was. -/
theorem effect_push_of_room (hroom : rest.height < limits.operandStack) (value : Int32) :
    effect (push limits value >>= fun _ => advance) { f with stack := rest } heap =
      .stay (f.next (rest.push value)) heap := by
  rw [effect_push, Effect.push, Frame.push, if_pos hroom]
  rfl

theorem effect_ofExcept_push (hroom : rest.height < limits.operandStack) (result : Except FaultKind Int32) :
    effect (ofExcept result >>= fun value => push limits value >>= fun _ => advance) { f with stack := rest } heap =
      .replace heap f rest result := by
  cases result with
  | ok value => exact (effect_bind_of_ok rfl).trans (effect_push_of_room hroom value)
  | error kind => exact effect_bind_of_error rfl

/-- To read from the heap is to use what it holds. -/
theorem effect_onHeap_read (read : Heap → Except FaultKind Int32) (k : Int32 → Operation Next) :
    effect (onHeap (fun heap => (·, heap) <$> read heap) >>= k) f heap =
      effect (ofExcept (read heap) >>= k) f heap := by
  cases hread : read heap with
  | ok value => exact effect_bind_of_ok (run_onHeap_of_ok (by rw [hread]; rfl) f)
  | error kind => exact effect_bind_of_error (run_onHeap_of_error (by rw [hread]; rfl) f)

theorem effect_binary (hroom : f.stack.height ≤ limits.operandStack) {a b : Int32} (hs : f.stack = (rest.push a).push b)
    (op : Int32 → Int32 → Except FaultKind Int32) :
    effect (binary limits op >>= fun _ => advance) f heap = .replace heap f rest (op a b) := by
  have hrest : rest.height < limits.operandStack := by
    rw [hs, Stack.height_push, Stack.height_push] at hroom
    omega
  simp only [binary, bind_assoc]
  rw [effect_pop2 hs]
  exact effect_ofExcept_push hrest (op a b)

theorem effect_binary_of_none (hs : f.stack.pop2? = none) (op : Int32 → Int32 → Except FaultKind Int32) :
    effect (binary limits op >>= fun _ => advance) f heap = .underflow heap f := by
  simp only [binary, bind_assoc]
  exact effect_pop2_of_none hs

end

/-- The effect of an instruction is what its operations leave, one after the other, as long as the stack of the frame is
within its limit. -/
theorem effect_ofInstruction (p : Program) {limits : Limits} {f : Frame} (hroom : f.stack.height ≤ limits.operandStack)
    (depth : Nat) (heap : Heap) (i : Instruction) :
    effect (ofInstruction p limits depth i) f heap = Effect.ofInstruction p limits depth heap f i := by
  cases i with
  | pushConst value => exact effect_push value
  | loadLocal slot =>
    simp only [ofInstruction, Effect.ofInstruction]
    cases hl : f.load slot with
    | ok value =>
      exact (effect_bind_of_ok (run_onFrame_of_ok (by rw [hl]; rfl) heap)).trans (effect_push value)
    | error kind => exact effect_bind_of_error (run_onFrame_of_error (by rw [hl]; rfl) heap)
  | storeLocal slot =>
    simp only [ofInstruction, Effect.ofInstruction]
    cases hp : f.stack.pop? with
    | none => exact effect_pop_of_empty (Stack.pop?_eq_none_iff.mp hp)
    | some popped =>
      rw [effect_pop (Stack.pop?_eq_some_iff.mp hp)]
      by_cases hslot : f.hasSlot slot
      · have hstore : Frame.store slot popped.1 { f with stack := popped.2 } =
            .ok (Frame.setLocal slot popped.1 { f with stack := popped.2 }) := if_pos hslot
        simp only [hslot, if_true]
        exact (effect_bind_of_ok (run_onFrame_of_ok (by rw [hstore]; rfl) heap)).trans rfl
      · have hstore : Frame.store slot popped.1 { f with stack := popped.2 } = .error (f.invalidSlot slot) :=
          if_neg hslot
        simp only [hslot, if_false]
        exact effect_bind_of_error (run_onFrame_of_error (by rw [hstore]; rfl) heap)
  | dup =>
    simp only [ofInstruction, Effect.ofInstruction]
    cases hp : f.stack.pop? with
    | none =>
      have hf : { f with stack := .empty } = f := by rw [← Stack.pop?_eq_none_iff.mp hp]
      rw [Effect.underflow, hf]
      exact effect_bind_of_error (run_onFrame_of_error (by rw [Frame.peek, hp]; rfl) heap)
    | some popped =>
      exact (effect_bind_of_ok (run_onFrame_of_ok (by rw [Frame.peek, hp]; rfl) heap)).trans (effect_push popped.1)
  | pop =>
    simp only [ofInstruction, Effect.ofInstruction]
    cases hp : f.stack.pop? with
    | none => exact effect_pop_of_empty (Stack.pop?_eq_none_iff.mp hp)
    | some popped => exact effect_pop (Stack.pop?_eq_some_iff.mp hp)
  | arith op =>
    simp only [ofInstruction, Effect.ofInstruction]
    cases hp : f.stack.pop2? with
    | none => exact effect_binary_of_none hp _
    | some popped => exact effect_binary hroom (Stack.pop2?_eq_some_iff.mp hp) _
  | neg =>
    simp only [ofInstruction, Effect.ofInstruction]
    cases hp : f.stack.pop? with
    | none => exact effect_pop_of_empty (Stack.pop?_eq_none_iff.mp hp)
    | some popped =>
      rw [effect_pop (Stack.pop?_eq_some_iff.mp hp)]
      exact effect_push_of_room (Nat.lt_of_lt_of_le (Stack.below_pop? hp).2 hroom) _
  | compare op =>
    simp only [ofInstruction, Effect.ofInstruction]
    cases hp : f.stack.pop2? with
    | none => exact effect_binary_of_none hp _
    | some popped => exact effect_binary hroom (Stack.pop2?_eq_some_iff.mp hp) _
  | jump target => rfl
  | jumpIfFalse target =>
    simp only [ofInstruction, Effect.ofInstruction]
    cases hp : f.stack.pop? with
    | none => exact effect_pop_of_empty (Stack.pop?_eq_none_iff.mp hp)
    | some popped =>
      rw [effect_pop (Stack.pop?_eq_some_iff.mp hp)]
      by_cases hz : popped.1 = 0
      · simp only [hz, if_true]
        rfl
      · simp only [hz, if_false]
        rfl
  | newArray =>
    simp only [ofInstruction, Effect.ofInstruction]
    cases hp : f.stack.pop? with
    | none => exact effect_pop_of_empty (Stack.pop?_eq_none_iff.mp hp)
    | some popped =>
      rw [effect_pop (Stack.pop?_eq_some_iff.mp hp)]
      simp only
      cases hreq : heap.request limits.heapCells popped.1 with
      | ok size =>
        -- The heap has grown by now; the push that follows cannot fault.
        refine (effect_bind_of_ok (run_onHeap_of_ok (by rw [Heap.allocate, hreq]; rfl) _)).trans ?_
        exact effect_push_of_room (Nat.lt_of_lt_of_le (Stack.below_pop? hp).2 hroom) _
      | error kind => exact effect_bind_of_error (run_onHeap_of_error (by rw [Heap.allocate, hreq]; rfl) _)
  | arrayLoad =>
    simp only [ofInstruction, Effect.ofInstruction]
    cases hp : f.stack.pop2? with
    | none => exact effect_pop2_of_none hp
    | some popped =>
      rw [effect_pop2 (Stack.pop2?_eq_some_iff.mp hp)]
      refine (effect_onHeap_read _ _).trans (effect_ofExcept_push ?_ _)
      exact Nat.lt_of_lt_of_le (Stack.below_pop2? hp).2 hroom
  | arrayStore =>
    simp only [ofInstruction, Effect.ofInstruction]
    cases hp : f.stack.pop3? with
    | none => exact effect_pop3_of_none hp
    | some popped =>
      rw [effect_pop3 (Stack.pop3?_eq_some_iff.mp hp)]
      simp only
      cases hl : heap.locate popped.2.2.1 popped.2.1 with
      | ok place => exact effect_bind_of_ok (run_onHeap_of_ok (by rw [Heap.store, hl]; rfl) _)
      | error kind => exact effect_bind_of_error (run_onHeap_of_error (by rw [Heap.store, hl]; rfl) _)
  | arrayLength =>
    simp only [ofInstruction, Effect.ofInstruction]
    cases hp : f.stack.pop? with
    | none => exact effect_pop_of_empty (Stack.pop?_eq_none_iff.mp hp)
    | some popped =>
      rw [effect_pop (Stack.pop?_eq_some_iff.mp hp)]
      refine (effect_onHeap_read _ _).trans (effect_ofExcept_push ?_ _)
      exact Nat.lt_of_lt_of_le (Stack.below_pop? hp).2 hroom
  | invokeStatic name argc =>
    simp only [ofInstruction, Effect.ofInstruction, Effect.invoke]
    cases hc : p.callee limits depth name argc.toNat with
    | error kind => exact effect_bind_of_error rfl
    | ok callee =>
      refine (effect_bind_of_ok rfl).trans ?_
      simp only
      cases hargs : f.popArgs argc.toNat with
      | error kind => exact effect_bind_of_error (run_onFrame_of_error hargs heap)
      | ok popped => exact effect_bind_of_ok (run_onFrame_of_ok hargs heap)
  | ret =>
    simp only [ofInstruction, Effect.ofInstruction]
    cases hp : f.stack.pop? with
    | none => exact effect_pop_of_empty (Stack.pop?_eq_none_iff.mp hp)
    | some popped => exact effect_pop (Stack.pop?_eq_some_iff.mp hp)

end Operation

/-- The step of a running session is that of the operations of the instruction, one after another. -/
theorem Session.step_eq_operations {p : Program} {limits : Limits} {s : Session} {f : Frame} {callers : Stack Frame}
    {m : Method} {i : Instruction} (hrun : s.status = .running) (hf : s.frames = callers.push f)
    (hroom : f.stack.height ≤ limits.operandStack) (hi : p.fetch? f = some (m, i)) :
    s.step p limits = apply limits callers (s.steps + 1) m.name f.pc
      (Operation.effect (Operation.ofInstruction p limits s.frames.height i) f s.heap) := by
  rw [step_eq_apply hrun hf hi, hf, Operation.effect_ofInstruction p hroom]
  rfl

end StackMachine
