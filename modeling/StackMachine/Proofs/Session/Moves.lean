import StackMachine.Proofs.Heap.Contents
import StackMachine.Proofs.NameIndex
import StackMachine.Session.Effect

/-! What an instruction can do to the frame that executes it. `Effect.Moves` says it once for all instructions:
the frame goes on in its method, or waits for a callee, or ends with a value, or stops at a fault. Only a frame that
goes on may leave another heap: with one array more, or with one cell set. -/

namespace StackMachine

/-! ### Calls -/

/-- A call is entered only for a method of that name and arity, with a frame to spare. -/
theorem Program.callee_eq_ok {p : Program} {limits : Limits} {depth : Nat} {name : String} {argc index : Nat}
    {m : Method} (h : p.callee limits depth name argc = .ok (index, m)) :
    p.methods[index]? = some m ∧ m.name = name ∧ m.arity.toNat = argc ∧ depth < limits.callDepth := by
  unfold callee at h
  split at h
  · cases h
  · rename_i i hi
    obtain ⟨hmethod, hname⟩ := find?_eq_some hi
    dsimp only at h
    by_cases hargc : argc = (p.method i).arity.toNat
    · by_cases hdepth : limits.callDepth ≤ depth
      · rw [if_neg (not_not_intro hargc), if_pos hdepth] at h
        cases h
      · rw [if_neg (not_not_intro hargc), if_neg hdepth] at h
        cases h
        exact ⟨hmethod, hname, hargc.symm, Nat.lt_of_not_le hdepth⟩
    · rw [if_pos hargc] at h
      cases h

theorem Frame.popArgs_eq_ok {f g : Frame} {count : Nat} {args : List Int32} (h : f.popArgs count = .ok (args, g)) :
    count ≤ f.stack.height ∧ args = (f.stack.toList.take count).reverse ∧ args.length = count ∧
      g = { f with stack := f.stack.drop count } := by
  unfold popArgs at h
  split at h
  · rename_i hle
    cases h
    refine ⟨hle, rfl, ?_, rfl⟩
    rw [f.stack.height_eq] at hle
    simp [hle]
  · cases h

theorem Program.callee_slots {p : Program} {limits : Limits} {depth : Nat} {name : String} {args : List Int32}
    {index : Nat} {m : Method} (h : p.callee limits depth name args.length = .ok (index, m)) :
    args.length ≤ m.localCount.toNat := by
  obtain ⟨-, -, harity, -⟩ := callee_eq_ok h
  exact harity ▸ m.arity_le_localCount

@[simp] theorem CellArray.size_ofList (size : Nat) (values : List Int32) : (ofList size values).size = size := by
  have h : ∀ (l : List (Int32 × Nat)) (a : CellArray),
      (l.foldl (fun a x => a.set x.2 x.1) a).size = a.size := by
    intro l
    induction l with
    | nil => exact fun _ => rfl
    | cons x l ih => exact fun a => ih (a.set x.2 x.1)
  exact h _ _

/-! ### Stacks below their top -/

namespace Stack
variable {α : Type} {s rest : Stack α}

theorem below_pop? {a : α} (h : s.pop? = some (a, rest)) : rest.toList <:+ s.toList ∧ rest.height < s.height := by
  rw [pop?_eq_some_iff.mp h]
  exact ⟨List.suffix_cons _ _, Nat.lt_succ_self _⟩

theorem below_pop2? {b a : α} (h : s.pop2? = some (b, a, rest)) :
    rest.toList <:+ s.toList ∧ rest.height < s.height := by
  rw [pop2?_eq_some_iff.mp h]
  exact ⟨List.suffix_append [b, a] _, by simp only [height_push]; omega⟩

theorem below_pop3? {c b a : α} (h : s.pop3? = some (c, b, a, rest)) :
    rest.toList <:+ s.toList ∧ rest.height < s.height := by
  rw [pop3?_eq_some_iff.mp h]
  exact ⟨List.suffix_append [c, b, a] _, by simp only [height_push]; omega⟩

end Stack

/-! ### Frames that go on -/

/-- Frame `g` is `f` after instruction `i`: in the same method and with as many slots, either at the next
instruction or at the target of a branch, and with a stack that is still within its limit. -/
structure Frame.Continues (limits : Limits) (i : Instruction) (f g : Frame) : Prop where
  method : g.method = f.method
  slots : g.locals.size = f.locals.size
  height : f.stack.height ≤ limits.operandStack → g.stack.height ≤ limits.operandStack
  pc : (g.pc = f.pc + 1 ∧ i.opcode.isTerminator = false) ∨ ∃ t, i.target? = some t ∧ g.pc = t.toNat

namespace Frame.Continues
variable {limits : Limits} {i : Instruction} {f : Frame}

theorem next (hi : i.opcode.isTerminator = false) {stack : Stack Int32} (h : stack.height ≤ f.stack.height) :
    Continues limits i f (f.next stack) :=
  ⟨rfl, rfl, fun hf => Nat.le_trans h hf, Or.inl ⟨rfl, hi⟩⟩

theorem branch {t : UInt32} (hi : i.target? = some t) {stack : Stack Int32} (h : stack.height ≤ f.stack.height) :
    Continues limits i f { f with pc := t.toNat, stack := stack } :=
  ⟨rfl, rfl, fun hf => Nat.le_trans h hf, Or.inr ⟨t, hi, rfl⟩⟩

end Frame.Continues

namespace Effect

/-- What the instruction `i` of frame `f`, on top of `depth` frames with itself, can do. -/
inductive Moves (p : Program) (limits : Limits) (depth : Nat) (heap : Heap) (f : Frame) (i : Instruction) :
    Effect → Prop
  /-- The frame goes on. -/
  | stay {g : Frame} {heap' : Heap} : f.Continues limits i g → heap.Changes limits heap' →
    Moves p limits depth heap f i (.stay g heap')
  /-- A call passes its checks. Its arguments leave the caller, which will go on at the next instruction. -/
  | call {name : String} {argc : UInt16} {index : Nat} {m : Method} {args : List Int32} {caller : Frame} :
    i = .invokeStatic name argc → p.callee limits depth name argc.toNat = .ok (index, m) →
    f.popArgs argc.toNat = .ok (args, caller) →
    Moves p limits depth heap f i (.call (caller.next caller.stack) (.ofArgs index m.localCount.toNat args) heap)
  /-- A return takes the top value. -/
  | give {value : Int32} {rest : Stack Int32} : i = .ret → f.stack = rest.push value →
    Moves p limits depth heap f i (.give value heap)
  /-- A fault may have cost the frame some values from the top of its stack. -/
  | fault {kind : FaultKind} {stack : Stack Int32} : stack.toList <:+ f.stack.toList →
    Moves p limits depth heap f i (.fault kind { f with stack := stack } heap)

namespace Moves
variable {p : Program} {limits : Limits} {depth : Nat} {heap : Heap} {f : Frame} {i : Instruction}

theorem ofPush (hi : i.opcode.isTerminator = false) (value : Int32) :
    Moves p limits depth heap f i (Effect.push limits heap f value) := by
  unfold Effect.push Frame.push
  by_cases h : f.stack.height < limits.operandStack
  · simp only [h, if_true]
    exact stay ⟨rfl, rfl, fun _ => h, Or.inl ⟨rfl, hi⟩⟩ .same
  · simp only [h, if_false]
    exact fault (List.suffix_refl _)

theorem ofUnderflow : Moves p limits depth heap f i (Effect.underflow heap f) :=
  fault (List.nil_suffix)

theorem ofReplace (hi : i.opcode.isTerminator = false) {rest : Stack Int32} (hs : rest.toList <:+ f.stack.toList)
    (hr : rest.height < f.stack.height) (result : Except FaultKind Int32) :
    Moves p limits depth heap f i (Effect.replace heap f rest result) := by
  cases result with
  | ok value => exact stay (.next hi hr) .same
  | error kind => exact fault hs

theorem ofInvoke {name : String} {argc : UInt16} (hi : i = .invokeStatic name argc) :
    Moves p limits depth heap f i (Effect.invoke p limits depth heap f name argc) := by
  unfold Effect.invoke
  split
  · exact fault (List.suffix_refl _)
  · rename_i index m hc
    split
    · exact fault (List.suffix_refl _)
    · rename_i args caller hp
      exact call hi hc hp

end Moves

/-- Every instruction of every frame moves in one of the four ways. -/
theorem ofInstruction_moves (p : Program) (limits : Limits) (depth : Nat) (heap : Heap) (f : Frame) (i : Instruction) :
    Moves p limits depth heap f i (ofInstruction p limits depth heap f i) := by
  cases i with
  | pushConst value => exact .ofPush rfl value
  | loadLocal slot =>
    simp only [ofInstruction]
    cases f.load slot with
    | ok value => exact .ofPush rfl value
    | error kind => exact .fault (List.suffix_refl _)
  | storeLocal slot =>
    simp only [ofInstruction]
    cases hp : f.stack.pop? with
    | none => exact .ofUnderflow
    | some popped =>
      obtain ⟨hs, hr⟩ := Stack.below_pop? hp
      by_cases hslot : f.hasSlot slot
      · simp only [hslot, if_true]
        exact .stay ⟨rfl, rfl, fun hf => Nat.le_trans (Nat.le_of_lt hr) hf, Or.inl ⟨rfl, rfl⟩⟩ .same
      · simp only [hslot, if_false]
        exact .fault hs
  | dup =>
    simp only [ofInstruction]
    cases f.stack.pop? with
    | none => exact .ofUnderflow
    | some popped => exact .ofPush rfl popped.1
  | pop =>
    simp only [ofInstruction]
    cases hp : f.stack.pop? with
    | none => exact .ofUnderflow
    | some popped => exact .stay (.next rfl (Nat.le_of_lt (Stack.below_pop? hp).2)) .same
  | arith op =>
    simp only [ofInstruction]
    cases hp : f.stack.pop2? with
    | none => exact .ofUnderflow
    | some popped => exact .ofReplace rfl (Stack.below_pop2? hp).1 (Stack.below_pop2? hp).2 _
  | neg =>
    simp only [ofInstruction]
    cases hp : f.stack.pop? with
    | none => exact .ofUnderflow
    | some popped => exact .ofReplace rfl (Stack.below_pop? hp).1 (Stack.below_pop? hp).2 _
  | compare op =>
    simp only [ofInstruction]
    cases hp : f.stack.pop2? with
    | none => exact .ofUnderflow
    | some popped => exact .ofReplace rfl (Stack.below_pop2? hp).1 (Stack.below_pop2? hp).2 _
  | jump target => exact .stay (.branch rfl (Nat.le_refl _)) .same
  | jumpIfFalse target =>
    simp only [ofInstruction]
    cases hp : f.stack.pop? with
    | none => exact .ofUnderflow
    | some popped =>
      have hr := Nat.le_of_lt (Stack.below_pop? hp).2
      by_cases hz : popped.1 = 0
      · simp only [hz, if_true]
        exact .stay (.branch rfl hr) .same
      · simp only [hz, if_false]
        exact .stay (.next rfl hr) .same
  | newArray =>
    simp only [ofInstruction]
    cases hp : f.stack.pop? with
    | none => exact .ofUnderflow
    | some popped =>
      simp only
      cases hr : heap.request limits.heapCells popped.1 with
      | ok size => exact .stay (.next rfl (Stack.below_pop? hp).2) (.grow hr)
      | error kind => exact .fault (Stack.below_pop? hp).1
  | arrayLoad =>
    simp only [ofInstruction]
    cases hp : f.stack.pop2? with
    | none => exact .ofUnderflow
    | some popped => exact .ofReplace rfl (Stack.below_pop2? hp).1 (Stack.below_pop2? hp).2 _
  | arrayStore =>
    simp only [ofInstruction]
    cases hp : f.stack.pop3? with
    | none => exact .ofUnderflow
    | some popped =>
      simp only
      cases hl : heap.locate popped.2.2.1 popped.2.1 with
      | ok place => exact .stay (.next rfl (Nat.le_of_lt (Stack.below_pop3? hp).2)) (.set _ hl)
      | error kind => exact .fault (Stack.below_pop3? hp).1
  | arrayLength =>
    simp only [ofInstruction]
    cases hp : f.stack.pop? with
    | none => exact .ofUnderflow
    | some popped => exact .ofReplace rfl (Stack.below_pop? hp).1 (Stack.below_pop? hp).2 _
  | invokeStatic name argc => exact .ofInvoke rfl
  | ret =>
    simp only [ofInstruction]
    cases hp : f.stack.pop? with
    | none => exact .ofUnderflow
    | some popped => exact .give rfl (Stack.pop?_eq_some_iff.mp hp)

end Effect

end StackMachine
