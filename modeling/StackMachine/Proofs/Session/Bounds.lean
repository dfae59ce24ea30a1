import StackMachine.Proofs.Session.Moves
import StackMachine.Proofs.Session.Run

/-! Sessions stay inside their program and their limits. Every frame of a reachable session, also one that waits for
a callee, is at an instruction of its method, has the slots of that method, and keeps to the limit of its stack; so
the next instruction is always there. A waiting frame is past its call, and there is an instruction after a call
because a call is not a terminator. -/

namespace StackMachine

/-- Frame `f` is an activation of method `m` at one of its instructions, within the limits. -/
structure Frame.Fits (p : Program) (limits : Limits) (m : Method) (f : Frame) : Prop where
  method : p.methods[f.method]? = some m
  pc : f.pc < m.code.size
  slots : f.locals.size = m.localCount.toNat
  height : f.stack.height ≤ limits.operandStack

namespace Frame.Fits
variable {p : Program} {limits : Limits} {m : Method} {f g : Frame} {i : Instruction}

theorem fetch? (h : f.Fits p limits m) : ∃ i, p.fetch? f = some (m, i) := by
  have hpc := h.pc
  exact ⟨m.code[f.pc], by simp [Program.fetch?, h.method, hpc]⟩

theorem getElem?_of_fetch? (h : f.Fits p limits m) {m' : Method} (hi : p.fetch? f = some (m', i)) :
    m' = m ∧ m.code[f.pc]? = some i := by
  simp only [Program.fetch?, h.method, Option.bind_eq_bind, Option.bind_some, Option.bind_eq_some_iff] at hi
  obtain ⟨j, hj, heq⟩ := hi
  cases heq
  exact ⟨rfl, hj⟩

theorem continues (h : f.Fits p limits m) (hi : m.code[f.pc]? = some i) (hg : f.Continues limits i g) :
    g.Fits p limits m where
  method := hg.method ▸ h.method
  pc := by
    rcases hg.pc with ⟨hpc, hterm⟩ | ⟨t, ht, hpc⟩
    · rw [hpc]
      exact m.succ_lt hi hterm
    · rw [hpc]
      exact m.target_lt hi ht
  slots := hg.slots.trans h.slots
  height := hg.height h.height

theorem caller (h : f.Fits p limits m) {name : String} {argc : UInt16} (hi : m.code[f.pc]? = some (.invokeStatic name argc))
    {args : List Int32} {c : Frame} (hc : f.popArgs argc.toNat = .ok (args, c)) : (c.next c.stack).Fits p limits m := by
  obtain ⟨-, -, -, rfl⟩ := popArgs_eq_ok hc
  exact h.continues hi (.next rfl (Nat.sub_le _ _))

theorem ofArgs {depth index : Nat} {name : String} {argc : Nat} (h : p.callee limits depth name argc = .ok (index, m))
    (args : List Int32) : (ofArgs index m.localCount.toNat args).Fits p limits m where
  method := (Program.callee_eq_ok h).1
  pc := m.code_pos
  slots := CellArray.size_ofList _ _
  height := Nat.zero_le _

theorem fault (h : f.Fits p limits m) {stack : Stack Int32} (hs : stack.toList <:+ f.stack.toList) :
    Fits p limits m { f with stack := stack } where
  method := h.method
  pc := h.pc
  slots := h.slots
  height := by
    have hle := hs.length_le
    rw [← stack.height_eq, ← f.stack.height_eq] at hle
    exact Nat.le_trans hle h.height

end Frame.Fits

/-- A session that ends this way has no frame left: it has returned, or it could not be entered. -/
def Status.LeavesNoFrame : Status → Prop
  | .running => False
  | .returned _ => True
  | .faulted fault => fault.location = none

namespace Session

/-- The session is inside its program and its limits. -/
structure Bounded (p : Program) (limits : Limits) (s : Session) : Prop where
  frames : ∀ f ∈ s.frames.toList, ∃ m, f.Fits p limits m
  depth : s.frames.height ≤ limits.callDepth
  empty_iff : s.frames = .empty ↔ s.status.LeavesNoFrame

section
variable {p : Program} {limits : Limits} {s : Session}

theorem bounded_start (entry : String) (args : List Int32) : (start p limits entry args).Bounded p limits := by
  unfold start
  split
  · rename_i index m h
    refine ⟨fun f hf => ?_, ?_, ?_⟩
    · obtain rfl := List.mem_singleton.mp hf
      exact ⟨m, .ofArgs h args⟩
    · exact (Program.callee_eq_ok h).2.2.2
    · simp [Status.LeavesNoFrame, Stack.ext_iff]
  · exact ⟨by simp, Nat.zero_le _, by simp [Status.LeavesNoFrame]⟩

theorem bounded_push {callers : Stack Frame} {f : Frame} {heap : Heap} {steps : Nat} {status : Status}
    (hc : ∀ g ∈ callers.toList, ∃ m, g.Fits p limits m) (hf : ∃ m, f.Fits p limits m)
    (hd : callers.height < limits.callDepth) (hs : ¬status.LeavesNoFrame) :
    Bounded p limits ⟨callers.push f, heap, steps, status⟩ where
  frames g hg := by
    rcases List.mem_cons.mp hg with rfl | hg
    · exact hf
    · exact hc g hg
  depth := hd
  empty_iff := by simp [hs, Stack.ext_iff]

/-- Handing a value on keeps the bounds, also when the caller has no room for it. -/
theorem bounded_give {callers : Stack Frame} (hc : ∀ g ∈ callers.toList, ∃ m, g.Fits p limits m)
    (hd : callers.height ≤ limits.callDepth) (heap : Heap) (steps : Nat) (name : String) (pc : Nat) (value : Int32) :
    Bounded p limits (give limits callers heap steps name pc value) := by
  unfold give
  cases hp : callers.pop? with
  | none => exact ⟨by simp, Nat.zero_le _, by simp [Status.LeavesNoFrame]⟩
  | some popped =>
    obtain ⟨caller, rest⟩ := popped
    obtain rfl := Stack.pop?_eq_some_iff.mp hp
    obtain ⟨m, hm⟩ := hc caller List.mem_cons_self
    have hrest : ∀ g ∈ rest.toList, ∃ m, g.Fits p limits m := fun g hg => hc g (List.mem_cons_of_mem _ hg)
    by_cases hroom : caller.stack.height < limits.operandStack
    · simp only [Frame.push, hroom, if_true]
      exact bounded_push hrest ⟨m, hm.method, hm.pc, hm.slots, hroom⟩ hd id
    · simp only [Frame.push, hroom, if_false]
      exact bounded_push hrest ⟨m, hm⟩ hd (by simp [Status.LeavesNoFrame])

/-- Whatever the active frame does, the session stays in its bounds. -/
theorem bounded_apply {callers : Stack Frame} {f : Frame} {m : Method} {i : Instruction} {heap : Heap} {e : Effect}
    (hc : ∀ g ∈ callers.toList, ∃ m, g.Fits p limits m) (hf : f.Fits p limits m) (hi : m.code[f.pc]? = some i)
    (hd : callers.height < limits.callDepth) (he : e.Moves p limits (callers.height + 1) heap f i) (steps : Nat)
    (name : String) (pc : Nat) : Bounded p limits (apply limits callers steps name pc e) := by
  cases he with
  | stay hg => exact bounded_push hc ⟨m, hf.continues hi hg⟩ hd id
  | call hcall hcallee hargs =>
    subst hcall
    -- The caller waits past its call, and a call is never the last instruction of its method.
    have hcaller := hf.caller hi hargs
    refine bounded_push (fun g hg => ?_) ⟨_, .ofArgs hcallee _⟩ (Program.callee_eq_ok hcallee).2.2.2 id
    rcases List.mem_cons.mp hg with rfl | hg
    · exact ⟨m, hcaller⟩
    · exact hc g hg
  | give hret hstack => exact bounded_give hc (Nat.le_of_lt hd) _ _ _ _ _
  | fault hs => exact bounded_push hc ⟨m, hf.fault hs⟩ hd (by simp [Status.LeavesNoFrame])

/-- A running session has an active frame, and that frame an instruction. -/
theorem Bounded.active (h : s.Bounded p limits) (hrun : s.status = .running) :
    ∃ (f : Frame) (callers : Stack Frame) (m : Method) (i : Instruction), s.frames = callers.push f ∧
      f.Fits p limits m ∧ p.fetch? f = some (m, i) ∧ m.code[f.pc]? = some i := by
  cases hp : s.frames.pop? with
  | none =>
    -- Only a session that has ended is without a frame.
    have hempty := h.empty_iff.mp (Stack.pop?_eq_none_iff.mp hp)
    rw [hrun] at hempty
    exact hempty.elim
  | some popped =>
    obtain ⟨f, callers⟩ := popped
    have hf := Stack.pop?_eq_some_iff.mp hp
    obtain ⟨m, hm⟩ := h.frames f (by rw [hf]; exact List.mem_cons_self)
    obtain ⟨i, hi⟩ := hm.fetch?
    exact ⟨f, callers, m, i, hf, hm, hi, (hm.getElem?_of_fetch? hi).2⟩

theorem Bounded.step (h : s.Bounded p limits) : (s.step p limits).Bounded p limits := by
  by_cases hrun : s.status = .running
  · obtain ⟨f, callers, m, i, hf, hm, hi, hcode⟩ := h.active hrun
    have hc : ∀ g ∈ callers.toList, ∃ m, g.Fits p limits m := fun g hg =>
      h.frames g (by rw [hf]; exact List.mem_cons_of_mem _ hg)
    have hd : callers.height < limits.callDepth := by
      have := h.depth
      rwa [hf] at this
    rw [step_eq_apply hrun hf hi]
    exact bounded_apply hc hm hcode hd (Effect.ofInstruction_moves p limits _ s.heap f i) _ _ _
  · rw [step_of_halted (Status.isHalted_of_ne_running hrun)]
    exact h

theorem bounded_after (entry : String) (args : List Int32) (n : Nat) : (after p limits entry args n).Bounded p limits :=
  after_induction (bounded_start entry args) (fun _ h => h.step) n

/-! ### What a step takes for granted -/

theorem steps_step_le (s : Session) : (s.step p limits).steps ≤ s.steps + 1 := by
  obtain ⟨frames, heap, steps, status⟩ := s
  cases status with
  | running =>
    simp only [step]
    cases frames.pop? with
    | none => exact Nat.le_succ _
    | some popped =>
      simp only
      cases p.fetch? popped.1 with
      | none => exact Nat.le_succ _
      | some fetched => exact Nat.le_of_eq (steps_apply ..)
  | returned value => exact Nat.le_succ _
  | faulted fault => exact Nat.le_succ _

theorem steps_after_le (entry : String) (args : List Int32) (n : Nat) : (after p limits entry args n).steps ≤ n := by
  induction n with
  | zero =>
    rw [after_zero, start]
    split <;> exact Nat.le_refl _
  | succ n ih =>
    rw [after_succ]
    exact Nat.le_trans (steps_step_le _) (Nat.succ_le_succ ih)

/-- What the next step needs is there: an active frame, its method and instruction, and for a call that passes its
checks the method at its index, with slots for all the arguments. -/
def Ready (p : Program) (limits : Limits) (s : Session) : Prop :=
  ∃ f callers m i, s.frames.pop? = some (f, callers) ∧ p.fetch? f = some (m, i) ∧
    ∀ name argc index callee args caller, i = .invokeStatic name argc →
      p.callee limits s.frames.height name argc.toNat = .ok (index, callee) →
      f.popArgs argc.toNat = .ok (args, caller) →
      p.methods[index]? = some callee ∧ (Frame.ofArgs? index callee.localCount.toNat args).isSome

theorem isSome_ofArgs? {depth : Nat} {name : String} {args : List Int32} {index : Nat} {m : Method}
    (h : p.callee limits depth name args.length = .ok (index, m)) :
    (Frame.ofArgs? index m.localCount.toNat args).isSome := by
  simp [Frame.ofArgs?, Program.callee_slots h]

theorem Bounded.ready (h : s.Bounded p limits) (hrun : s.status = .running) : s.Ready p limits := by
  obtain ⟨f, callers, m, i, hf, -, hi, -⟩ := h.active hrun
  refine ⟨f, callers, m, i, Stack.pop?_eq_some_iff.mpr hf, hi, ?_⟩
  intro name argc index callee args caller _ hcallee hargs
  obtain ⟨-, -, hlen, -⟩ := Frame.popArgs_eq_ok hargs
  rw [← hlen] at hcallee
  exact ⟨(Program.callee_eq_ok hcallee).1, isSome_ofArgs? hcallee⟩

/-- However a session is started and however often it is stepped, it stays inside its program and its limits, it
counts at most its steps, and nothing that it takes for granted is missing: neither for its next step, nor for the
call of the entry method, nor at the index of a name. -/
theorem after_bounded_and_ready (p : Program) (limits : Limits) (entry : String) (args : List Int32) (n : Nat) :
    (after p limits entry args n).Bounded p limits ∧ (after p limits entry args n).steps ≤ n ∧
      ((after p limits entry args n).status = .running → (after p limits entry args n).Ready p limits) ∧
      (∀ index m, p.callee limits 0 entry args.length = .ok (index, m) →
        p.methods[index]? = some m ∧ (Frame.ofArgs? index m.localCount.toNat args).isSome) ∧
      ∀ name index, p.resolve? name = some index → index < p.methods.size := by
  refine ⟨bounded_after entry args n, steps_after_le entry args n, (bounded_after entry args n).ready, ?_, ?_⟩
  · intro index m h
    exact ⟨(Program.callee_eq_ok h).1, isSome_ofArgs? h⟩
  · intro name index h
    obtain ⟨i, -, rfl⟩ := Option.map_eq_some_iff.mp h
    exact i.isLt

end

end Session

end StackMachine
