import Mathlib.Data.List.Chain
import StackMachine.Proofs.Session.Bounds
import StackMachine.Proofs.Session.Calls

/-! The call stack is linked: below every frame waits the frame that has called it, just past the call. That caller
had the arguments on its stack, so it still has room for as many values, and a return can only lack room for its
value where there was no argument. -/

namespace StackMachine

namespace Program
variable {p : Program}

theorem resolve?_of_callee {limits : Limits} {depth argc index : Nat} {name : String} {m : Method}
    (h : p.callee limits depth name argc = .ok (index, m)) : p.resolve? name = some index := by
  unfold callee at h
  split at h
  · cases h
  · rename_i i hi
    dsimp only at h
    split at h
    · cases h
    · split at h
      · cases h
      · cases h
        rw [resolve?, hi, Option.map_some]

theorem fetch?_eq_some {f : Frame} {m : Method} {i : Instruction} (h : p.fetch? f = some (m, i)) :
    p.methods[f.method]? = some m ∧ m.code[f.pc]? = some i := by
  simp only [fetch?, Option.bind_eq_bind, Option.bind_eq_some_iff] at h
  obtain ⟨m', hm, i', hi, heq⟩ := h
  cases heq
  exact ⟨hm, hi⟩

end Program

/-- Frame `caller` waits past a call of the method that `callee` is in, and has room for its arguments. -/
def Frame.CalledBy (p : Program) (limits : Limits) (callee caller : Frame) : Prop :=
  ∃ m m' name argc, p.methods[caller.method]? = some m ∧ 1 ≤ caller.pc ∧
    m.code[caller.pc - 1]? = some (.invokeStatic name argc) ∧ p.resolve? name = some callee.method ∧
    p.methods[callee.method]? = some m' ∧ argc = m'.arity ∧
    caller.stack.height + m'.arity.toNat ≤ limits.operandStack

namespace Frame.CalledBy
variable {p : Program} {limits : Limits} {f g caller : Frame}

theorem of_method (hg : g.method = f.method) (h : f.CalledBy p limits caller) : g.CalledBy p limits caller := by
  obtain ⟨m, m', name, argc, hm, hpc, hcode, hname, hm', hargc, hroom⟩ := h
  exact ⟨m, m', name, argc, hm, hpc, hcode, by rw [hname, hg], by rw [hg, hm'], hargc, hroom⟩

/-- A link stays where the upper frame stays in its method. -/
theorem isChain_of_method {frames : List Frame} (h : (f :: frames).IsChain (CalledBy p limits))
    (hg : g.method = f.method) : (g :: frames).IsChain (CalledBy p limits) :=
  h.imp_head (of_method hg)

theorem ofArgs {m callee : Method} {name : String} {argc : UInt16} {index depth : Nat} (hf : f.Fits p limits m)
    (hi : m.code[f.pc]? = some (.invokeStatic name argc))
    (hc : p.callee limits depth name argc.toNat = .ok (index, callee)) (hargs : argc.toNat ≤ f.stack.height)
    (args : List Int32) : (ofArgs index callee.localCount.toNat args).CalledBy p limits (f.waiting argc) := by
  obtain ⟨hmethod, -, harity, -⟩ := Program.callee_eq_ok hc
  refine ⟨m, callee, name, argc, hf.method, Nat.succ_pos _, hi, Program.resolve?_of_callee hc, hmethod,
    UInt16.toNat_inj.mp harity.symm, ?_⟩
  have hheight : (f.waiting argc).stack.height = f.stack.height - argc.toNat := rfl
  have hlimit := hf.height
  omega

end Frame.CalledBy

namespace Session

/-- Every frame is called by the frame below it. -/
def Linked (p : Program) (limits : Limits) (s : Session) : Prop :=
  s.frames.toList.IsChain (Frame.CalledBy p limits)

section
variable {p : Program} {limits : Limits} {s : Session} {callers : Stack Frame} {f : Frame} {m : Method}

theorem linked_start (entry : String) (args : List Int32) : (start p limits entry args).Linked p limits := by
  unfold start
  split
  · exact List.isChain_singleton _
  · exact List.isChain_nil

theorem linked_give (h : callers.toList.IsChain (Frame.CalledBy p limits)) (heap : Heap) (steps : Nat) (name : String)
    (pc : Nat) (value : Int32) : (give limits callers heap steps name pc value).Linked p limits := by
  rcases callers.eq_empty_or_eq_push with rfl | ⟨rest, caller, rfl⟩
  · exact List.isChain_nil
  · rw [give_push]
    split
    · exact Frame.CalledBy.isChain_of_method h rfl
    · exact h

/-- Whatever the active frame does, the links stay: it keeps its method, and a call adds a link of its own. -/
theorem linked_apply {i : Instruction} {heap : Heap} {e : Effect}
    (h : (f :: callers.toList).IsChain (Frame.CalledBy p limits)) (hf : f.Fits p limits m) (hi : m.code[f.pc]? = some i)
    (he : e.Moves p limits (callers.height + 1) heap f i) (steps : Nat) (name : String) (pc : Nat) :
    (apply limits callers steps name pc e).Linked p limits := by
  cases he with
  | stay hg _ => exact Frame.CalledBy.isChain_of_method h hg.method
  | call hcall hcallee hargs =>
    subst hcall
    obtain ⟨hcount, -, -, rfl⟩ := Frame.popArgs_eq_ok hargs
    refine List.isChain_cons_cons.mpr ⟨.ofArgs hf hi hcallee hcount _, ?_⟩
    exact Frame.CalledBy.isChain_of_method h rfl
  | give _ _ => exact linked_give h.tail _ _ _ _ _
  | fault _ => exact Frame.CalledBy.isChain_of_method h rfl

theorem Linked.step (h : s.Linked p limits) (hb : s.Bounded p limits) : (s.step p limits).Linked p limits := by
  by_cases hrun : s.status = .running
  · obtain ⟨f, callers, m, i, hf, hm, hi, hcode⟩ := hb.active hrun
    unfold Linked at h
    rw [hf] at h
    rw [step_eq_apply hrun hf hi]
    exact linked_apply h hm hcode (Effect.ofInstruction_moves p limits _ s.heap f i) _ _ _
  · rw [step_of_halted (Status.isHalted_of_ne_running hrun)]
    exact h

theorem linked_after (entry : String) (args : List Int32) (n : Nat) : (after p limits entry args n).Linked p limits := by
  induction n with
  | zero => exact linked_start entry args
  | succ n ih =>
    rw [after_succ]
    exact ih.step (bounded_after entry args n)

/-- A return without room for its value comes from a method without arguments. -/
theorem Linked.arity_eq_zero (h : s.Linked p limits) (hrun : s.status = .running) (hf : s.frames = callers.push f)
    (hi : p.fetch? f = some (m, .ret)) {limit : Nat} {location : Option Location}
    (hfault : (s.step p limits).status = .faulted ⟨.operandStackOverflow limit, location⟩) : m.arity = 0 := by
  rw [step_eq_apply hrun hf hi, Effect.ofInstruction] at hfault
  cases hpop : f.stack.pop? with
  | none =>
    rw [hpop] at hfault
    cases hfault
  | some popped =>
    rw [hpop] at hfault
    rcases callers.eq_empty_or_eq_push with rfl | ⟨rest, caller, rfl⟩
    -- Without a caller the session returns the value.
    · cases hfault
    · simp only [apply, give_push] at hfault
      split at hfault
      · cases hfault
      · rename_i hfull
        unfold Linked at h
        rw [hf] at h
        obtain ⟨-, m', -, -, -, -, -, -, hm', -, hroom⟩ := (List.isChain_cons_cons.mp h).1
        rw [(Program.fetch?_eq_some hi).1] at hm'
        cases hm'
        apply UInt16.toNat_inj.mp
        rw [UInt16.toNat_zero]
        omega

/-- In every state of every session each frame is called by the frame below it; so a return that overflows the stack
of its caller is one of a method without arguments. -/
theorem after_calledBy (p : Program) (limits : Limits) (entry : String) (args : List Int32) (n : Nat) :
    (after p limits entry args n).frames.toList.IsChain (Frame.CalledBy p limits) ∧
      ∀ f callers m limit location, (after p limits entry args n).status = .running →
        (after p limits entry args n).frames = Stack.push callers f → p.fetch? f = some (m, .ret) →
        ((after p limits entry args n).step p limits).status = .faulted ⟨.operandStackOverflow limit, location⟩ →
        m.arity = 0 := by
  refine ⟨linked_after entry args n, ?_⟩
  intro f callers m limit location hrun hf hi hfault
  exact (linked_after entry args n).arity_eq_zero hrun hf hi hfault

end

/-- A method without arguments: its caller has filled its stack before the call. -/
example :
    let p : Program :=
      { methods := #[⟨"main", 0, 0, #[.pushConst 1, .invokeStatic "one" 0, .ret], by decide +kernel⟩,
          ⟨"one", 0, 0, #[.pushConst 2, .ret], by decide +kernel⟩]
        distinct := by decide +kernel }
    (after p { operandStack := 1 } "main" [] 4).status =
      .faulted ⟨.operandStackOverflow 1, some ⟨"one", 1⟩⟩ := by
  decide +kernel

end Session

end StackMachine
