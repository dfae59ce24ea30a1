import StackMachine.Proofs.Session.Moves
import StackMachine.Proofs.Session.Run

/-! Calls protect the caller. A call opens one frame, with the arguments in its leading slots, and the caller waits
below it. Until that frame returns, an instruction changes only that frame and the frames above it; and when it
returns, the caller gets one value and is otherwise as the call left it. -/

namespace StackMachine

/-! ### Stacks on stacks -/

namespace Stack
variable {α : Type}

/-- The values of a stack on top of those of another. -/
def onto (s base : Stack α) : Stack α where
  toList := s.toList ++ base.toList
  height := s.height + base.height
  height_eq := by rw [s.height_eq, base.height_eq, List.length_append]

@[simp] theorem height_onto (s base : Stack α) : (s.onto base).height = s.height + base.height := rfl

@[simp] theorem empty_onto (base : Stack α) : empty.onto base = base := ext rfl

@[simp] theorem push_onto (s base : Stack α) (a : α) : (s.push a).onto base = (s.onto base).push a := ext rfl

@[simp] theorem pop?_push (s : Stack α) (a : α) : (s.push a).pop? = some (a, s) :=
  pop?_eq_some_iff.mpr rfl

theorem push_ne_empty (s : Stack α) (a : α) : s.push a ≠ empty :=
  fun h => absurd (congrArg toList h) (List.cons_ne_nil _ _)

theorem eq_empty_or_eq_push (s : Stack α) : s = empty ∨ ∃ (rest : Stack α) (a : α), s = rest.push a := by
  cases h : s.pop? with
  | none => exact Or.inl (pop?_eq_none_iff.mp h)
  | some popped => exact Or.inr ⟨popped.2, popped.1, pop?_eq_some_iff.mp h⟩

end Stack

/-! ### Fresh frames -/

namespace CellArray

theorem toList_foldl_set {values old front back : List Int32} {a : CellArray} (ha : a.toList = front ++ old ++ back)
    (hlen : old.length = values.length) :
    ((values.zipIdx front.length).foldl (fun a x => a.set x.2 x.1) a).toList = front ++ values ++ back := by
  induction values generalizing old front a with
  | nil =>
    obtain rfl := List.eq_nil_of_length_eq_zero hlen
    exact ha
  | cons v values ih =>
    obtain ⟨o, old, rfl⟩ := List.exists_cons_of_length_eq_add_one hlen
    have hset : (a.set front.length v).toList = (front ++ [v]) ++ old ++ back := by
      rw [toList_set, ha]
      simp
    have hrest := ih hset (Nat.succ.inj hlen)
    simpa using hrest

theorem toList_ofList {size : Nat} {values : List Int32} (h : values.length ≤ size) :
    (ofList size values).toList = values ++ List.replicate (size - values.length) 0 := by
  have hzeros : (zeros size).toList = [] ++ List.replicate values.length 0 ++ List.replicate (size - values.length) 0 := by
    rw [toList_zeros, List.nil_append, List.replicate_append_replicate, Nat.add_sub_cancel' h]
  exact toList_foldl_set hzeros List.length_replicate

end CellArray

/-- The caller as a call leaves it: past the call, and without the arguments. -/
def Frame.waiting (argc : UInt16) (f : Frame) : Frame :=
  { f with pc := f.pc + 1, stack := f.stack.drop argc.toNat }

/-- The frame with one more value on its stack. -/
def Frame.receive (value : Int32) (f : Frame) : Frame :=
  { f with stack := f.stack.push value }

namespace Session

section
variable {p : Program} {limits : Limits} {s : Session} {base callers : Stack Frame} {method : Nat}

/-! ### Effects on frames that stand on others -/

/-- The session with its frames on top of others. -/
def onto (base : Stack Frame) (s : Session) : Session :=
  { s with frames := s.frames.onto base }

theorem give_push (caller : Frame) (heap : Heap) (steps : Nat) (name : String) (pc : Nat) (value : Int32) :
    give limits (callers.push caller) heap steps name pc value =
      if caller.stack.height < limits.operandStack then
        ⟨callers.push (caller.receive value), heap, steps, .running⟩
      else ⟨callers.push caller, heap, steps,
        .faulted ⟨.operandStackOverflow limits.operandStack, some ⟨name, pc⟩⟩⟩ := by
  simp only [give, Stack.pop?_push, Frame.push]
  by_cases hroom : caller.stack.height < limits.operandStack
  · simp only [hroom, if_true, Frame.receive]
  · simp only [hroom, if_false]

theorem give_push_of_running {caller : Frame} {heap : Heap} {steps pc : Nat} {name : String} {value : Int32}
    (h : (give limits (callers.push caller) heap steps name pc value).status = .running) :
    give limits (callers.push caller) heap steps name pc value =
      ⟨callers.push (caller.receive value), heap, steps, .running⟩ := by
  rw [give_push] at h ⊢
  split
  · rfl
  · rename_i hroom
    rw [if_neg hroom] at h
    cases h

/-- An effect does not reach below the callers of the active frame. If there are none, that takes that no value is
handed on. -/
theorem apply_onto {e : Effect} (h : callers ≠ .empty ∨ ∀ value heap, e ≠ .give value heap) (base : Stack Frame)
    (steps : Nat) (name : String) (pc : Nat) :
    apply limits (callers.onto base) steps name pc e = (apply limits callers steps name pc e).onto base := by
  cases e with
  | stay f heap => simp [apply, onto]
  | call caller callee heap => simp [apply, onto]
  | fault kind f heap => simp [apply, onto]
  | give value heap =>
    have hne : callers ≠ .empty := h.resolve_right fun hgive => hgive value heap rfl
    obtain ⟨rest, caller, rfl⟩ := callers.eq_empty_or_eq_push.resolve_left hne
    simp only [apply, Stack.push_onto, give_push]
    by_cases hroom : caller.stack.height < limits.operandStack
    · simp [hroom, onto]
    · simp [hroom, onto]

/-! ### Entering a call -/

/-- The next instruction of the session is a call by the frame `caller` on top of `callers`. -/
structure AtCall (p : Program) (name : String) (argc : UInt16) (caller : Frame) (callers : Stack Frame) (s : Session) :
    Prop where
  running : s.status = .running
  frames : s.frames = callers.push caller
  instruction : ∃ m, p.fetch? caller = some (m, .invokeStatic name argc)

namespace AtCall
variable {name : String} {argc : UInt16} {caller : Frame}

theorem height (h : s.AtCall p name argc caller callers) : callers.height + 1 = s.frames.height := by
  rw [h.frames, Stack.height_push]

/-- A call that leaves the session running has passed its checks. -/
theorem callee_of_running (h : s.AtCall p name argc caller callers) (hstep : (s.step p limits).status = .running) :
    ∃ index m, p.callee limits s.frames.height name argc.toNat = .ok (index, m) ∧ argc.toNat ≤ caller.stack.height := by
  obtain ⟨m, hi⟩ := h.instruction
  rw [step_eq_apply h.running h.frames hi, h.height, Effect.ofInstruction, Effect.invoke] at hstep
  cases hc : p.callee limits s.frames.height name argc.toNat with
  | error kind =>
    rw [hc] at hstep
    cases hstep
  | ok found =>
    refine ⟨found.1, found.2, rfl, ?_⟩
    by_contra hfew
    simp only [hc, Frame.popArgs, if_neg hfew] at hstep
    cases hstep

/-- A call that passes its checks opens a frame on top of its caller. -/
theorem step_eq (h : s.AtCall p name argc caller callers) {index : Nat} {m : Method}
    (hc : p.callee limits s.frames.height name argc.toNat = .ok (index, m)) (hargs : argc.toNat ≤ caller.stack.height) :
    s.step p limits = ⟨(callers.push (caller.waiting argc)).push
      (.ofArgs index m.localCount.toNat (caller.stack.toList.take argc.toNat).reverse), s.heap, s.steps + 1, .running⟩ := by
  obtain ⟨m', hi⟩ := h.instruction
  rw [step_eq_apply h.running h.frames hi, h.height, Effect.ofInstruction, Effect.invoke, hc]
  simp only [Frame.popArgs, if_pos hargs]
  rfl

end AtCall

/-- The slots of the frame that a call opens: the arguments as they were pushed, and zeros. -/
theorem toList_locals_callee {name : String} {argc : UInt16} {caller : Frame} {index depth : Nat} {m : Method}
    (hc : p.callee limits depth name argc.toNat = .ok (index, m)) (hargs : argc.toNat ≤ caller.stack.height) :
    (Frame.ofArgs index m.localCount.toNat (caller.stack.toList.take argc.toNat).reverse).locals.toList =
      (caller.stack.toList.take argc.toNat).reverse ++ List.replicate (m.localCount.toNat - argc.toNat) 0 := by
  rw [caller.stack.height_eq] at hargs
  have hlen : (caller.stack.toList.take argc.toNat).reverse.length = argc.toNat := by
    rw [List.length_reverse, List.length_take_of_le hargs]
  have hslots := Program.callee_slots (hlen.symm ▸ hc)
  rw [Frame.ofArgs, CellArray.toList_ofList hslots, hlen]

/-! ### Inside a call -/

/-- An activation of the method at this index stands on `base`, with or without frames above it. -/
def Inside (base : Stack Frame) (method : Nat) (s : Session) : Prop :=
  ∃ (above : Stack Frame) (g : Frame), g.method = method ∧ s.frames = above.onto (base.push g)

theorem Inside.height_lt (h : s.Inside base method) : base.height < s.frames.height := by
  obtain ⟨above, g, -, hs⟩ := h
  rw [hs, Stack.height_onto, Stack.height_push]
  omega

theorem inside_of_push {g : Frame} (hs : s.frames = base.push g) (hg : g.method = method) : s.Inside base method :=
  ⟨.empty, g, hg, by rw [hs, Stack.empty_onto]⟩

/-- What a frame above the activation does stays inside the call, also when it returns to the activation. -/
theorem inside_apply_above (callers : Stack Frame) (g : Frame) (steps : Nat) (name : String) (pc : Nat) (e : Effect) :
    (apply limits (callers.onto (base.push g)) steps name pc e).Inside base g.method := by
  by_cases h : callers ≠ .empty ∨ ∀ value heap, e ≠ .give value heap
  · rw [apply_onto h]
    exact ⟨_, g, rfl, rfl⟩
  · simp only [not_or, ne_eq, not_not, not_forall] at h
    obtain ⟨rfl, value, heap, rfl⟩ := h
    rw [Stack.empty_onto, apply, give_push]
    split
    · exact inside_of_push rfl rfl
    · exact inside_of_push rfl rfl

/-- What the activation itself does stays inside the call, unless it returns. -/
theorem inside_apply_self {g : Frame} {i : Instruction} {heap : Heap} {e : Effect}
    (he : e.Moves p limits (base.height + 1) heap g i) (steps : Nat) (name : String) (pc : Nat) :
    (apply limits base steps name pc e).Inside base g.method ∨ ∃ value rest, i = .ret ∧ g.stack = Stack.push rest value ∧
      apply limits base steps name pc e = give limits base heap steps name pc value := by
  cases he with
  | stay hg => exact Or.inl (inside_of_push rfl hg.method)
  | @call _ argc index m args caller _ _ hargs =>
    obtain ⟨-, -, -, rfl⟩ := Frame.popArgs_eq_ok hargs
    exact Or.inl ⟨Stack.empty.push (.ofArgs index m.localCount.toNat args), g.waiting argc, rfl, Stack.ext rfl⟩
  | give hret hstack => exact Or.inr ⟨_, _, hret, hstack, rfl⟩
  | fault _ => exact Or.inl (inside_of_push rfl rfl)

theorem height_give_le (base : Stack Frame) (heap : Heap) (steps : Nat) (name : String) (pc : Nat) (value : Int32) :
    (give limits base heap steps name pc value).frames.height ≤ base.height := by
  rcases base.eq_empty_or_eq_push with rfl | ⟨rest, caller, rfl⟩
  · exact Nat.le_refl _
  · rw [give_push]
    split
    · exact Nat.le_refl _
    · exact Nat.le_refl _

/-- The activation of the method on `base` is at a return, with this value on top of its stack. -/
structure Returning (p : Program) (base : Stack Frame) (method : Nat) (value : Int32) (s : Session) : Prop where
  running : s.status = .running
  frame : ∃ (g : Frame) (m : Method) (rest : Stack Int32), s.frames = base.push g ∧ g.method = method ∧
    p.fetch? g = some (m, .ret) ∧ g.stack = rest.push value

/-- A step stays inside the call, unless the activation on `base` returns. -/
theorem Inside.step (h : s.Inside base method) :
    (s.step p limits).Inside base method ∨ ∃ value name pc, s.Returning p base method value ∧
      s.step p limits = give limits base s.heap (s.steps + 1) name pc value := by
  obtain ⟨above, g, rfl, hs⟩ := h
  rcases above.eq_empty_or_eq_push with rfl | ⟨callers, f, rfl⟩
  · -- The activation is on top, and only its own return ends it.
    have hg : s.frames = base.push g := by rw [hs, Stack.empty_onto]
    rcases step_eq_self_or_apply hg with hstep | ⟨m, i, hrun, hi, hstep⟩
    · rw [hstep]
      exact Or.inl ⟨.empty, g, rfl, hs⟩
    · have hmoves := Effect.ofInstruction_moves p limits (base.height + 1) s.heap g i
      rw [hstep]
      rcases inside_apply_self hmoves (s.steps + 1) m.name g.pc with hin | ⟨value, rest, rfl, hstack, hgive⟩
      · exact Or.inl hin
      · exact Or.inr ⟨value, m.name, g.pc, ⟨hrun, g, m, rest, hg, rfl, hi, hstack⟩, hgive⟩
  · -- Other frames are above the activation, and none of them reaches below itself.
    have hf : s.frames = (callers.onto (base.push g)).push f := by rw [hs, Stack.push_onto]
    rcases step_eq_self_or_apply hf with hstep | ⟨m, i, -, -, hstep⟩
    · rw [hstep]
      exact Or.inl ⟨callers.push f, g, rfl, hs⟩
    · rw [hstep]
      exact Or.inl (inside_apply_above callers g _ _ _ _)

/-- As long as the call depth shows that the call has not ended, the session is inside it. -/
theorem Inside.iterate (h : s.Inside base method) {n : Nat}
    (hdeep : ∀ k ≤ n, base.height < ((Session.step p limits)^[k] s).frames.height) :
    ((Session.step p limits)^[n] s).Inside base method := by
  induction n with
  | zero => exact h
  | succ n ih =>
    have hdepth := hdeep (n + 1) (Nat.le_refl _)
    rw [Function.iterate_succ_apply'] at hdepth ⊢
    rcases (ih fun k hk => hdeep k (Nat.le_succ_of_le hk)).step with hin | ⟨value, name, pc, -, hgive⟩
    · exact hin
    · rw [hgive] at hdepth
      exact absurd (height_give_le _ _ _ _ _ _) (Nat.not_le.mpr hdepth)

/-- A call leaves the session running only by opening a frame: at the first instruction of the called method, with
the arguments in the order of their pushes and zeros in its slots, and with an empty stack. For as long as the call
depth stays above that of the caller, the frames below are those of the caller, past its call and without the
arguments, and of its own callers. And if the depth is then back with the session running, the called method has
returned a value, which is on top of the caller's stack, and nothing else has happened to these frames. -/
theorem call_protects_caller {name : String} {argc : UInt16} {caller : Frame}
    (h : s.AtCall p name argc caller callers) (hstep : (s.step p limits).status = .running) :
    ∃ callee m, p.methods[callee.method]? = some m ∧ m.name = name ∧ m.arity = argc ∧
      callee.pc = 0 ∧ callee.stack = .empty ∧
      callee.locals.toList = (caller.stack.toList.take argc.toNat).reverse ++
        List.replicate (m.localCount.toNat - argc.toNat) 0 ∧
      (s.step p limits).frames = (callers.push (caller.waiting argc)).push callee ∧
      ∀ n, (∀ k ≤ n, s.frames.height < ((step p limits)^[k + 1] s).frames.height) →
        (∃ above, ((step p limits)^[n + 1] s).frames = Stack.onto above (callers.push (caller.waiting argc))) ∧
        (((step p limits)^[n + 2] s).frames.height = s.frames.height →
          ((step p limits)^[n + 2] s).status = .running →
          ∃ value, ((step p limits)^[n + 1] s).Returning p (callers.push (caller.waiting argc)) callee.method value ∧
            ((step p limits)^[n + 2] s).frames = callers.push ((caller.waiting argc).receive value)) := by
  obtain ⟨index, m, hc, hargs⟩ := h.callee_of_running hstep
  obtain ⟨hmethod, hname, harity, -⟩ := Program.callee_eq_ok hc
  have henter := h.step_eq hc hargs
  refine ⟨.ofArgs index m.localCount.toNat (caller.stack.toList.take argc.toNat).reverse, m, hmethod, hname,
    UInt16.toNat_inj.mp harity, rfl, rfl, toList_locals_callee hc hargs, by rw [henter], ?_⟩
  intro n hdeep
  have hfirst : (s.step p limits).Inside (callers.push (caller.waiting argc)) index :=
    inside_of_push (congrArg Session.frames henter) rfl
  have hin : ((step p limits)^[n + 1] s).Inside (callers.push (caller.waiting argc)) index := by
    refine hfirst.iterate fun k hk => ?_
    have hdepth := hdeep k hk
    rwa [Function.iterate_succ_apply, ← h.height] at hdepth
  constructor
  · obtain ⟨above, g, -, hframes⟩ := hin
    exact ⟨above.onto (Stack.empty.push g), hframes.trans (Stack.ext (by simp [Stack.onto]))⟩
  · intro hback hrun
    have hnext : (step p limits)^[n + 2] s = ((step p limits)^[n + 1] s).step p limits :=
      Function.iterate_succ_apply' _ _ _
    rw [hnext] at hback hrun ⊢
    rcases hin.step with hin' | ⟨value, name', pc, hret, hgive⟩
    · -- Inside the call the depth would be greater still.
      have hlt := hin'.height_lt
      rw [hback, ← h.height] at hlt
      exact absurd hlt (Nat.lt_irrefl _)
    · rw [hgive] at hrun ⊢
      exact ⟨value, hret, congrArg Session.frames (give_push_of_running hrun)⟩

/-- In a run of the doubling program the caller is back after six steps, with one value in place of its argument. -/
theorem call_protects_doubling :
    (after .doubling {} "main" [] 1).AtCall .doubling "größer" 1 ⟨0, 1, .zeros 0, Stack.empty.push (-7)⟩ .empty ∧
      ((after .doubling {} "main" [] 1).step .doubling {}).status = .running ∧
      ∃ value, ((step .doubling {})^[6] (after .doubling {} "main" [] 1)).frames =
        Stack.empty.push ⟨0, 2, .zeros 0, Stack.empty.push value⟩ := by
  have hcall : (after .doubling {} "main" [] 1).AtCall .doubling "größer" 1
      ⟨0, 1, .zeros 0, Stack.empty.push (-7)⟩ .empty :=
    ⟨by decide +kernel, by decide +kernel, Program.doubling.method ⟨0, by decide⟩, by decide +kernel⟩
  have hstep : ((after .doubling {} "main" [] 1).step .doubling {}).status = .running := by decide +kernel
  obtain ⟨callee, m, -, -, -, -, -, -, -, hrest⟩ := call_protects_caller hcall hstep
  obtain ⟨value, -, hframes⟩ := (hrest 4 (by decide +kernel)).2 (by decide +kernel) (by decide +kernel)
  exact ⟨hcall, hstep, value, hframes⟩

end

end Session

end StackMachine
