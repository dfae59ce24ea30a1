import StackMachine.Proofs.Session.Bounds
import StackMachine.Proofs.Session.Calls

/-! A call depends on its arguments and on the heap, and on nothing else of the place where it is made. Two sessions
that make the same call on the same heap open the same frame. From then on each step finds the same frames above the
two callers and the same heap, and does the same to them: of the frames below, an instruction sees only whether
another frame may be opened. So both calls return after as many steps, and with the same value. -/

namespace StackMachine

/-- Above `n` frames the limits `d` allow all that the limits `c` allow above `m` frames. -/
structure Limits.AllowedAbove (c : Limits) (m : Nat) (d : Limits) (n : Nat) : Prop where
  operandStack : c.operandStack = d.operandStack
  heapCells : c.heapCells = d.heapCells
  callDepth : c.callDepth - m ≤ d.callDepth - n

section
variable {p : Program} {c d : Limits}

theorem Program.callee_of_room {depth depth' argc : Nat} {name : String} {found : Nat × Method}
    (h : p.callee c depth name argc = .ok found) (hroom : depth' < d.callDepth) :
    p.callee d depth' name argc = .ok found := by
  unfold callee at h ⊢
  split at h
  · cases h
  · dsimp only at h ⊢
    split at h
    · cases h
    · rename_i hargc
      split at h
      · cases h
      · rw [if_neg hargc, if_neg (Nat.not_le.mpr hroom)]
        exact h

/-- An instruction that does not fault does the same above another number of frames, if a frame may be opened there
as well. -/
theorem Effect.ofInstruction_of_room {depth depth' : Nat} (hstack : c.operandStack = d.operandStack)
    (hcells : c.heapCells = d.heapCells) (hroom : depth < c.callDepth → depth' < d.callDepth) {heap : Heap} {f : Frame}
    {i : Instruction} (hok : ∀ kind g h, ofInstruction p c depth heap f i ≠ .fault kind g h) :
    ofInstruction p d depth' heap f i = ofInstruction p c depth heap f i := by
  cases i with
  | invokeStatic name argc =>
    simp only [ofInstruction, invoke] at hok ⊢
    cases hc : p.callee c depth name argc.toNat with
    | error kind =>
      rw [hc] at hok
      exact absurd rfl (hok kind f heap)
    | ok found =>
      obtain ⟨-, -, -, hdepth⟩ := Program.callee_eq_ok hc
      rw [Program.callee_of_room hc (hroom hdepth)]
  | _ => simp only [ofInstruction, push, hstack, hcells]

namespace Session
variable {s t : Session} {base base' : Stack Frame}

/-! ### Two sessions inside the same call -/

theorem apply_congr (hstack : c.operandStack = d.operandStack) (callers : Stack Frame) (steps steps' : Nat)
    (name : String) (pc : Nat) (e : Effect) :
    apply d callers steps' name pc e = { apply c callers steps name pc e with steps := steps' } := by
  cases e with
  | give value heap =>
    rcases callers.eq_empty_or_eq_push with rfl | ⟨rest, caller, rfl⟩
    · rfl
    · simp only [apply, give_push, hstack]
      split
      · rfl
      · rfl
  | _ => rfl

theorem frames_apply_ne_empty {callers : Stack Frame} {steps : Nat} {name : String} {pc : Nat} {e : Effect}
    (h : (apply c callers steps name pc e).status = .running) :
    (apply c callers steps name pc e).frames ≠ .empty := by
  cases e with
  | give value heap =>
    rcases callers.eq_empty_or_eq_push with rfl | ⟨rest, caller, rfl⟩
    · cases h
    · rw [apply, give_push]
      split
      · exact Stack.push_ne_empty _ _
      · exact Stack.push_ne_empty _ _
  | stay f heap => exact Stack.push_ne_empty _ _
  | call caller callee heap => exact Stack.push_ne_empty _ _
  | fault kind f heap => exact Stack.push_ne_empty _ _

/-- Two running sessions have the same frames above `base` and `base'`, and the same heap. -/
structure Alike (base base' : Stack Frame) (s t : Session) : Prop where
  running : s.status = .running
  running' : t.status = .running
  frames : ∃ upper : Stack Frame, upper ≠ .empty ∧ s.frames = upper.onto base ∧ t.frames = upper.onto base'
  heap : s.heap = t.heap

/-- The same effect on the same frames leaves the sessions alike, unless it hands a value to the frames below. -/
theorem alike_apply (hstack : c.operandStack = d.operandStack) {callers : Stack Frame} {steps steps' pc : Nat}
    {name : String} {e : Effect} (hrun : (apply c (callers.onto base) steps name pc e).status = .running) :
    Alike base base' (apply c (callers.onto base) steps name pc e) (apply d (callers.onto base') steps' name pc e) ∨
      ∃ heap value, apply c (callers.onto base) steps name pc e = give c base heap steps name pc value ∧
        apply d (callers.onto base') steps' name pc e = give d base' heap steps' name pc value := by
  by_cases h : callers ≠ .empty ∨ ∀ value heap, e ≠ .give value heap
  · rw [apply_onto h] at hrun ⊢
    rw [apply_onto h, apply_congr hstack callers steps steps' name pc e]
    exact Or.inl ⟨hrun, hrun, ⟨_, frames_apply_ne_empty hrun, rfl, rfl⟩, rfl⟩
  · simp only [not_or, ne_eq, not_not, not_forall] at h
    obtain ⟨rfl, value, heap, rfl⟩ := h
    rw [Stack.empty_onto, Stack.empty_onto]
    exact Or.inr ⟨heap, value, rfl, rfl⟩

/-- If the one session goes on, the other does the same, until both return to their callers. -/
theorem Alike.step (h : Alike base base' s t) (hroom : c.AllowedAbove base.height d base'.height)
    (hrun : (s.step p c).status = .running) :
    Alike base base' (s.step p c) (t.step p d) ∨ ∃ heap name pc value,
      s.step p c = give c base heap (s.steps + 1) name pc value ∧
      t.step p d = give d base' heap (t.steps + 1) name pc value := by
  obtain ⟨upper, hne, hs, ht⟩ := h.frames
  obtain ⟨callers, f, rfl⟩ := upper.eq_empty_or_eq_push.resolve_left hne
  rw [Stack.push_onto] at hs ht
  cases hi : p.fetch? f with
  | none =>
    rw [step_of_fetch?_eq_none h.running hs hi, step_of_fetch?_eq_none h.running' ht hi]
    exact Or.inl h
  | some fetched =>
    obtain ⟨m, i⟩ := fetched
    rw [step_eq_apply h.running hs hi] at hrun ⊢
    -- The depths differ, but the second session has room wherever the first one has.
    have hsame : Effect.ofInstruction p d ((callers.onto base').height + 1) t.heap f i =
        Effect.ofInstruction p c ((callers.onto base).height + 1) s.heap f i := by
      rw [← h.heap]
      refine Effect.ofInstruction_of_room hroom.operandStack hroom.heapCells (fun hdepth => ?_) ?_
      · have hcalls := hroom.callDepth
        rw [Stack.height_onto] at hdepth ⊢
        omega
      · intro kind g heap he
        rw [he] at hrun
        cases hrun
    rw [step_eq_apply h.running' ht hi, hsame]
    rcases alike_apply hroom.operandStack hrun with halike | ⟨heap, value, hgive, hgive'⟩
    · exact Or.inl halike
    · exact Or.inr ⟨heap, m.name, f.pc, value, hgive, hgive'⟩

theorem height_give_of_running {heap : Heap} {steps pc : Nat} {name : String} {value : Int32}
    (h : (give c base heap steps name pc value).status = .running) :
    (give c base heap steps name pc value).frames.height = base.height := by
  rcases base.eq_empty_or_eq_push with rfl | ⟨rest, caller, rfl⟩
  · cases h
  · rw [give_push_of_running h]
    rfl

theorem Alike.height_lt (h : Alike base base' s t) :
    base.height < s.frames.height ∧ base'.height < t.frames.height := by
  obtain ⟨upper, hne, hs, ht⟩ := h.frames
  obtain ⟨callers, f, rfl⟩ := upper.eq_empty_or_eq_push.resolve_left hne
  rw [hs, ht, Stack.height_onto, Stack.height_onto, Stack.height_push]
  omega

/-- As long as the one session runs and does not return from the call, the other is like it. -/
theorem Alike.iterate (h : Alike base base' s t) (hroom : c.AllowedAbove base.height d base'.height) {n : Nat}
    (hrun : ((Session.step p c)^[n] s).status = .running)
    (hdeep : ∀ k ≤ n, ((Session.step p c)^[k] s).frames.height ≠ base.height) :
    Alike base base' ((Session.step p c)^[n] s) ((Session.step p d)^[n] t) := by
  induction n with
  | zero => exact h
  | succ n ih =>
    have halike := ih (running_of_iterate hrun (Nat.le_succ n)) fun k hk => hdeep k (Nat.le_succ_of_le hk)
    have hdepth := hdeep (n + 1) (Nat.le_refl _)
    rw [Function.iterate_succ_apply'] at hrun hdepth ⊢
    rw [Function.iterate_succ_apply']
    rcases halike.step hroom hrun with hnext | ⟨heap, name, pc, value, hgive, -⟩
    · exact hnext
    · rw [hgive] at hrun hdepth
      exact absurd (height_give_of_running hrun) hdepth

/-! ### The heap of a session -/

theorem heap_give (callers : Stack Frame) (heap : Heap) (steps : Nat) (name : String) (pc : Nat) (value : Int32) :
    (give c callers heap steps name pc value).heap = heap := by
  rcases callers.eq_empty_or_eq_push with rfl | ⟨rest, caller, rfl⟩
  · rfl
  · rw [give_push]
    split
    · rfl
    · rfl

theorem changes_step (s : Session) : s.heap.Changes c (s.step p c).heap := by
  rcases s.frames.eq_empty_or_eq_push with hs | ⟨callers, f, hs⟩
  · obtain ⟨frames, heap, steps, status⟩ := s
    cases hs
    cases status with
    | _ => exact .same
  · rcases step_eq_self_or_apply hs with hstep | ⟨m, i, -, -, hstep⟩
    · rw [hstep]
      exact .same
    · rw [hstep]
      have hmoves := Effect.ofInstruction_moves p c (callers.height + 1) s.heap f i
      generalize Effect.ofInstruction p c (callers.height + 1) s.heap f i = e at hmoves ⊢
      cases hmoves with
      | stay _ hchanges => exact hchanges
      | call _ _ _ => exact .same
      | give _ _ =>
        rw [apply, heap_give]
        exact .same
      | fault _ => exact .same

theorem Reachable.counted (h : s.Reachable p c) : s.heap.Counted := by
  obtain ⟨entry, args, n, rfl⟩ := h
  refine after_induction (P := fun s => s.heap.Counted) ?_ (fun s hs => hs.changes (changes_step s)) n
  unfold start
  split
  · exact Heap.counted_empty
  · exact Heap.counted_empty

theorem Reachable.bounded (h : s.Reachable p c) : s.Bounded p c := by
  obtain ⟨entry, args, n, rfl⟩ := h
  exact bounded_after entry args n

/-! ### Two sessions that make the same call -/

/-- After `n` steps the call depth is for the first time what it was, and the session is running. -/
structure ReturnsAfter (p : Program) (limits : Limits) (s : Session) (n : Nat) : Prop where
  pos : 0 < n
  running : ((Session.step p limits)^[n] s).status = .running
  back : ((Session.step p limits)^[n] s).frames.height = s.frames.height
  first : ∀ k < n, 0 < k → ((Session.step p limits)^[k] s).frames.height ≠ s.frames.height

variable {name : String} {argc : UInt16} {caller caller' : Frame} {callers callers' : Stack Frame} {n : Nat}

/-- A caller that has given an argument has room for a value. -/
theorem AtCall.room (h : s.AtCall p name argc caller callers) (hb : s.Bounded p c)
    (hrun : (s.step p c).status = .running) (hvalue : argc = 0 → caller.stack.height < c.operandStack) :
    (caller.waiting argc).stack.height < c.operandStack := by
  obtain ⟨index, m, -, hcount⟩ := h.callee_of_running hrun
  obtain ⟨m', hfits⟩ := hb.frames caller (by rw [h.frames]; exact List.mem_cons_self)
  have hheight : (caller.waiting argc).stack.height = caller.stack.height - argc.toNat := rfl
  have hlimit := hfits.height
  by_cases hzero : argc = 0
  · have hfree := hvalue hzero
    omega
  · have hpos : argc.toNat ≠ 0 := fun h0 => hzero (UInt16.toNat_inj.mp h0)
    omega

section
variable (hs : s.AtCall p name argc caller callers) (ht : t.AtCall p name argc caller' callers')
  (hroom : c.AllowedAbove s.frames.height d t.frames.height) (hheap : s.heap = t.heap)
  (hargs : caller.stack.toList.take argc.toNat = caller'.stack.toList.take argc.toNat)
include hs ht hroom hheap hargs

theorem AtCall.alike_step (hrun : (s.step p c).status = .running) :
    Alike (callers.push (caller.waiting argc)) (callers'.push (caller'.waiting argc)) (s.step p c) (t.step p d) := by
  obtain ⟨index, m, hc, hcount⟩ := hs.callee_of_running hrun
  obtain ⟨-, -, -, hdepth⟩ := Program.callee_eq_ok hc
  have hd : p.callee d t.frames.height name argc.toNat = .ok (index, m) := by
    refine Program.callee_of_room hc ?_
    have hcalls := hroom.callDepth
    omega
  have hcount' : argc.toNat ≤ caller'.stack.height := by
    have hlen := congrArg List.length hargs
    rw [List.length_take, List.length_take, ← caller.stack.height_eq, ← caller'.stack.height_eq] at hlen
    omega
  rw [hs.step_eq hc hcount, ht.step_eq hd hcount', ← hargs]
  refine ⟨rfl, rfl, ⟨Stack.empty.push (.ofArgs index m.localCount.toNat
    (caller.stack.toList.take argc.toNat).reverse), Stack.push_ne_empty _ _, ?_, ?_⟩, hheap⟩
  · rw [Stack.push_onto, Stack.empty_onto]
  · rw [Stack.push_onto, Stack.empty_onto]

/-- While the call in the one session has not returned, the other session is like it. -/
theorem AtCall.alike_iterate (hret : s.ReturnsAfter p c n) {k : Nat} (hk : k < n) (hpos : 0 < k) :
    Alike (callers.push (caller.waiting argc)) (callers'.push (caller'.waiting argc))
      ((Session.step p c)^[k] s) ((Session.step p d)^[k] t) := by
  obtain ⟨k, rfl⟩ := Nat.exists_eq_add_one_of_ne_zero (Nat.ne_of_gt hpos)
  have hrun : (s.step p c).status = .running := running_of_iterate hret.running hret.pos
  have hfirst := hs.alike_step ht hroom hheap hargs hrun
  rw [← hs.height, ← ht.height] at hroom
  have hkrun : ((Session.step p c)^[k + 1] s).status = .running := running_of_iterate hret.running (Nat.le_of_lt hk)
  refine hfirst.iterate hroom hkrun fun j hj => ?_
  have hne := hret.first (j + 1) (by omega) (Nat.succ_pos j)
  rwa [← hs.height] at hne

/-- The step that returns from the call in the one session returns from it in the other, with the same value. -/
theorem AtCall.give_iterate (hret : s.ReturnsAfter p c n) : ∃ heap steps steps' name' pc value,
    (Session.step p c)^[n] s = give c (callers.push (caller.waiting argc)) heap steps name' pc value ∧
      (Session.step p d)^[n] t = give d (callers'.push (caller'.waiting argc)) heap steps' name' pc value := by
  obtain ⟨k, rfl⟩ := Nat.exists_eq_add_one_of_ne_zero (Nat.ne_of_gt hret.pos)
  have hrun := hret.running
  have hback := hret.back
  rw [← hs.height] at hback
  rcases Nat.eq_zero_or_pos k with rfl | hpos
  -- The first step enters the call, so it takes another one to return.
  · have hlt := (hs.alike_step ht hroom hheap hargs hrun).height_lt.1
    exact absurd hback (Nat.ne_of_gt hlt)
  · have hlast := hs.alike_iterate ht hroom hheap hargs hret (Nat.lt_succ_self k) hpos
    rw [Function.iterate_succ_apply'] at hrun hback
    rw [Function.iterate_succ_apply', Function.iterate_succ_apply']
    rw [← hs.height, ← ht.height] at hroom
    rcases hlast.step hroom hrun with hin | ⟨heap, name', pc, value, hgive, hgive'⟩
    · exact absurd hback (Nat.ne_of_gt hin.height_lt.1)
    · exact ⟨heap, _, _, name', pc, value, hgive, hgive'⟩

end

/-- Two reachable sessions make the same call, with the same arguments and on heaps that hold the same; the limits
are the same, and the second session may open as many frames as the first. If the call of the first returns after `n`
steps, so does that of the second, provided that its caller has room for a value where it gave no argument. Both get
the same value, and up to then the frames above the two callers are the same, and so are the heaps. -/
theorem call_alike_in_context (hs : s.Reachable p c) (ht : t.Reachable p d)
    (hcall : s.AtCall p name argc caller callers) (hcall' : t.AtCall p name argc caller' callers')
    (hroom : c.AllowedAbove s.frames.height d t.frames.height) (hheap : s.heap.contents = t.heap.contents)
    (hargs : caller.stack.toList.take argc.toNat = caller'.stack.toList.take argc.toNat)
    (hvalue : argc = 0 → caller'.stack.height < d.operandStack) (hret : s.ReturnsAfter p c n) :
    t.ReturnsAfter p d n ∧
      (∃ value, ((Session.step p c)^[n] s).frames = callers.push ((caller.waiting argc).receive value) ∧
        ((Session.step p d)^[n] t).frames = callers'.push ((caller'.waiting argc).receive value)) ∧
      ((Session.step p c)^[n] s).heap = ((Session.step p d)^[n] t).heap ∧
      ∀ k < n, 0 < k → Alike (callers.push (caller.waiting argc)) (callers'.push (caller'.waiting argc))
        ((Session.step p c)^[k] s) ((Session.step p d)^[k] t) := by
  have heq : s.heap = t.heap := Heap.eq_of_contents hs.counted ht.counted hheap
  have halike : ∀ k < n, 0 < k → Alike (callers.push (caller.waiting argc)) (callers'.push (caller'.waiting argc))
      ((Session.step p c)^[k] s) ((Session.step p d)^[k] t) :=
    fun k hk hpos => hcall.alike_iterate hcall' hroom heq hargs hret hk hpos
  have henter := hcall.alike_step hcall' hroom heq hargs (running_of_iterate hret.running hret.pos)
  obtain ⟨heap, steps, steps', name', pc, value, hgive, hgive'⟩ := hcall.give_iterate hcall' hroom heq hargs hret
  have hrun := hret.running
  rw [hgive] at hrun
  rw [give_push_of_running hrun] at hgive
  rw [give_push, if_pos (hcall'.room ht.bounded henter.running' hvalue)] at hgive'
  rw [hgive, hgive']
  refine ⟨⟨hret.pos, ?_, ?_, ?_⟩, ⟨value, rfl, rfl⟩, rfl, halike⟩
  · rw [hgive']
  · rw [hgive']
    exact hcall'.height
  · intro k hk hpos
    rw [← hcall'.height]
    exact Nat.ne_of_gt (halike k hk hpos).height_lt.2

end Session

end

/-- A small program: `main` calls `mix`, which calls a method that allocates an array and doubles its argument. -/
def Program.mixing : Program where
  methods := #[⟨"main", 0, 0, #[.pushConst 9, .pushConst (-7), .invokeStatic "mix" 2, .ret], by decide +kernel⟩,
    ⟨"mix", 2, 2, #[.loadLocal 0, .loadLocal 1, .invokeStatic "double" 1, .arith .add, .ret], by decide +kernel⟩,
    ⟨"double", 1, 1, #[.pushConst 1, .newArray, .pop, .loadLocal 0, .dup, .arith .add, .ret], by decide +kernel⟩]
  distinct := by decide +kernel

/-- The inner call, made once under `main` and once by `mix` as the entry method with another first argument. -/
theorem Session.call_alike_mixing :
    (after .mixing {} "main" [] 5).ReturnsAfter .mixing {} 8 ∧
      (after .mixing {} "mix" [4, -7] 2).ReturnsAfter .mixing {} 8 ∧
      ∃ value, ((step .mixing {})^[8] (after .mixing {} "main" [] 5)).frames =
          (Stack.empty.push ⟨0, 3, .zeros 0, .empty⟩).push ⟨1, 3, .ofList 2 [9, -7], (Stack.empty.push 9).push value⟩ ∧
        ((step .mixing {})^[8] (after .mixing {} "mix" [4, -7] 2)).frames =
          Stack.empty.push ⟨1, 3, .ofList 2 [4, -7], (Stack.empty.push 4).push value⟩ := by
  have hcall : (after .mixing {} "main" [] 5).AtCall .mixing "double" 1
      ⟨1, 2, .ofList 2 [9, -7], (Stack.empty.push 9).push (-7)⟩ (Stack.empty.push ⟨0, 3, .zeros 0, .empty⟩) :=
    ⟨by decide +kernel, by decide +kernel, Program.mixing.method ⟨1, by decide⟩, by decide +kernel⟩
  have hcall' : (after .mixing {} "mix" [4, -7] 2).AtCall .mixing "double" 1
      ⟨1, 2, .ofList 2 [4, -7], (Stack.empty.push 4).push (-7)⟩ .empty :=
    ⟨by decide +kernel, by decide +kernel, Program.mixing.method ⟨1, by decide⟩, by decide +kernel⟩
  have hret : (after .mixing {} "main" [] 5).ReturnsAfter .mixing {} 8 :=
    ⟨by decide, by decide +kernel, by decide +kernel, by decide +kernel⟩
  have hroom : Limits.AllowedAbove {} (after .mixing {} "main" [] 5).frames.height {}
      (after .mixing {} "mix" [4, -7] 2).frames.height := ⟨rfl, rfl, by decide +kernel⟩
  obtain ⟨hret', hvalue, -⟩ := call_alike_in_context ⟨"main", [], 5, rfl⟩ ⟨"mix", [4, -7], 2, rfl⟩ hcall hcall' hroom
    (by decide +kernel) (by decide +kernel) (by decide) hret
  exact ⟨hret, hret', hvalue⟩

end StackMachine
