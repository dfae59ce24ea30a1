import Mathlib.Logic.Function.Iterate
import StackMachine.Session.Step

/-! Runs: the session after a number of steps, and what one step of a running session does. -/

namespace StackMachine

theorem Status.isHalted_of_ne_running {status : Status} (h : status ≠ .running) : status.isHalted = true := by
  cases status with
  | running => exact absurd rfl h
  | returned value => rfl
  | faulted fault => rfl

namespace Session

section
variable {p : Program} {limits : Limits} {s : Session}

/-- The session of an entry method after `n` steps. Steps of a halted session count, and change nothing. -/
def after (p : Program) (limits : Limits) (entry : String) (args : List Int32) (n : Nat) : Session :=
  (step p limits)^[n] (start p limits entry args)

@[simp] theorem after_zero (entry : String) (args : List Int32) : after p limits entry args 0 = start p limits entry args :=
  rfl

theorem after_succ (entry : String) (args : List Int32) (n : Nat) :
    after p limits entry args (n + 1) = (after p limits entry args n).step p limits :=
  Function.iterate_succ_apply' _ _ _

/-- A session that some entry method gets to. -/
def Reachable (p : Program) (limits : Limits) (s : Session) : Prop :=
  ∃ entry args n, s = after p limits entry args n

/-- What holds at the start and is kept by every step holds throughout a run. -/
theorem after_induction {P : Session → Prop} {entry : String} {args : List Int32} (hstart : P (start p limits entry args))
    (hstep : ∀ s, P s → P (s.step p limits)) (n : Nat) : P (after p limits entry args n) :=
  Function.Iterate.rec P hstart hstep n

/-! ### One step -/

theorem step_of_halted (h : s.status.isHalted = true) : s.step p limits = s := by
  obtain ⟨frames, heap, steps, status⟩ := s
  cases status with
  | running => cases h
  | returned value => rfl
  | faulted fault => rfl

@[simp] theorem steps_apply (callers : Stack Frame) (steps : Nat) (name : String) (pc : Nat) (e : Effect) :
    (apply limits callers steps name pc e).steps = steps := by
  cases e with
  | give value heap =>
    simp only [apply, give]
    cases callers.pop? with
    | none => rfl
    | some popped =>
      simp only
      cases popped.1.push limits.operandStack value <;> rfl
  | _ => rfl

/-- The step of a running session is the effect of the instruction of its active frame. -/
theorem step_eq_apply {f : Frame} {callers : Stack Frame} {m : Method} {i : Instruction} (hrun : s.status = .running)
    (hf : s.frames = callers.push f) (hi : p.fetch? f = some (m, i)) :
    s.step p limits = apply limits callers (s.steps + 1) m.name f.pc
      (.ofInstruction p limits (callers.height + 1) s.heap f i) := by
  obtain ⟨frames, heap, steps, status⟩ := s
  cases hrun
  have hpop : frames.pop? = some (f, callers) := Stack.pop?_eq_some_iff.mpr hf
  simp only [step, hpop, hi]

theorem step_of_fetch?_eq_none {f : Frame} {callers : Stack Frame} (hrun : s.status = .running)
    (hf : s.frames = callers.push f) (hi : p.fetch? f = none) : s.step p limits = s := by
  obtain ⟨frames, heap, steps, status⟩ := s
  cases hrun
  have hpop : frames.pop? = some (f, callers) := Stack.pop?_eq_some_iff.mpr hf
  simp only [step, hpop, hi]
  rw [← hf]

/-- A step does nothing, or it is the effect of the instruction of the active frame. -/
theorem step_eq_self_or_apply {f : Frame} {callers : Stack Frame} (hf : s.frames = callers.push f) :
    s.step p limits = s ∨ ∃ m i, s.status = .running ∧ p.fetch? f = some (m, i) ∧
      s.step p limits = apply limits callers (s.steps + 1) m.name f.pc
        (.ofInstruction p limits (callers.height + 1) s.heap f i) := by
  by_cases hrun : s.status = .running
  · cases hi : p.fetch? f with
    | none => exact Or.inl (step_of_fetch?_eq_none hrun hf hi)
    | some fetched => exact Or.inr ⟨fetched.1, fetched.2, hrun, rfl, step_eq_apply hrun hf hi⟩
  · exact Or.inl (step_of_halted (Status.isHalted_of_ne_running hrun))

theorem iterate_of_halted (h : s.status.isHalted = true) (n : Nat) : (step p limits)^[n] s = s :=
  Function.iterate_fixed (step_of_halted h) n

/-- A session that runs has been running before. -/
theorem running_of_iterate {n k : Nat} (h : ((step p limits)^[n] s).status = .running) (hk : k ≤ n) :
    ((step p limits)^[k] s).status = .running := by
  by_contra hhalt
  obtain ⟨j, rfl⟩ := Nat.exists_eq_add_of_le' hk
  rw [Function.iterate_add_apply, iterate_of_halted (Status.isHalted_of_ne_running hhalt)] at h
  exact hhalt h

/-- The loop that executes up to `n` instructions is `n` steps. -/
theorem advance_eq_iterate (n : Nat) (s : Session) : s.advance p limits n = (step p limits)^[n] s := by
  induction n generalizing s with
  | zero => rfl
  | succ n ih =>
    rw [Function.iterate_succ_apply, ← ih]
    by_cases h : s.status.isHalted = true
    · rw [advance_of_halted p limits h, step_of_halted h, advance_of_halted p limits h]
    · rw [advance, if_neg h]

/-! ### Running to the end -/

/-- Stepping a session for as long as it runs ends at `t`. -/
inductive RunsTo (p : Program) (limits : Limits) : Session → Session → Prop
  | halted {s : Session} : s.status.isHalted = true → RunsTo p limits s s
  | step {s t : Session} : s.status = .running → RunsTo p limits (s.step p limits) t → RunsTo p limits s t

theorem RunsTo.eq {t t' : Session} (h : RunsTo p limits s t) (h' : RunsTo p limits s t') : t = t' := by
  induction h with
  | halted hhalt =>
    cases h' with
    | halted _ => rfl
    | step hrun _ =>
      rw [hrun] at hhalt
      cases hhalt
  | step hrun _ ih =>
    cases h' with
    | halted hhalt =>
      rw [hrun] at hhalt
      cases hhalt
    | step _ h' => exact ih h'

theorem runsTo_iterate {n : Nat} (h : ((step p limits)^[n] s).status.isHalted = true) :
    RunsTo p limits s ((step p limits)^[n] s) := by
  induction n generalizing s with
  | zero => exact .halted h
  | succ n ih =>
    by_cases hrun : s.status = .running
    · exact .step hrun (ih h)
    · have hhalt := Status.isHalted_of_ne_running hrun
      rw [iterate_of_halted hhalt]
      exact .halted hhalt

end

end Session

end StackMachine
