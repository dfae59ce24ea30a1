import StackMachine.Proofs.Session.Bounds
import StackMachine.Session.Outcome

/-! Budgets. A budget is a number of steps, cut at the greatest count. A running session counts every step, so what a
budget has left over when it is split is what the second part has: the parts lead where the whole does. A session that
halts within a budget ends where it would end without one. -/

namespace StackMachine

namespace Session

section
variable {p : Program} {limits : Limits} {s : Session} {n : Nat}

/-! ### Counting steps -/

theorem Bounded.steps_step (h : s.Bounded p limits) (hrun : s.status = .running) :
    (s.step p limits).steps = s.steps + 1 := by
  obtain ⟨f, callers, m, i, hf, -, hi, -⟩ := h.active hrun
  rw [step_eq_apply hrun hf hi, steps_apply]

theorem Bounded.iterate (h : s.Bounded p limits) (n : Nat) : ((Session.step p limits)^[n] s).Bounded p limits :=
  Function.Iterate.rec (Bounded p limits) h (fun _ h => h.step) n

theorem Bounded.steps_iterate (h : s.Bounded p limits) (hrun : ((Session.step p limits)^[n] s).status = .running) :
    ((Session.step p limits)^[n] s).steps = s.steps + n := by
  induction n with
  | zero => rfl
  | succ n ih =>
    have hprev := running_of_iterate hrun (Nat.le_succ n)
    rw [Function.iterate_succ_apply', (h.iterate n).steps_step hprev, ih hprev, Nat.add_assoc]

theorem steps_start (entry : String) (args : List Int32) : (start p limits entry args).steps = 0 := by
  unfold start
  split
  · rfl
  · rfl

theorem steps_after_of_running {entry : String} {args : List Int32} (hrun : (after p limits entry args n).status = .running) :
    (after p limits entry args n).steps = n := by
  have hsteps := (bounded_start entry args).steps_iterate hrun
  rw [steps_start, Nat.zero_add] at hsteps
  exact hsteps

/-! ### Budgets in sequence -/

theorem runFor_eq_iterate (budget : Nat) (s : Session) :
    s.runFor p limits budget = (step p limits)^[s.allowance budget] s := by
  rw [runFor_eq_advance, advance_eq_iterate]

theorem runFor_of_halted (h : s.status.isHalted = true) (budget : Nat) : s.runFor p limits budget = s := by
  rw [runFor_eq_iterate, iterate_of_halted h]

/-- The loop of a budget: stepping a session while it runs and has counted fewer steps than the bound ends at `t`. -/
inductive LoopsTo (p : Program) (limits : Limits) (bound : Nat) : Session → Session → Prop
  | stop {s : Session} : ¬(s.status = .running ∧ s.steps < bound) → LoopsTo p limits bound s s
  | step {s t : Session} : s.status = .running ∧ s.steps < bound → LoopsTo p limits bound (s.step p limits) t →
    LoopsTo p limits bound s t

theorem LoopsTo.eq {bound : Nat} {t t' : Session} (h : LoopsTo p limits bound s t) (h' : LoopsTo p limits bound s t') :
    t = t' := by
  induction h with
  | stop hstop =>
    cases h' with
    | stop _ => rfl
    | step hgo _ => exact absurd hgo hstop
  | step hgo _ ih =>
    cases h' with
    | stop hstop => exact absurd hgo hstop
    | step _ h' => exact ih h'

theorem Bounded.loopsTo_iterate (h : s.Bounded p limits) (n : Nat) :
    LoopsTo p limits (s.steps + n) s ((Session.step p limits)^[n] s) := by
  induction n generalizing s with
  | zero => exact .stop fun hgo => Nat.lt_irrefl _ hgo.2
  | succ n ih =>
    by_cases hrun : s.status = .running
    · -- Each round of the loop counts one step, and has one less to go.
      have hrest := ih h.step
      rw [h.steps_step hrun, Nat.add_right_comm] at hrest
      exact .step ⟨hrun, Nat.lt_add_of_pos_right n.succ_pos⟩ hrest
    · rw [iterate_of_halted (Status.isHalted_of_ne_running hrun)]
      exact .stop fun hgo => hrun hgo.1

/-- A budget leads to where the loop ends whose bound is the count of now and the budget, cut at the greatest count. -/
theorem Bounded.loopsTo_iff (h : s.Bounded p limits) {budget : Nat} {t : Session} :
    LoopsTo p limits (min (s.steps + budget) maxSteps) s t ↔ t = s.runFor p limits budget := by
  have hloop : LoopsTo p limits (min (s.steps + budget) maxSteps) s (s.runFor p limits budget) := by
    rw [runFor_eq_iterate]
    by_cases hle : s.steps ≤ maxSteps
    · have hbound : min (s.steps + budget) maxSteps = s.steps + s.allowance budget := by
        unfold allowance
        omega
      rw [hbound]
      exact h.loopsTo_iterate _
    · have hnone : s.allowance budget = 0 := by
        unfold allowance
        omega
      rw [hnone]
      exact .stop fun hgo => by omega
  exact ⟨fun ht => ht.eq hloop, fun ht => ht ▸ hloop⟩

/-- From the count that a budget leads to, the next one allows what is missing to their sum. -/
theorem allowance_add (a b : Nat) {t : Session} (ht : t.steps = s.steps + s.allowance a) :
    t.allowance b + s.allowance a = s.allowance (min (a + b) maxSteps) := by
  unfold allowance at ht ⊢
  omega

theorem Bounded.runFor_runFor (h : s.Bounded p limits) (a b : Nat) :
    (s.runFor p limits a).runFor p limits b = s.runFor p limits (min (a + b) maxSteps) := by
  rw [runFor_eq_iterate a, runFor_eq_iterate (min (a + b) maxSteps)]
  by_cases hrun : ((Session.step p limits)^[s.allowance a] s).status = .running
  · rw [runFor_eq_iterate, ← Function.iterate_add_apply, allowance_add a b (h.steps_iterate hrun)]
  -- The session has halted before it counted all that the first budget allows.
  · have hhalt := Status.isHalted_of_ne_running hrun
    have hsum := allowance_add a b (s := s) (t := { s with steps := s.steps + s.allowance a }) rfl
    rw [runFor_of_halted hhalt, ← hsum, Function.iterate_add_apply, iterate_of_halted hhalt]

theorem runFor_start {budget : Nat} (hb : budget ≤ maxSteps) (entry : String) (args : List Int32) :
    (start p limits entry args).runFor p limits budget = after p limits entry args budget := by
  have hall : (start p limits entry args).allowance budget = budget := by
    unfold allowance
    rw [steps_start]
    omega
  rw [runFor_eq_iterate, hall]
  rfl

theorem after_eq_of_halted {entry : String} {args : List Int32} (h : (after p limits entry args n).status.isHalted = true)
    {k : Nat} (hk : n ≤ k) : after p limits entry args k = after p limits entry args n := by
  obtain ⟨j, rfl⟩ := Nat.exists_eq_add_of_le' hk
  rw [after, Function.iterate_add_apply]
  exact iterate_of_halted h j

/-- A run that ends within the steps that can be counted ends there. -/
theorem run_start_of_halted {entry : String} {args : List Int32} (hn : n ≤ maxSteps)
    (h : (after p limits entry args n).status.isHalted = true) :
    (start p limits entry args).run p limits = after p limits entry args n := by
  rw [run, runFor_start (Nat.le_refl _), after_eq_of_halted h hn]

/-! ### Outcomes -/

theorem outcome_eq_returned_iff {value : Int32} : s.outcome = .returned value ↔ s.status = .returned value := by
  unfold outcome
  cases s.status <;> simp

theorem outcome_eq_faulted_iff {fault : Fault} : s.outcome = .faulted fault ↔ s.status = .faulted fault := by
  unfold outcome
  cases s.status <;> simp

theorem outcome_eq_exhausted_iff {steps : Nat} : s.outcome = .exhausted steps ↔ s.status = .running ∧ steps = s.steps := by
  unfold outcome
  cases s.status <;> simp [eq_comm]

theorem execute_eq_outcome {budget : Nat} (hb : budget ≤ maxSteps) (entry : String) (args : List Int32) :
    p.execute ⟨limits, some budget⟩ entry args = (after p limits entry args budget).outcome :=
  congrArg outcome (runFor_start hb entry args)

theorem runsTo_start_iff {entry : String} {args : List Int32} (h : (after p limits entry args n).status.isHalted = true)
    {status : Status} : (∃ t, RunsTo p limits (start p limits entry args) t ∧ t.status = status) ↔
      (after p limits entry args n).status = status := by
  constructor
  · rintro ⟨t, ht, rfl⟩
    rw [ht.eq (runsTo_iterate h)]
    rfl
  · exact fun hstatus => ⟨_, runsTo_iterate h, hstatus⟩

/-- Budgets split and add up: from any state of any session, a budget leads to where the loop over the step counter
ends, one budget and then another lead where their sum leads, cut at the greatest count, and nothing changes a session
that has halted. A session is exhausted under a budget
exactly if it runs after as many steps, all of which it has counted. Otherwise it ends as it does when it is stepped
until it halts, which is what the run without a budget finds, and under every larger budget as well. -/
theorem budgets_split_and_extend (p : Program) (limits : Limits) (entry : String) (args : List Int32) :
    (∀ n b t, LoopsTo p limits (min ((after p limits entry args n).steps + b) maxSteps) (after p limits entry args n) t ↔
      t = (after p limits entry args n).runFor p limits b) ∧
    (∀ n a b, ((after p limits entry args n).runFor p limits a).runFor p limits b =
      (after p limits entry args n).runFor p limits (min (a + b) maxSteps)) ∧
    (∀ n, (after p limits entry args n).status.isHalted = true →
      (after p limits entry args n).step p limits = after p limits entry args n ∧
      (∀ b, (after p limits entry args n).runFor p limits b = after p limits entry args n) ∧
      (after p limits entry args n).run p limits = after p limits entry args n) ∧
    ∀ b : UInt64,
      (∀ steps, p.execute ⟨limits, some b.toNat⟩ entry args = .exhausted steps ↔
        (after p limits entry args b.toNat).status = .running ∧ steps = b.toNat) ∧
      ((after p limits entry args b.toNat).status ≠ .running →
        (∀ value, p.execute ⟨limits, some b.toNat⟩ entry args = .returned value ↔
          ∃ t, RunsTo p limits (start p limits entry args) t ∧ t.status = .returned value) ∧
        (∀ fault, p.execute ⟨limits, some b.toNat⟩ entry args = .faulted fault ↔
          ∃ t, RunsTo p limits (start p limits entry args) t ∧ t.status = .faulted fault) ∧
        RunsTo p limits (start p limits entry args) ((start p limits entry args).run p limits) ∧
        ∀ b' : UInt64, b ≤ b' →
          p.execute ⟨limits, some b'.toNat⟩ entry args = p.execute ⟨limits, some b.toNat⟩ entry args) := by
  have hcount : ∀ b : UInt64, b.toNat ≤ maxSteps := fun b => Nat.le_of_lt_succ b.toNat_lt
  refine ⟨fun n b t => (bounded_after entry args n).loopsTo_iff,
    fun n a b => (bounded_after entry args n).runFor_runFor a b, ?_, fun b => ⟨?_, ?_⟩⟩
  · intro n hhalt
    exact ⟨step_of_halted hhalt, runFor_of_halted hhalt, runFor_of_halted hhalt maxSteps⟩
  · intro steps
    rw [execute_eq_outcome (hcount b), outcome_eq_exhausted_iff]
    refine and_congr_right fun hrun => ?_
    rw [steps_after_of_running hrun]
  · intro hstop
    have hhalt := Status.isHalted_of_ne_running hstop
    refine ⟨fun value => ?_, fun fault => ?_, ?_, fun b' hle => ?_⟩
    · rw [execute_eq_outcome (hcount b), outcome_eq_returned_iff, runsTo_start_iff hhalt]
    · rw [execute_eq_outcome (hcount b), outcome_eq_faulted_iff, runsTo_start_iff hhalt]
    · rw [run_start_of_halted (hcount b) hhalt]
      exact runsTo_iterate hhalt
    · rw [execute_eq_outcome (hcount b), execute_eq_outcome (hcount b'),
        after_eq_of_halted hhalt (UInt64.le_iff_toNat_le.mp hle)]

end

end Session

end StackMachine
