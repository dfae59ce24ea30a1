import Mathlib.Data.Int.ModEq
import StackMachine.Proofs.Session.Context
import StackMachine.Proofs.Session.Operations

/-! Arithmetic and comparisons, over the integers. An operation takes the integers that its operands stand for, and
leaves the integer result reduced modulo `2 ^ 32`; a comparison leaves one or zero. In a reachable session the result
finds room where an operand was, and nothing else of the session changes. -/

namespace StackMachine

/-- The value is this integer, reduced modulo `2 ^ 32` into the range of the values. -/
structure Reduces (n : Int) (value : Int32) : Prop where
  lower : -2 ^ 31 ≤ value.toInt
  upper : value.toInt < 2 ^ 31
  modEq : value.toInt ≡ n [ZMOD 2 ^ 32]

namespace Reduces

variable {n : Int} {value value' : Int32}

theorem of_modEq (h : value.toInt ≡ n [ZMOD 2 ^ 32]) : Reduces n value :=
  ⟨value.le_toInt, value.toInt_lt, h⟩

theorem of_eq (h : value.toInt = n) : Reduces n value :=
  of_modEq (by rw [h])

theorem of_eq_bmod (h : value.toInt = n.bmod (2 ^ 32)) : Reduces n value := by
  refine of_modEq ?_
  rw [h]
  exact Int.bmod_emod

theorem unique (h : Reduces n value) (h' : Reduces n value') : value = value' := by
  have hmod : value.toInt % 2 ^ 32 = value'.toInt % 2 ^ 32 := h.modEq.trans h'.modEq.symm
  have hlow := h.lower
  have hhigh := h.upper
  have hlow' := h'.lower
  have hhigh' := h'.upper
  exact Int32.toInt_inj.mp (by omega)

end Reduces

/-! ### Operations -/

namespace Arith

/-- The integer result. Quotients and remainders go toward zero. -/
def exact : Arith → Int → Int → Int
  | add, a, b => a + b
  | sub, a, b => a - b
  | mul, a, b => a * b
  | div, a, b => a.tdiv b
  | rem, a, b => a.tmod b

/-- Whether there is no result for a zero on the right. -/
def divides : Arith → Bool
  | div | rem => true
  | _ => false

variable {op : Arith}

theorem apply_zero (h : op.divides = true) (a : Int32) : op.apply a 0 = .error .divisionByZero := by
  cases op with
  | div => rfl
  | rem => rfl
  | add => cases h
  | sub => cases h
  | mul => cases h

theorem apply_reduces {a b : Int32} (h : op.divides = true → b ≠ 0) :
    ∃ value, op.apply a b = .ok value ∧ Reduces (op.exact a.toInt b.toInt) value := by
  cases op with
  | add => exact ⟨a + b, rfl, .of_eq_bmod (a.toInt_add b)⟩
  | sub => exact ⟨a - b, rfl, .of_eq_bmod (a.toInt_sub b)⟩
  | mul => exact ⟨a * b, rfl, .of_eq_bmod (a.toInt_mul b)⟩
  | div => exact ⟨a / b, if_neg (h rfl), .of_eq_bmod (a.toInt_div b)⟩
  | rem => exact ⟨a % b, if_neg (h rfl), .of_eq (a.toInt_mod b)⟩

end Arith

/-- These are a quotient and a remainder of `a` by `b` toward zero, up to multiples of `2 ^ 32`. -/
structure Divided (a b quotient remainder : Int) : Prop where
  parts : quotient * b + remainder ≡ a [ZMOD 2 ^ 32]
  smaller : remainder.natAbs < b.natAbs
  sign : remainder = 0 ∨ remainder.sign = a.sign
  /-- The one quotient that is out of range. -/
  least : a = -2 ^ 31 → b = -1 → quotient = -2 ^ 31 ∧ remainder = 0

theorem divided_of_reduces {a b quotient remainder : Int32} (hb : b ≠ 0)
    (hq : Reduces (a.toInt.tdiv b.toInt) quotient) (hr : Reduces (a.toInt.tmod b.toInt) remainder) :
    Divided a.toInt b.toInt quotient.toInt remainder.toInt := by
  have hb' : b.toInt ≠ 0 := fun h => hb (Int32.toInt_inj.mp h)
  -- A remainder is in range before any reduction.
  have hrem : remainder.toInt = a.toInt.tmod b.toInt := by
    rw [hr.unique (.of_eq (a.toInt_mod b)), a.toInt_mod b]
  constructor
  · have hparts := (hq.modEq.mul_right b.toInt).add hr.modEq
    rwa [Int.tdiv_mul_add_tmod] at hparts
  · rw [hrem, Int.natAbs_tmod]
    exact Nat.mod_lt _ (Int.natAbs_pos.mpr hb')
  · have hsign := Int.sign_tmod a.toInt b.toInt
    rw [← hrem] at hsign
    split at hsign
    · exact Or.inl (Int.sign_eq_zero_iff_zero.mp hsign)
    · exact Or.inr hsign
  · intro ha hb
    rw [ha, hb] at hq hrem
    have hleast : quotient = Int32.minValue := hq.unique (.of_modEq (by decide))
    exact ⟨by rw [hleast]; rfl, hrem⟩

namespace Comparison

/-- The relation of the integers. -/
def Relates : Comparison → Int → Int → Prop
  | eq, a, b => a = b
  | ne, a, b => a ≠ b
  | lt, a, b => a < b
  | le, a, b => a ≤ b
  | gt, a, b => a > b
  | ge, a, b => a ≥ b

instance : (op : Comparison) → (a b : Int) → Decidable (op.Relates a b)
  | eq, a, b => inferInstanceAs (Decidable (a = b))
  | ne, a, b => inferInstanceAs (Decidable (a ≠ b))
  | lt, a, b => inferInstanceAs (Decidable (a < b))
  | le, a, b => inferInstanceAs (Decidable (a ≤ b))
  | gt, a, b => inferInstanceAs (Decidable (a > b))
  | ge, a, b => inferInstanceAs (Decidable (a ≥ b))

theorem apply_eq (op : Comparison) (a b : Int32) :
    op.apply a b = if op.Relates a.toInt b.toInt then 1 else 0 := by
  cases op with
  | eq => exact if_congr (decide_eq_true_iff.trans Int32.toInt_inj.symm) rfl rfl
  | ne => exact if_congr (decide_eq_true_iff.trans (not_congr Int32.toInt_inj.symm)) rfl rfl
  | lt => exact if_congr (decide_eq_true_iff.trans Int32.lt_iff_toInt_lt) rfl rfl
  | le => exact if_congr (decide_eq_true_iff.trans Int32.le_iff_toInt_le) rfl rfl
  | gt => exact if_congr (decide_eq_true_iff.trans Int32.lt_iff_toInt_lt) rfl rfl
  | ge => exact if_congr (decide_eq_true_iff.trans Int32.le_iff_toInt_le) rfl rfl

end Comparison

/-! ### Steps -/

namespace Session

/-- The session after its active frame has moved on to the next instruction with another operand stack. -/
def proceed (s : Session) (callers : Stack Frame) (f : Frame) (stack : Stack Int32) : Session :=
  { s with frames := callers.push { f with pc := f.pc + 1, stack := stack }, steps := s.steps + 1, status := .running }

/-- The session after an instruction of its active frame has taken operands from the stack, and faulted. -/
def failWith (s : Session) (callers : Stack Frame) (f : Frame) (stack : Stack Int32) (fault : Fault) : Session :=
  { s with frames := callers.push { f with stack := stack }, steps := s.steps + 1, status := .faulted fault }

variable {p : Program} {limits : Limits} {s : Session} {f : Frame} {callers : Stack Frame} {m : Method} {i : Instruction}
  {rest : Stack Int32} {a b : Int32}

/-- An arithmetic instruction leaves the reduced result, unless it divides by zero. -/
theorem step_arith {op : Arith} (hrun : s.status = .running) (hf : s.frames = callers.push f)
    (hi : p.fetch? f = some (m, .arith op)) (hstack : f.stack = (rest.push a).push b) :
    (op.divides = true ∧ b = 0 →
      s.step p limits = s.failWith callers f rest ⟨.divisionByZero, some ⟨m.name, f.pc⟩⟩) ∧
    (¬(op.divides = true ∧ b = 0) → ∃ value, Reduces (op.exact a.toInt b.toInt) value ∧
      s.step p limits = s.proceed callers f (rest.push value)) := by
  have hstep : s.step p limits = apply limits callers (s.steps + 1) m.name f.pc
      (.replace s.heap f rest (op.apply a b)) := by
    rw [step_eq_apply hrun hf hi, Effect.ofInstruction, Stack.pop2?_eq_some_iff.mpr hstack]
  constructor
  · rintro ⟨hop, rfl⟩
    rw [hstep, Arith.apply_zero hop]
    rfl
  · intro h
    obtain ⟨value, hvalue, hreduces⟩ := Arith.apply_reduces (a := a) fun hop hb => h ⟨hop, hb⟩
    refine ⟨value, hreduces, ?_⟩
    rw [hstep, hvalue]
    rfl

theorem step_compare {op : Comparison} (hrun : s.status = .running) (hf : s.frames = callers.push f)
    (hi : p.fetch? f = some (m, .compare op)) (hstack : f.stack = (rest.push a).push b) :
    s.step p limits = s.proceed callers f (rest.push (if op.Relates a.toInt b.toInt then 1 else 0)) := by
  rw [step_eq_apply hrun hf hi, Effect.ofInstruction, Stack.pop2?_eq_some_iff.mpr hstack, ← op.apply_eq]
  rfl

theorem step_neg (hrun : s.status = .running) (hf : s.frames = callers.push f)
    (hi : p.fetch? f = some (m, .neg)) (hstack : f.stack = rest.push a) :
    s.step p limits = s.proceed callers f (rest.push (-a)) := by
  rw [step_eq_apply hrun hf hi, Effect.ofInstruction, Stack.pop?_eq_some_iff.mpr hstack]
  rfl

/-- The step is that of the operations of the instruction, the push of the result with its check of the room included,
and it computes what the instruction says of integers. -/
theorem step_computes (hs : s.Reachable p limits) (hrun : s.status = .running) (hf : s.frames = callers.push f)
    (hi : p.fetch? f = some (m, i)) :
    s.step p limits = apply limits callers (s.steps + 1) m.name f.pc
      (Operation.effect (Operation.ofInstruction p limits s.frames.height i) f s.heap) ∧
    (∀ (op : Arith) (a b : Int32) (rest : Stack Int32), i = .arith op → f.stack = (rest.push a).push b →
      (op.divides = true ∧ b = 0 →
        s.step p limits = s.failWith callers f rest ⟨.divisionByZero, some ⟨m.name, f.pc⟩⟩) ∧
      (¬(op.divides = true ∧ b = 0) → ∃ value, Reduces (op.exact a.toInt b.toInt) value ∧
        s.step p limits = s.proceed callers f (rest.push value))) ∧
    (∀ a b quotient remainder : Int32, b ≠ 0 → Reduces (Arith.div.exact a.toInt b.toInt) quotient →
      Reduces (Arith.rem.exact a.toInt b.toInt) remainder →
      Divided a.toInt b.toInt quotient.toInt remainder.toInt) ∧
    (∀ (op : Comparison) (a b : Int32) (rest : Stack Int32), i = .compare op → f.stack = (rest.push a).push b →
      s.step p limits = s.proceed callers f (rest.push (if op.Relates a.toInt b.toInt then 1 else 0))) ∧
    (∀ (a : Int32) (rest : Stack Int32), i = .neg → f.stack = rest.push a → ∃ value, Reduces (-a.toInt) value ∧
      s.step p limits = s.proceed callers f (rest.push value)) := by
  refine ⟨?_, ?_, ?_, ?_, ?_⟩
  · -- The bound on the stack of the active frame is where reachability comes in.
    obtain ⟨_, hfits⟩ := hs.bounded.frames f (by rw [hf]; exact List.mem_cons_self)
    exact step_eq_operations hrun hf hfits.height hi
  · rintro op a b rest rfl hstack
    exact step_arith hrun hf hi hstack
  · intro a b quotient remainder hb hq hr
    exact divided_of_reduces hb hq hr
  · rintro op a b rest rfl hstack
    exact step_compare hrun hf hi hstack
  · rintro a rest rfl hstack
    exact ⟨-a, .of_eq_bmod a.toInt_neg, step_neg hrun hf hi hstack⟩

end Session

/-- A small program: it divides its first argument by its second. -/
def Program.dividing : Program where
  methods := #[⟨"quotient", 2, 2, #[.loadLocal 0, .loadLocal 1, .arith .div, .ret], by decide +kernel⟩]
  distinct := by decide +kernel

namespace Session

/-- The session that divides next, on a stack with no more room. -/
def dividing (a b : Int32) : Session :=
  after .dividing ⟨1, 2, 0⟩ "quotient" [a, b] 2

/-- The least value divided by minus one stays as it is, and by zero it is a fault. -/
theorem step_computes_dividing :
    (dividing (-2147483648) (-1)).Reachable .dividing ⟨1, 2, 0⟩ ∧
      (dividing (-2147483648) 0).Reachable .dividing ⟨1, 2, 0⟩ ∧
      (∃ value, Reduces (2 ^ 31) value ∧ value = -2147483648 ∧ (dividing (-2147483648) (-1)).step .dividing ⟨1, 2, 0⟩ =
        (dividing (-2147483648) (-1)).proceed .empty
          ⟨0, 2, .ofList 2 [-2147483648, -1], (Stack.empty.push (-2147483648)).push (-1)⟩ (Stack.empty.push value)) ∧
      ((dividing (-2147483648) 0).step .dividing ⟨1, 2, 0⟩).status =
        .faulted ⟨.divisionByZero, some ⟨"quotient", 2⟩⟩ := by
  have hs : ∀ a b, (dividing a b).Reachable .dividing ⟨1, 2, 0⟩ := fun a b => ⟨"quotient", [a, b], 2, rfl⟩
  have hf : (dividing (-2147483648) (-1)).frames = Stack.empty.push
      ⟨0, 2, .ofList 2 [-2147483648, -1], (Stack.empty.push (-2147483648)).push (-1)⟩ := by decide +kernel
  have hf' : (dividing (-2147483648) 0).frames = Stack.empty.push
      ⟨0, 2, .ofList 2 [-2147483648, 0], (Stack.empty.push (-2147483648)).push 0⟩ := by decide +kernel
  obtain ⟨-, harith, -⟩ := step_computes (hs _ _) (by decide +kernel) hf rfl
  obtain ⟨-, hzero, -⟩ := step_computes (hs _ _) (by decide +kernel) hf' rfl
  obtain ⟨value, hreduces, hstep⟩ := (harith .div _ _ _ rfl rfl).2 (by decide)
  refine ⟨hs _ _, hs _ _, ⟨value, hreduces, hreduces.unique (.of_modEq (by decide)), hstep⟩, ?_⟩
  rw [(hzero .div _ _ _ rfl rfl).1 (by decide)]
  rfl

end Session

end StackMachine
