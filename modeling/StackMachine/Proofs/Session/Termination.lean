import Mathlib.Algebra.Order.Ring.Nat
import Mathlib.Data.List.MinMax
import StackMachine.Proofs.Session.Budget
import StackMachine.Proofs.Session.Calls

/-! Only branches to earlier instructions let a session run on. Without them every frame has fewer instructions ahead
after each of its steps. A call adds a frame, but it takes an instruction from the caller, and as the call depth is
limited, an instruction ahead of a frame may weigh as much as all that a frame above it can have ahead. So the weighted
sum over the call stack gets smaller with every step, through calls, recursive ones as well, and returns. -/

namespace StackMachine

namespace Program

/-- Every branch leads to a later instruction of its method. -/
def BranchesForward (p : Program) : Prop :=
  ∀ m ∈ p.methods, ∀ (k : Nat) (i : Instruction) (t : UInt32), m.code[k]? = some i → i.target? = some t → k < t.toNat

instance (p : Program) : Decidable p.BranchesForward :=
  decidable_of_iff ((p.methods.toList.all fun m => m.code.toList.zipIdx.all fun x =>
      x.1.target?.all fun t => x.2 < t.toNat) = true) <| by
    simp only [BranchesForward, List.all_eq_true, Prod.forall, List.mk_mem_zipIdx_iff_getElem?, Option.all_eq_true,
      decide_eq_true_eq, Array.mem_toList_iff, Array.getElem?_toList]
    exact forall₂_congr fun m _ => forall_comm.trans (forall₂_congr fun k i => forall_comm)

/-- The length of the longest code of a method. -/
def longestCode (p : Program) : Nat :=
  (p.methods.toList.map (·.code.size)).foldr max 0

/-- The number of instructions of its method that are ahead of a frame, the next one included. -/
def ahead (p : Program) (f : Frame) : Nat :=
  match p.methods[f.method]? with
  | some m => m.code.size - f.pc
  | none => 0

/-- What an instruction ahead of a frame weighs that has `below` frames below it, where `depth` frames are allowed. -/
def weight (p : Program) (depth below : Nat) : Nat :=
  (p.longestCode + 1) ^ (depth - (below + 1))

/-- The weight of all instructions ahead of the frames of a call stack, top first. -/
def weightAhead (p : Program) (depth : Nat) : List Frame → Nat
  | [] => 0
  | f :: callers => p.ahead f * p.weight depth callers.length + p.weightAhead depth callers

section
variable {p : Program} {limits : Limits} {m : Method} {f : Frame}

theorem size_code_le {index : Nat} (h : p.methods[index]? = some m) : m.code.size ≤ p.longestCode := by
  have hm : m ∈ p.methods.toList := Array.mem_toList_iff.mpr (Array.mem_of_getElem? h)
  exact List.le_max_of_le' 0 (List.mem_map_of_mem hm) (Nat.le_refl _)

theorem weight_pos (p : Program) (depth below : Nat) : 0 < p.weight depth below :=
  Nat.pow_pos (Nat.succ_pos _)

/-- All instructions ahead of a frame weigh less than one of a frame below it. -/
theorem mul_weight_lt {depth below n : Nat} (hn : n ≤ p.longestCode) (hdepth : below < depth) :
    n * p.weight depth below < (p.longestCode + 1) ^ (depth - below) := by
  have hsub : depth - below = depth - (below + 1) + 1 := by omega
  rw [hsub, Nat.pow_succ']
  exact Nat.mul_lt_mul_of_pos_right (Nat.lt_succ_of_le hn) (p.weight_pos _ _)

theorem ahead_eq (h : f.Fits p limits m) : p.ahead f = m.code.size - f.pc := by
  rw [ahead, h.method]

theorem ahead_pos (h : f.Fits p limits m) : 0 < p.ahead f := by
  have hpc := h.pc
  rw [ahead_eq h]
  omega

theorem ahead_ofArgs_le {depth argc index : Nat} {name : String} (h : p.callee limits depth name argc = .ok (index, m))
    (args : List Int32) : p.ahead (.ofArgs index m.localCount.toNat args) ≤ p.longestCode := by
  rw [ahead_eq (.ofArgs h args)]
  exact Nat.le_trans (Nat.sub_le _ _) (size_code_le (callee_eq_ok h).1)

end

end Program

namespace Session

section
variable {p : Program} {limits : Limits} {s : Session} {callers : Stack Frame} {f : Frame} {m : Method} {i : Instruction}

/-! ### One step -/

theorem ahead_continues (hforward : p.BranchesForward) (hf : f.Fits p limits m) (hi : m.code[f.pc]? = some i) {g : Frame}
    (hg : f.Continues limits i g) : p.ahead g < p.ahead f := by
  have hpc := hf.pc
  have hlater : f.pc < g.pc := by
    rcases hg.pc with ⟨hnext, -⟩ | ⟨t, ht, hbranch⟩
    · omega
    · rw [hbranch]
      exact hforward m (Array.mem_of_getElem? hf.method) f.pc i t hi ht
  rw [Program.ahead_eq hf, Program.ahead_eq (hf.continues hi hg)]
  omega

/-- Whatever the active frame does, less weight is ahead, if the session still runs. -/
theorem weightAhead_apply_lt (hforward : p.BranchesForward) (hf : f.Fits p limits m) (hi : m.code[f.pc]? = some i)
    {heap : Heap} {e : Effect} (he : e.Moves p limits (callers.height + 1) heap f i) {steps pc : Nat} {name : String}
    (hrun : (apply limits callers steps name pc e).status = .running) :
    p.weightAhead limits.callDepth (apply limits callers steps name pc e).frames.toList <
      p.weightAhead limits.callDepth (f :: callers.toList) := by
  cases he with
  | stay hg _ =>
    have hlt := ahead_continues hforward hf hi hg
    exact Nat.add_lt_add_right (Nat.mul_lt_mul_of_pos_right hlt (p.weight_pos _ _)) _
  | @call name argc index m' args caller hcall hcallee hargs =>
    subst hcall
    obtain ⟨-, -, -, hdepth⟩ := Program.callee_eq_ok hcallee
    obtain ⟨-, -, -, rfl⟩ := Frame.popArgs_eq_ok hargs
    rw [callers.height_eq] at hdepth
    -- The caller loses an instruction, and all that the new frame has ahead weighs less than that one.
    have hcaller : p.ahead (f.waiting argc) < p.ahead f :=
      ahead_continues hforward hf hi (.next rfl (Nat.sub_le _ _))
    have hlost := Nat.mul_le_mul_right (p.weight limits.callDepth callers.toList.length) hcaller
    have hnew : p.ahead (.ofArgs index m'.localCount.toNat args) * p.weight limits.callDepth (callers.toList.length + 1) <
        p.weight limits.callDepth callers.toList.length :=
      Program.mul_weight_lt (Program.ahead_ofArgs_le hcallee args) hdepth
    rw [Nat.succ_mul] at hlost
    show p.ahead _ * p.weight _ (callers.toList.length + 1) + (p.ahead (f.waiting argc) * _ + _) < p.ahead f * _ + _
    omega
  | give _ _ =>
    rcases callers.eq_empty_or_eq_push with rfl | ⟨rest, caller, rfl⟩
    -- Without a caller the session has returned.
    · cases hrun
    · rw [apply] at hrun ⊢
      rw [give_push_of_running hrun]
      have hpos := Nat.mul_pos (Program.ahead_pos hf) (p.weight_pos limits.callDepth (rest.push caller).toList.length)
      exact Nat.lt_add_of_pos_left hpos
  | fault _ => cases hrun

theorem weightAhead_step_lt (hforward : p.BranchesForward) (h : s.Bounded p limits)
    (hrun : (s.step p limits).status = .running) :
    p.weightAhead limits.callDepth (s.step p limits).frames.toList < p.weightAhead limits.callDepth s.frames.toList := by
  have hs : s.status = .running := running_of_iterate (n := 1) hrun (Nat.zero_le 1)
  obtain ⟨f, callers, m, i, hf, hm, hi, hcode⟩ := h.active hs
  rw [step_eq_apply hs hf hi] at hrun ⊢
  rw [hf]
  exact weightAhead_apply_lt hforward hm hcode (Effect.ofInstruction_moves p limits _ s.heap f i) hrun

/-! ### A whole run -/

variable {entry : String} {args : List Int32}

theorem weightAhead_after (hforward : p.BranchesForward) {n : Nat} (hrun : (after p limits entry args n).status = .running) :
    p.weightAhead limits.callDepth (after p limits entry args n).frames.toList + n ≤
      p.weightAhead limits.callDepth (start p limits entry args).frames.toList := by
  induction n with
  | zero => exact Nat.le_refl _
  | succ n ih =>
    have hprev := ih (running_of_iterate hrun (Nat.le_succ n))
    rw [after_succ] at hrun ⊢
    have hlt := weightAhead_step_lt hforward (bounded_after entry args n) hrun
    omega

theorem weightAhead_start_lt (hrun : (start p limits entry args).status = .running) :
    p.weightAhead limits.callDepth (start p limits entry args).frames.toList <
      (p.longestCode + 1) ^ limits.callDepth := by
  cases hc : p.callee limits 0 entry args.length with
  | error kind =>
    rw [start, hc] at hrun
    cases hrun
  | ok found =>
    obtain ⟨index, m⟩ := found
    obtain ⟨-, -, -, hdepth⟩ := Program.callee_eq_ok hc
    have hlt := Program.mul_weight_lt (Program.ahead_ofArgs_le hc args) hdepth
    rw [start, hc]
    exact hlt

/-- Where no branch leads back, every session halts, whatever its methods call, and within a number of steps that its
longest code and its call depth give. So stepping it until it halts comes to an end, which is the one that a run finds
if the steps can be counted. -/
theorem halts_of_branchesForward (hforward : p.BranchesForward) (limits : Limits) (entry : String) (args : List Int32) :
    ∃ n ≤ (p.longestCode + 1) ^ limits.callDepth, (after p limits entry args n).status.isHalted = true ∧
      RunsTo p limits (start p limits entry args) (after p limits entry args n) ∧
      (n ≤ maxSteps → (start p limits entry args).run p limits = after p limits entry args n) := by
  have hhalt : (after p limits entry args ((p.longestCode + 1) ^ limits.callDepth)).status.isHalted = true := by
    apply Status.isHalted_of_ne_running
    intro hrun
    have hlt := weightAhead_start_lt (running_of_iterate hrun (Nat.zero_le _))
    have hle := weightAhead_after hforward hrun
    omega
  exact ⟨_, Nat.le_refl _, hhalt, runsTo_iterate hhalt, fun hn => run_start_of_halted hn hhalt⟩

end

end Session

/-- Two methods that call each other until their argument is zero. -/
def Program.alternating : Program where
  methods := #[⟨"even", 1, 1, #[.loadLocal 0, .jumpIfFalse 6, .loadLocal 0, .pushConst 1, .arith .sub,
      .invokeStatic "odd" 1, .loadLocal 0, .ret], by decide +kernel⟩,
    ⟨"odd", 1, 1, #[.loadLocal 0, .jumpIfFalse 6, .loadLocal 0, .pushConst 1, .arith .sub,
      .invokeStatic "even" 1, .loadLocal 0, .ret], by decide +kernel⟩]
  distinct := by decide +kernel

/-- Called with a negative number, they call each other as deep as is allowed. -/
theorem Session.halts_alternating : Program.alternating.BranchesForward ∧
    ∃ n ≤ 9 ^ 3, (after .alternating { callDepth := 3 } "even" [-1] n).status.isHalted = true ∧
      RunsTo .alternating { callDepth := 3 } (start .alternating { callDepth := 3 } "even" [-1])
        (after .alternating { callDepth := 3 } "even" [-1] n) := by
  have hforward : Program.alternating.BranchesForward := by decide +kernel
  obtain ⟨n, hn, hhalt, hruns, -⟩ := halts_of_branchesForward hforward { callDepth := 3 } "even" [-1]
  exact ⟨hforward, n, hn, hhalt, hruns⟩

end StackMachine
