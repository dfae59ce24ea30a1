import StackMachine.Proofs.Module.Format

/-! Modules that are cut short or too long. A reader that works on the front of an input does what it does on the whole,
up to the point where it needs a byte that was cut off; and it checks nothing before it has all the bytes of what it
checks. So a module that is cut anywhere ends too early, and no check fails before that. -/

namespace StackMachine

namespace Module

/-- Where the reader reads an input, it reads every front of it alike or runs out of bytes. -/
def RunsOut {α : Type} (size : Nat) (r : Reader α) : Prop :=
  ∀ front cut a rest, r.run (front ++ cut) = .ok (a, rest) →
    (∃ left, rest = left ++ cut ∧ r.run front = .ok (a, left)) ∨ r.run front = .error (.unexpectedEnd size)

section
variable {α β : Type} {size : Nat}

/-! ### Readers of single parts -/

theorem runsOut_pure (a : α) : RunsOut size (pure a) := by
  intro front cut b rest h
  cases h
  exact .inl ⟨front, rfl, rfl⟩

theorem runsOut_throw (e : DecodeError) : RunsOut size (throw e : Reader α) := by
  intro front cut a rest h
  cases h

theorem runsOut_lift (x : Except DecodeError α) : RunsOut size (MonadLift.monadLift x) := by
  intro front cut a rest h
  obtain ⟨hx, rfl⟩ := run_lift_eq_ok_iff.mp h
  exact .inl ⟨front, rfl, run_lift_eq_ok_iff.mpr ⟨hx, rfl⟩⟩

theorem run_take_of_length_lt {n : Nat} {bytes : List UInt8} (h : bytes.length < n) :
    (take size n).run bytes = .error (.unexpectedEnd size) := by
  have hlen : (bytes.take n).length ≠ n := by
    rw [List.length_take]
    omega
  change (if _ then _ else _) = _
  rw [if_neg hlen]

theorem runsOut_take (n : Nat) : RunsOut size (take size n) := by
  intro front cut taken rest h
  obtain ⟨hlen, heq⟩ := run_take_eq_ok_iff.mp h
  rcases Nat.lt_or_ge front.length n with hlt | hge
  · exact .inr (run_take_of_length_lt hlt)
  · have htaken : taken <+: front :=
      List.prefix_of_prefix_length_le ⟨rest, heq.symm⟩ ⟨cut, rfl⟩ (Nat.le_trans (Nat.le_of_eq hlen) hge)
    obtain ⟨left, rfl⟩ := htaken
    rw [List.append_assoc] at heq
    exact .inl ⟨left, (List.append_cancel_left heq).symm, run_take_eq_ok_iff.mpr ⟨hlen, rfl⟩⟩

/-- Readers in sequence run out where the first of them does, or where the next one does on what is left. -/
theorem RunsOut.bind {r : Reader α} {k : α → Reader β} (hr : RunsOut size r) (hk : ∀ a, RunsOut size (k a)) :
    RunsOut size (r >>= k) := by
  intro front cut b rest h
  obtain ⟨a, mid, hfirst, hnext⟩ := run_bind_eq_ok_iff.mp h
  rcases hr front cut a mid hfirst with ⟨left, rfl, hfront⟩ | hfront
  · rcases hk a left cut b rest hnext with ⟨left', hrest, hleft⟩ | hleft
    · exact .inl ⟨left', hrest, run_bind_eq_ok_iff.mpr ⟨a, left, hfront, hleft⟩⟩
    · refine .inr ?_
      rw [StateT.run_bind, hfront]
      exact hleft
  · refine .inr ?_
    rw [StateT.run_bind, hfront]
    rfl

/-! ### The parts of a module -/

theorem runsOut_nat (width : Nat) : RunsOut size (nat size width) :=
  (runsOut_take width).bind fun bytes => runsOut_pure (Bytes.toNat bytes)

theorem runsOut_many {part : Nat → Reader α} (hpart : ∀ k, RunsOut size (part k)) (start count : Nat) :
    RunsOut size (many part start count) := by
  induction count generalizing start with
  | zero => exact runsOut_pure []
  | succ count ih =>
    refine (hpart start).bind fun first => ?_
    exact (ih (start + 1)).bind fun rest => runsOut_pure (first :: rest)

theorem runsOut_name (index : Nat) : RunsOut size (name size index) := by
  refine (runsOut_nat 4).bind fun length => (runsOut_take length).bind fun bytes => ?_
  cases Bytes.toString? bytes with
  | none => exact runsOut_throw _
  | some s => exact runsOut_pure s

theorem runsOut_instruction (names : List String) : RunsOut size (instruction size names) :=
  (runsOut_take Word.size).bind fun bytes => runsOut_lift (Instruction.ofWord names (Word.ofBytes bytes))

theorem runsOut_method (names : List String) : RunsOut size (method size names) := by
  refine (runsOut_nat 4).bind fun index => ?_
  cases names[index]? with
  | none => exact runsOut_throw _
  | some name =>
    refine (runsOut_nat 2).bind fun arity => (runsOut_nat 2).bind fun localCount => (runsOut_nat 4).bind fun count => ?_
    exact (runsOut_many (fun _ => runsOut_instruction names) 0 count).bind fun code => runsOut_lift _

theorem runsOut_methods : RunsOut size (methods size) := by
  refine (runsOut_take magic.length).bind fun start => ?_
  split
  · exact runsOut_throw _
  · refine (runsOut_take 1).bind fun v => ?_
    split
    · exact runsOut_throw _
    · refine (runsOut_nat 4).bind fun count => (runsOut_many runsOut_name 0 count).bind fun names => ?_
      exact (runsOut_nat 4).bind fun count' => runsOut_many (fun _ => runsOut_method names) 0 count'

end

end Module

namespace Program
variable {bytes : List UInt8} {p : Program}

/-- What is read from a module is read from it with any bytes after it, and does not depend on the size that errors
would be reported with. -/
theorem run_methods_of_decode (h : decode bytes = .ok p) (size : Nat) (extra : List UInt8) :
    (Module.methods size).run (bytes ++ extra) = .ok (p.methods.toList, extra) := by
  obtain ⟨l, hl, rfl⟩ := decode_eq_ok_iff.mp h
  exact Module.run_methods_eq_ok_iff.mpr ⟨l, hl, rfl⟩

theorem decode_take (h : decode bytes = .ok p) {k : Nat} (hk : k < bytes.length) :
    decode (bytes.take k) = .error (.unexpectedEnd k) := by
  have hwhole : (Module.methods k).run (bytes.take k ++ bytes.drop k) = .ok (p.methods.toList, []) := by
    have hrun := run_methods_of_decode h k []
    rwa [List.append_nil, ← List.take_append_drop k bytes] at hrun
  have hlen : (bytes.take k).length = k := List.length_take_of_le (Nat.le_of_lt hk)
  rcases Module.runsOut_methods _ _ _ _ hwhole with ⟨left, hleft, -⟩ | hend
  · -- The whole module is needed, so nothing can have been left over.
    have hdrop := congrArg List.length (List.append_eq_nil_iff.mp hleft.symm).2
    rw [List.length_drop, List.length_nil] at hdrop
    omega
  · rw [decode, hlen, hend]
    rfl

theorem decode_append (h : decode bytes = .ok p) {extra : List UInt8} (hextra : extra ≠ []) :
    decode (bytes ++ extra) = .error (.trailingBytes extra.length) := by
  rw [decode, run_methods_of_decode h]
  simp only [bind, Except.bind, ne_eq, hextra, not_false_eq_true, if_true]
  rfl

/-- A module that is cut short anywhere ends too early, one with bytes after it has trailing bytes, and both are
reported with their sizes. So no module is the front of another one. -/
theorem decode_detects_size (h : decode bytes = .ok p) :
    (∀ k < bytes.length, decode (bytes.take k) = .error (.unexpectedEnd k)) ∧
    (∀ extra ≠ [], decode (bytes ++ extra) = .error (.trailingBytes extra.length)) ∧
    ∀ bytes' p', decode bytes' = .ok p' → bytes <+: bytes' → bytes = bytes' := by
  refine ⟨fun k => decode_take h, fun extra => decode_append h, ?_⟩
  rintro _ p' h' ⟨extra, rfl⟩
  by_contra hne
  have hextra : extra ≠ [] := by
    rintro rfl
    exact hne (List.append_nil bytes).symm
  rw [decode_append h hextra] at h'
  cases h'

/-- The module of a small program, cut in the middle of a character of a name and with two bytes too many. -/
theorem decode_detects_size_doubling : decode doubling.encode = .ok doubling ∧
    decode (doubling.encode.take 24) = .error (.unexpectedEnd 24) ∧
    decode (doubling.encode ++ [1, 0]) = .error (.trailingBytes 2) := by
  have h : decode doubling.encode = .ok doubling := by decide +kernel
  obtain ⟨hcut, hextra, -⟩ := decode_detects_size h
  exact ⟨h, hcut 24 (by decide +kernel), hextra [1, 0] (by decide)⟩

end Program

end StackMachine
