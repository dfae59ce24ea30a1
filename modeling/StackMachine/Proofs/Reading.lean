import StackMachine.Proofs.Results

/-! Readers that take what they need from the front of a list. `Reads r front a` says that reader `r` takes exactly
`front` and gives `a`, whatever follows. Readers in sequence take their parts one after the other, so that a reader
of many parts is understood from the readers of its parts. -/

namespace StackMachine

/-- Readers in sequence give a value exactly where each of them does. -/
theorem run_bind_eq_ok_iff {σ ε α β : Type} {r : StateT (List σ) (Except ε) α} {k : α → StateT (List σ) (Except ε) β}
    {input rest : List σ} {b : β} :
    (r >>= k).run input = .ok (b, rest) ↔ ∃ a mid, r.run input = .ok (a, mid) ∧ (k a).run mid = .ok (b, rest) := by
  rw [StateT.run_bind, bind_eq_ok_iff]
  constructor
  · rintro ⟨⟨a, mid⟩, hr, hk⟩
    exact ⟨a, mid, hr, hk⟩
  · rintro ⟨a, mid, hr, hk⟩
    exact ⟨(a, mid), hr, hk⟩

theorem run_bind_of_error {σ ε α β : Type} {r : StateT (List σ) (Except ε) α} {k : α → StateT (List σ) (Except ε) β}
    {input : List σ} {e : ε} (h : r.run input = .error e) : (r >>= k).run input = .error e := by
  rw [StateT.run_bind, h]
  rfl

theorem run_lift_eq_ok_iff {σ ε α : Type} {x : Except ε α} {input rest : List σ} {a : α} :
    (MonadLift.monadLift x : StateT (List σ) (Except ε) α).run input = .ok (a, rest) ↔ x = .ok a ∧ input = rest := by
  cases x with
  | error e =>
    constructor
    · intro h
      cases h
    · rintro ⟨h, -⟩
      cases h
  | ok b =>
    constructor
    · intro h
      cases h
      exact ⟨rfl, rfl⟩
    · rintro ⟨h, rfl⟩
      cases h
      rfl

/-- Reader `r` takes exactly `front` and gives `a`. -/
def Reads {σ ε α : Type} (r : StateT (List σ) (Except ε) α) (front : List σ) (a : α) : Prop :=
  ∀ rest, r.run (front ++ rest) = .ok (a, rest)

namespace Reads
variable {σ ε α β : Type} {r : StateT (List σ) (Except ε) α} {k : α → StateT (List σ) (Except ε) β}
  {front front' : List σ} {a : α} {b : β}

theorem pure (a : α) : Reads (Pure.pure a : StateT (List σ) (Except ε) α) [] a := fun _ => rfl

theorem run_bind (hr : Reads r front a) (rest : List σ) : (r >>= k).run (front ++ rest) = (k a).run rest := by
  rw [StateT.run_bind, hr]
  rfl

/-- Readers in sequence read parts in sequence. -/
theorem bind (hr : Reads r front a) (hk : Reads (k a) front' b) : Reads (r >>= k) (front ++ front') b := by
  intro rest
  rw [List.append_assoc, hr.run_bind]
  exact hk rest

theorem bind_nil (hr : Reads r front a) (hk : Reads (k a) [] b) : Reads (r >>= k) front b := by
  have h := hr.bind hk
  rwa [List.append_nil] at h

theorem map (hr : Reads r front a) (f : α → β) : Reads (r >>= fun a => Pure.pure (f a)) front (f a) :=
  hr.bind_nil (Reads.pure (f a))

theorem ofOk {x : Except ε α} (h : x = .ok a) :
    Reads (MonadLift.monadLift x : StateT (List σ) (Except ε) α) [] a := by
  subst h
  exact fun _ => rfl

theorem run_eq (hr : Reads r front a) : r.run front = .ok (a, []) := by
  have h := hr []
  rwa [List.append_nil] at h

end Reads

end StackMachine
