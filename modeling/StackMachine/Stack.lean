/-! Stacks that know their height. What a stack holds is the list of its values, top first. -/

namespace StackMachine

/-- A stack that knows its height. -/
structure Stack (α : Type) where
  /-- The values, top first. -/
  toList : List α
  height : Nat
  height_eq : height = toList.length
deriving DecidableEq

namespace Stack

variable {α : Type}

@[ext] theorem ext : ∀ {s t : Stack α}, s.toList = t.toList → s = t
  | ⟨_, _, rfl⟩, ⟨_, _, rfl⟩, rfl => rfl

/-- No values. -/
def empty : Stack α := ⟨[], 0, rfl⟩

/-- Puts a value on top. -/
@[inline] def push (s : Stack α) (a : α) : Stack α :=
  ⟨a :: s.toList, s.height + 1, congrArg (· + 1) s.height_eq⟩

/-- The top value, and the stack below it. -/
@[inline] def pop? : Stack α → Option (α × Stack α)
  | ⟨a :: rest, height, eq⟩ => some (a, ⟨rest, height - 1, by simp [eq]⟩)
  | ⟨[], _, _⟩ => none

/-- The two top values, the upper first, and the stack below them. -/
@[inline] def pop2? : Stack α → Option (α × α × Stack α)
  | ⟨b :: a :: rest, height, eq⟩ => some (b, a, ⟨rest, height - 2, by simp [eq]⟩)
  | _ => none

/-- The three top values, the upper first, and the stack below them. -/
@[inline] def pop3? : Stack α → Option (α × α × α × Stack α)
  | ⟨c :: b :: a :: rest, height, eq⟩ => some (c, b, a, ⟨rest, height - 3, by simp [eq]⟩)
  | _ => none

/-- The stack below the `count` top values. -/
def drop (count : Nat) (s : Stack α) : Stack α :=
  ⟨s.toList.drop count, s.height - count, by simp [s.height_eq]⟩

@[simp] theorem toList_empty : (empty : Stack α).toList = [] := rfl

@[simp] theorem toList_push (s : Stack α) (a : α) : (s.push a).toList = a :: s.toList := rfl

@[simp] theorem toList_drop (s : Stack α) (count : Nat) : (s.drop count).toList = s.toList.drop count := rfl

@[simp] theorem height_empty : (empty : Stack α).height = 0 := rfl

@[simp] theorem height_push (s : Stack α) (a : α) : (s.push a).height = s.height + 1 := rfl

@[simp] theorem height_drop (s : Stack α) (count : Nat) : (s.drop count).height = s.height - count := rfl

theorem pop?_eq_some_iff {s rest : Stack α} {a : α} : s.pop? = some (a, rest) ↔ s = rest.push a := by
  rcases s with ⟨_ | ⟨b, l⟩, h, eq⟩
  · simp [pop?, Stack.ext_iff]
  · simp [pop?, Stack.ext_iff]

theorem pop?_eq_none_iff {s : Stack α} : s.pop? = none ↔ s = empty := by
  rcases s with ⟨_ | ⟨b, l⟩, h, eq⟩ <;> simp [pop?, Stack.ext_iff]

theorem pop2?_eq_some_iff {s rest : Stack α} {b a : α} :
    s.pop2? = some (b, a, rest) ↔ s = (rest.push a).push b := by
  rcases s with ⟨_ | ⟨b, _ | ⟨a, l⟩⟩, h, eq⟩ <;> simp [pop2?, Stack.ext_iff]

theorem pop2?_eq_none_iff {s : Stack α} : s.pop2? = none ↔ s.height < 2 := by
  rcases s with ⟨_ | ⟨b, _ | ⟨a, l⟩⟩, h, rfl⟩ <;> simp [pop2?]

theorem pop3?_eq_some_iff {s rest : Stack α} {c b a : α} :
    s.pop3? = some (c, b, a, rest) ↔ s = ((rest.push a).push b).push c := by
  rcases s with ⟨_ | ⟨c, _ | ⟨b, _ | ⟨a, l⟩⟩⟩, h, eq⟩ <;> simp [pop3?, Stack.ext_iff]

theorem pop3?_eq_none_iff {s : Stack α} : s.pop3? = none ↔ s.height < 3 := by
  rcases s with ⟨_ | ⟨c, _ | ⟨b, _ | ⟨a, l⟩⟩⟩, h, rfl⟩ <;> simp [pop3?]

end Stack

end StackMachine
