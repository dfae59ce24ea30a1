import StackMachine.Command.Report
import StackMachine.Proofs.Assembly.Numbers

/-! Options are read exactly. Every argument list falls into positional words and flags with their values in one way, read
from the left. Reading fails for a flag at the end, for a flag that is not known and for a number that is none; otherwise
each option is what the last of its flags says. So the order of different flags does not matter, nor where they stand
among the positional words. -/

namespace StackMachine

/-! ### Unsigned numbers -/

namespace Numeral
variable {cs : List Char} {w : String} {n n' : Nat}

/-- The word is a decimal numeral of a number of 64 bits, with at most a plus sign in front. -/
def IsNat64 (w : String) (n : Nat) : Prop :=
  ∃ digits, (w.toList = digits ∨ w.toList = '+' :: digits) ∧ Digits 10 digits n ∧ n < 2 ^ 64

theorem not_digits_plus : ¬Digits 10 ('+' :: cs) n := by
  intro h
  obtain ⟨d, hd⟩ := h.isDigit_of_mem List.mem_cons_self
  exact not_isDigit_of_digit? (by decide) (by decide) hd

theorem unsigned?_eq_some_iff :
    unsigned? cs = some n ↔ ∃ digits, (cs = digits ∨ cs = '+' :: digits) ∧ Digits 10 digits n := by
  unfold unsigned?
  split
  · rename_i digits
    rw [ofDigits?_eq_some_iff (by decide)]
    constructor
    · exact fun h => ⟨digits, Or.inr rfl, h⟩
    · rintro ⟨digits', rfl | heq, h⟩
      · exact absurd h not_digits_plus
      · cases heq
        exact h
  · rename_i hplus
    rw [ofDigits?_eq_some_iff (by decide)]
    constructor
    · exact fun h => ⟨cs, Or.inl rfl, h⟩
    · rintro ⟨digits, rfl | heq, h⟩
      · exact h
      · exact absurd heq (hplus digits)

theorem nat64?_eq_some_iff : nat64? w = some n ↔ IsNat64 w n := by
  rw [nat64?, Option.filter_eq_some_iff, unsigned?_eq_some_iff, decide_eq_true_eq]
  constructor
  · rintro ⟨⟨digits, hw, hdigits⟩, hlt⟩
    exact ⟨digits, hw, hdigits, hlt⟩
  · rintro ⟨digits, hw, hdigits, hlt⟩
    exact ⟨⟨digits, hw, hdigits⟩, hlt⟩

theorem IsNat64.unique (h : IsNat64 w n) (h' : IsNat64 w n') : n = n' := by
  rw [← nat64?_eq_some_iff] at h h'
  exact Option.some.inj (h.symm.trans h')

end Numeral

/-! ### Parts of an argument list -/

/-- A part of an argument list: a word that is no flag, or a flag with the word after it. -/
inductive Argument where
  | positional (word : String)
  | option (flag value : String)
deriving DecidableEq

namespace Argument

/-- A part as it is written. -/
def words : Argument → List String
  | positional word => [word]
  | option flag value => [flag, value]

/-- The first word shows what kind of part it is; the value of a flag may be any word. -/
def Proper : Argument → Prop
  | positional word => Options.isFlag word = false
  | option flag _ => Options.isFlag flag = true

/-- The word of a positional part. -/
def word? : Argument → Option String
  | positional word => some word
  | option _ _ => none

/-- The value that the part gives to a flag. -/
def value? (flag : String) : Argument → Option String
  | positional _ => none
  | option flag' value => if flag' = flag then some value else none

/-- The flag is known, and its value is a number if it takes one. -/
def Accepted (allowEntry : Bool) : Argument → Prop
  | positional _ => True
  | option flag value => (flag = "--entry" ∧ allowEntry = true) ∨
      (flag = "--max-steps" ∨ flag = "--max-depth" ∨ flag = "--max-stack") ∧ ∃ n, Numeral.IsNat64 value n

end Argument

/-- An argument list in parts. A flag at its end has no value. -/
structure Arguments where
  parts : List Argument
  dangling : Option String
deriving DecidableEq

namespace Arguments
variable {a : Arguments} {args : List String} {x : Argument}

/-- The list falls into these parts. -/
structure Splits (a : Arguments) (args : List String) : Prop where
  words : args = a.parts.flatMap (·.words) ++ a.dangling.toList
  proper : ∀ x ∈ a.parts, x.Proper
  dangling : ∀ flag, a.dangling = some flag → Options.isFlag flag = true

/-- The arguments with these parts in front. -/
def behind (front : List Argument) (a : Arguments) : Arguments :=
  { a with parts := front ++ a.parts }

/-- The parts of a list, read from the left. -/
def ofWords : List String → Arguments
  | [] => ⟨[], none⟩
  | [word] => if Options.isFlag word then ⟨[], some word⟩ else ⟨[.positional word], none⟩
  | word :: value :: rest =>
    if Options.isFlag word then (ofWords rest).behind [.option word value]
    else (ofWords (value :: rest)).behind [.positional word]

theorem Splits.behind {front : List Argument} (hfront : ∀ x ∈ front, x.Proper) (h : a.Splits args) :
    (a.behind front).Splits (front.flatMap (·.words) ++ args) where
  words := by
    rw [h.words, ← List.append_assoc, ← List.flatMap_append]
    rfl
  proper x hx := by
    rcases List.mem_append.mp hx with hx | hx
    · exact hfront x hx
    · exact h.proper x hx
  dangling := h.dangling

theorem splits_ofWords (args : List String) : (ofWords args).Splits args := by
  have hone : ∀ {x : Argument}, x.Proper → ∀ y ∈ [x], y.Proper := by
    intro x hx y hy
    rw [List.mem_singleton.mp hy]
    exact hx
  fun_induction ofWords args with
  | case1 => exact ⟨rfl, List.forall_mem_nil _, fun flag h => by cases h⟩
  | case2 word hflag =>
    refine ⟨rfl, List.forall_mem_nil _, fun flag h => ?_⟩
    cases h
    exact hflag
  | case3 word hflag => exact ⟨rfl, hone (eq_false_of_ne_true hflag), fun flag h => by cases h⟩
  | case4 word value rest hflag ih => exact ih.behind (hone hflag)
  | case5 word value rest hflag ih => exact ih.behind (hone (eq_false_of_ne_true hflag))

theorem ofWords_append (hx : x.Proper) (rest : List String) :
    ofWords (x.words ++ rest) = (ofWords rest).behind [x] := by
  cases x with
  | positional word =>
    have hword : Options.isFlag word = false := hx
    cases rest with
    | nil => simp [Argument.words, ofWords, hword, behind]
    | cons value rest => simp [Argument.words, ofWords, hword]
  | option flag value =>
    have hflag : Options.isFlag flag = true := hx
    simp [Argument.words, ofWords, hflag]

/-- A list falls into its parts in one way. -/
theorem splits_iff : a.Splits args ↔ a = ofWords args := by
  constructor
  · rintro ⟨rfl, hproper, hdangling⟩
    obtain ⟨parts, dangling⟩ := a
    induction parts with
    | nil =>
      cases dangling with
      | none => rfl
      | some flag => simp [ofWords, hdangling flag rfl]
    | cons x parts ih =>
      obtain ⟨hx, hparts⟩ := List.forall_mem_cons.mp hproper
      have hrest := ih hparts hdangling
      simp only [List.flatMap_cons, List.append_assoc, ofWords_append hx] at hrest ⊢
      rw [← hrest]
      rfl
  · rintro rfl
    exact splits_ofWords args

end Arguments

/-! ### Reading the parts -/

namespace Options
variable {allowEntry : Bool} {o o' : Options} {flag value : String} {x : Argument} {a : Arguments} {args : List String}

theorem number_eq_ok_iff {n : Nat} : number flag value = .ok n ↔ Numeral.IsNat64 value n := by
  rw [← Numeral.nat64?_eq_some_iff, number]
  cases Numeral.nat64? value <;> simp

/-- Adds one part of the arguments. -/
def addPart (allowEntry : Bool) (o : Options) : Argument → Except OptionError Options
  | .positional word => .ok { o with positional := o.positional ++ [word] }
  | .option flag value => o.set allowEntry flag value

/-- The options, unless a flag is left without a value. -/
def finish (dangling : Option String) (o : Options) : Except OptionError Options :=
  match dangling with
  | none => .ok o
  | some flag => .error (.missingValue flag)

theorem add_append (hx : x.Proper) (o : Options) (rest : List String) :
    o.add allowEntry (x.words ++ rest) = o.addPart allowEntry x >>= fun o => o.add allowEntry rest := by
  cases x with
  | positional word =>
    have hword : isFlag word = false := hx
    cases rest with
    | nil => simp [Argument.words, add, addPart, hword, bind, Except.bind]
    | cons value rest => simp [Argument.words, add, addPart, hword, bind, Except.bind]
  | option flag value =>
    have hflag : isFlag flag = true := hx
    simp [Argument.words, add, addPart, hflag]

/-- The words of an argument list are read part by part. -/
theorem add_eq (h : a.Splits args) (o : Options) :
    o.add allowEntry args = a.parts.foldlM (addPart allowEntry) o >>= finish a.dangling := by
  obtain ⟨rfl, hproper, hdangling⟩ := h
  obtain ⟨parts, dangling⟩ := a
  induction parts generalizing o with
  | nil =>
    cases dangling with
    | none => rfl
    | some flag => simp [add, hdangling flag rfl, finish, bind, Except.bind, pure, Except.pure]
  | cons x parts ih =>
    obtain ⟨hx, hparts⟩ := List.forall_mem_cons.mp hproper
    simp only [List.flatMap_cons, List.append_assoc, add_append hx, List.foldlM_cons, bind_assoc]
    exact congrArg (o.addPart allowEntry x >>= ·) (funext fun o' => ih o' hparts hdangling)

/-- What setting a flag does, where it succeeds. -/
theorem set_eq_ok_iff : o.set allowEntry flag value = .ok o' ↔
    (flag = "--entry" ∧ allowEntry = true ∧ o' = { o with entry := some value }) ∨
    ∃ n, Numeral.IsNat64 value n ∧
      ((flag = "--max-steps" ∧ o' = { o with allotment := { o.allotment with steps := some n } }) ∨
        (flag = "--max-depth" ∧ o' = o.withLimits ({ · with callDepth := n })) ∨
        (flag = "--max-stack" ∧ o' = o.withLimits ({ · with operandStack := n }))) := by
  have hbind : ∀ f : Nat → Options, (number flag value >>= fun n => pure (f n)) = .ok o' ↔
      ∃ n, Numeral.IsNat64 value n ∧ o' = f n := by
    intro f
    rw [bind_eq_ok_iff]
    refine exists_congr fun n => and_congr number_eq_ok_iff ?_
    exact ⟨fun h => (Except.ok.inj h).symm, fun h => congrArg Except.ok h.symm⟩
  unfold set
  by_cases hentry : flag = "--entry"
  · subst hentry
    cases allowEntry <;> simp [eq_comm]
  · rw [if_neg fun h => hentry h.1]
    by_cases hsteps : flag = "--max-steps"
    · subst hsteps
      rw [if_pos rfl, hbind]
      simp
    · rw [if_neg hsteps]
      by_cases hdepth : flag = "--max-depth"
      · subst hdepth
        rw [if_pos rfl, hbind]
        simp
      · rw [if_neg hdepth]
        by_cases hstack : flag = "--max-stack"
        · subst hstack
          rw [if_pos rfl, hbind]
          simp
        · simp [hentry, hsteps, hdepth, hstack]

theorem exists_addPart_iff : (∃ o', o.addPart allowEntry x = .ok o') ↔ x.Accepted allowEntry := by
  cases x with
  | positional word => exact ⟨fun _ => trivial, fun _ => ⟨_, rfl⟩⟩
  | option flag value =>
    simp only [addPart, set_eq_ok_iff, Argument.Accepted]
    constructor
    · rintro ⟨o', ⟨hflag, hallow, -⟩ | ⟨n, hn, hflag⟩⟩
      · exact Or.inl ⟨hflag, hallow⟩
      · exact Or.inr ⟨hflag.imp And.left (Or.imp And.left And.left), n, hn⟩
    · rintro (⟨hflag, hallow⟩ | ⟨hflag, n, hn⟩)
      · exact ⟨_, Or.inl ⟨hflag, hallow, rfl⟩⟩
      · rcases hflag with hflag | hflag | hflag
        · exact ⟨_, Or.inr ⟨n, hn, Or.inl ⟨hflag, rfl⟩⟩⟩
        · exact ⟨_, Or.inr ⟨n, hn, Or.inr (Or.inl ⟨hflag, rfl⟩)⟩⟩
        · exact ⟨_, Or.inr ⟨n, hn, Or.inr (Or.inr ⟨hflag, rfl⟩)⟩⟩

/-- All parts are read exactly if each of them is accepted, whatever the options are by then. -/
theorem exists_foldlM_iff {parts : List Argument} :
    (∃ o', parts.foldlM (addPart allowEntry) o = .ok o') ↔ ∀ x ∈ parts, x.Accepted allowEntry := by
  induction parts generalizing o with
  | nil => exact ⟨fun _ => List.forall_mem_nil _, fun _ => ⟨o, rfl⟩⟩
  | cons x parts ih =>
    rw [List.forall_mem_cons]
    simp only [List.foldlM_cons, bind_eq_ok_iff]
    constructor
    · rintro ⟨o₂, o₁, hx, hparts⟩
      exact ⟨exists_addPart_iff.mp ⟨o₁, hx⟩, ih.mp ⟨o₂, hparts⟩⟩
    · rintro ⟨hx, hparts⟩
      obtain ⟨o₁, hx⟩ := exists_addPart_iff.mpr hx
      obtain ⟨o₂, hparts⟩ := ih.mpr hparts
      exact ⟨o₂, o₁, hx, hparts⟩

/-! ### What the options hold -/

/-- The value of the last of these flags. -/
def lastValue? (flag : String) (parts : List Argument) : Option String :=
  (parts.filterMap (·.value? flag)).getLast?

/-- A number is that of the last of these flags, or the default where there is none. -/
def Numbered (parts : List Argument) (flag : String) (default number : Option Nat) : Prop :=
  match lastValue? flag parts with
  | none => number = default
  | some value => ∃ n, Numeral.IsNat64 value n ∧ number = some n

/-- The options hold what the parts say: the positional words in order, and for each option the value of its last flag
or its default. -/
structure Holds (o : Options) (parts : List Argument) : Prop where
  positional : o.positional = parts.filterMap (·.word?)
  entry : o.entry = lastValue? "--entry" parts
  steps : Numbered parts "--max-steps" none o.allotment.steps
  callDepth : Numbered parts "--max-depth" (some ({} : Limits).callDepth) (some o.allotment.limits.callDepth)
  operandStack : Numbered parts "--max-stack" (some ({} : Limits).operandStack) (some o.allotment.limits.operandStack)
  heapCells : o.allotment.limits.heapCells = ({} : Limits).heapCells

section
variable {parts parts' : List Argument} {default number number' : Option Nat} {n : Nat}

theorem lastValue?_concat (flag : String) (parts : List Argument) (x : Argument) :
    lastValue? flag (parts ++ [x]) = (x.value? flag).or (lastValue? flag parts) := by
  rw [lastValue?, List.filterMap_append, List.getLast?_append]
  cases hx : x.value? flag with
  | none =>
    rw [List.filterMap_cons_none hx]
    rfl
  | some value =>
    rw [List.filterMap_cons_some hx]
    rfl

theorem Numbered.keep (h : Numbered parts flag default number) (hx : x.value? flag = none) :
    Numbered (parts ++ [x]) flag default number := by
  rwa [Numbered, lastValue?_concat, hx, Option.none_or]

theorem numbered_concat (hx : x.value? flag = some value) (hn : Numeral.IsNat64 value n) :
    Numbered (parts ++ [x]) flag default (some n) := by
  rw [Numbered, lastValue?_concat, hx, Option.some_or]
  exact ⟨n, hn, rfl⟩

theorem Numbered.unique (h : Numbered parts flag default number) (h' : Numbered parts' flag default number')
    (hlast : lastValue? flag parts = lastValue? flag parts') : number = number' := by
  unfold Numbered at h h'
  rw [← hlast] at h'
  cases hvalue : lastValue? flag parts with
  | none =>
    rw [hvalue] at h h'
    exact h.trans h'.symm
  | some value =>
    rw [hvalue] at h h'
    obtain ⟨n, hn, rfl⟩ := h
    obtain ⟨n', hn', rfl⟩ := h'
    rw [hn.unique hn']

theorem holds_nil : Holds {} [] :=
  ⟨rfl, rfl, rfl, rfl, rfl, rfl⟩

theorem Holds.concat (h : o.Holds parts) (hx : o.addPart allowEntry x = .ok o') : o'.Holds (parts ++ [x]) := by
  have hentry := h.entry
  cases x with
  | positional word =>
    cases hx
    refine ⟨?_, ?_, h.steps.keep rfl, h.callDepth.keep rfl, h.operandStack.keep rfl, h.heapCells⟩
    · rw [List.filterMap_append, ← h.positional]
      rfl
    · rw [lastValue?_concat]
      exact hentry
  | option flag value =>
    have hpositional : o.positional = (parts ++ [Argument.option flag value]).filterMap (·.word?) := by
      rw [List.filterMap_append, ← h.positional]
      exact (List.append_nil _).symm
    -- A flag sets a field of its own, and is the last one so far that does.
    rcases set_eq_ok_iff.mp hx with ⟨rfl, -, rfl⟩ | ⟨n, hn, ⟨rfl, rfl⟩ | ⟨rfl, rfl⟩ | ⟨rfl, rfl⟩⟩
    · refine ⟨hpositional, ?_, h.steps.keep rfl, h.callDepth.keep rfl, h.operandStack.keep rfl, h.heapCells⟩
      rw [lastValue?_concat]
      rfl
    · refine ⟨hpositional, ?_, numbered_concat rfl hn, h.callDepth.keep rfl, h.operandStack.keep rfl, h.heapCells⟩
      rw [lastValue?_concat]
      exact hentry
    · refine ⟨hpositional, ?_, h.steps.keep rfl, numbered_concat rfl hn, h.operandStack.keep rfl, h.heapCells⟩
      rw [lastValue?_concat]
      exact hentry
    · refine ⟨hpositional, ?_, h.steps.keep rfl, h.callDepth.keep rfl, numbered_concat rfl hn, h.heapCells⟩
      rw [lastValue?_concat]
      exact hentry

theorem Holds.append (h : o.Holds parts) (hparts : parts'.foldlM (addPart allowEntry) o = .ok o') :
    o'.Holds (parts ++ parts') := by
  induction parts' generalizing o parts with
  | nil =>
    cases hparts
    rwa [List.append_nil]
  | cons x parts' ih =>
    rw [List.foldlM_cons] at hparts
    obtain ⟨o₁, hx, hparts⟩ := bind_eq_ok_iff.mp hparts
    have hrest := ih (h.concat hx) hparts
    rwa [List.append_assoc, List.singleton_append] at hrest

/-- The positional words and the last values determine the options. -/
theorem Holds.unique (h : o.Holds parts) (h' : o'.Holds parts')
    (hwords : parts.filterMap (·.word?) = parts'.filterMap (·.word?))
    (hlast : ∀ flag, lastValue? flag parts = lastValue? flag parts') : o = o' := by
  have hpositional := h.positional.trans (hwords.trans h'.positional.symm)
  have hentry := h.entry.trans ((hlast _).trans h'.entry.symm)
  have hsteps := h.steps.unique h'.steps (hlast _)
  have hdepth := Option.some.inj (h.callDepth.unique h'.callDepth (hlast _))
  have hstack := Option.some.inj (h.operandStack.unique h'.operandStack (hlast _))
  have hcells := h.heapCells.trans h'.heapCells.symm
  obtain ⟨positional, entry, ⟨depth, stack, cells⟩, steps⟩ := o
  obtain ⟨positional', entry', ⟨depth', stack', cells'⟩, steps'⟩ := o'
  cases hpositional
  cases hentry
  cases hsteps
  cases hdepth
  cases hstack
  cases hcells
  rfl

end

theorem exists_ofArgs_iff (h : a.Splits args) :
    (∃ o, ofArgs allowEntry args = .ok o) ↔ a.dangling = none ∧ ∀ x ∈ a.parts, x.Accepted allowEntry := by
  simp only [ofArgs, add_eq h, bind_eq_ok_iff]
  rw [← exists_foldlM_iff]
  constructor
  · rintro ⟨o, o', hparts, hfinish⟩
    refine ⟨?_, o', hparts⟩
    cases hdangling : a.dangling with
    | none => rfl
    | some flag =>
      rw [hdangling] at hfinish
      cases hfinish
  · rintro ⟨hdangling, o', hparts⟩
    exact ⟨o', o', hparts, by rw [hdangling]; rfl⟩

theorem holds_of_ofArgs (h : a.Splits args) (ho : ofArgs allowEntry args = .ok o) : o.Holds a.parts := by
  rw [ofArgs, add_eq h] at ho
  obtain ⟨o', hparts, hfinish⟩ := bind_eq_ok_iff.mp ho
  have hparts' := holds_nil.append hparts
  cases hdangling : a.dangling with
  | none =>
    rw [hdangling] at hfinish
    cases hfinish
    exact hparts'
  | some flag =>
    rw [hdangling] at hfinish
    cases hfinish

/-! ### The order of flags -/

/-- The options of an argument list, or the exit code of a command that cannot have them. -/
def result (allowEntry : Bool) (args : List String) : Except UInt32 Options :=
  (ofArgs allowEntry args).mapError fun e => (CommandError.option e).exitCode

/-- Lists with the same parts, up to an order that no option can tell, give the same. -/
theorem result_congr {a' : Arguments} {args' : List String} (h : a.Splits args) (h' : a'.Splits args')
    (hdangling : a.dangling = a'.dangling) (hparts : ∀ x, x ∈ a.parts ↔ x ∈ a'.parts)
    (hwords : a.parts.filterMap (·.word?) = a'.parts.filterMap (·.word?))
    (hlast : ∀ flag, lastValue? flag a.parts = lastValue? flag a'.parts) :
    result allowEntry args = result allowEntry args' := by
  have hiff : (∃ o, ofArgs allowEntry args = .ok o) ↔ ∃ o, ofArgs allowEntry args' = .ok o := by
    rw [exists_ofArgs_iff h, exists_ofArgs_iff h', hdangling]
    simp only [hparts]
  unfold result
  cases ho : ofArgs allowEntry args with
  | ok o =>
    obtain ⟨o', ho'⟩ := hiff.mp ⟨o, ho⟩
    rw [ho', (holds_of_ofArgs h ho).unique (holds_of_ofArgs h' ho') hwords hlast]
  | error e =>
    -- The errors may differ, but all of them exit with the same code.
    cases ho' : ofArgs allowEntry args' with
    | ok o' =>
      obtain ⟨o, ho''⟩ := hiff.mpr ⟨o', ho'⟩
      rw [ho] at ho''
      cases ho''
    | error e' => rfl

theorem filterMap_swap {α β : Type} {f : α → Option β} {x y : α} (h : f x = none ∨ f y = none) (before after : List α) :
    (before ++ x :: y :: after).filterMap f = (before ++ y :: x :: after).filterMap f := by
  rcases h with h | h <;> simp [List.filterMap_cons, h]

/-- Neighbours change places where no option and no position hears of both. -/
theorem result_swap {before : List Argument} {y : Argument} (hbefore : ∀ z ∈ before, z.Proper) (hx : x.Proper)
    (hy : y.Proper) (hwords : x.word? = none ∨ y.word? = none)
    (hvalues : ∀ flag, x.value? flag = none ∨ y.value? flag = none) (rest : List String) :
    result allowEntry (before.flatMap (·.words) ++ (x.words ++ (y.words ++ rest))) =
      result allowEntry (before.flatMap (·.words) ++ (y.words ++ (x.words ++ rest))) := by
  have hsplits : ∀ x y : Argument, x.Proper → y.Proper →
      ((Arguments.ofWords rest).behind (before ++ [x, y])).Splits
        (before.flatMap (·.words) ++ (x.words ++ (y.words ++ rest))) := by
    intro x y hx hy
    have hfront : ∀ z ∈ before ++ [x, y], z.Proper := by
      intro z hz
      simp only [List.mem_append, List.mem_cons, List.not_mem_nil, or_false] at hz
      rcases hz with hz | rfl | rfl
      · exact hbefore z hz
      · exact hx
      · exact hy
    have h := (Arguments.splits_ofWords rest).behind hfront
    simpa [List.flatMap_append, List.append_assoc] using h
  have hparts : ∀ x y : Argument, ((Arguments.ofWords rest).behind (before ++ [x, y])).parts =
      before ++ x :: y :: (Arguments.ofWords rest).parts := by
    intro x y
    simp [Arguments.behind]
  -- Both orders have the same parts, the same words in order and the same last values.
  refine result_congr (hsplits x y hx hy) (hsplits y x hy hx) rfl (fun z => ?_) ?_ fun flag => ?_
  · simp only [hparts, List.mem_append, List.mem_cons]
    exact or_congr_right or_left_comm
  · rw [hparts, hparts, filterMap_swap hwords]
  · rw [lastValue?, lastValue?, hparts, hparts, filterMap_swap (hvalues flag)]

/-- Options are read exactly. An argument list falls into its parts in one way. It has options exactly if no flag is left
without a value, every flag is known and every number is one; they are then what the parts say. So a flag with its value
may be moved across a positional word, or across another flag with its value. -/
theorem ofArgs_exact :
    (∀ args : List String, ∃! a : Arguments, a.Splits args) ∧
    (∀ (allowEntry : Bool) (args : List String) (a : Arguments), a.Splits args →
      ((∃ o, ofArgs allowEntry args = .ok o) ↔ a.dangling = none ∧ ∀ x ∈ a.parts, x.Accepted allowEntry) ∧
      ∀ o, ofArgs allowEntry args = .ok o → o.Holds a.parts) ∧
    ∀ (allowEntry : Bool) (before : List Argument) (flag value : String) (rest : List String),
      (∀ x ∈ before, x.Proper) → isFlag flag = true →
      (∀ word, isFlag word = false →
        result allowEntry (before.flatMap (·.words) ++ flag :: value :: word :: rest) =
          result allowEntry (before.flatMap (·.words) ++ word :: flag :: value :: rest)) ∧
      ∀ flag' value', isFlag flag' = true → flag' ≠ flag →
        result allowEntry (before.flatMap (·.words) ++ flag :: value :: flag' :: value' :: rest) =
          result allowEntry (before.flatMap (·.words) ++ flag' :: value' :: flag :: value :: rest) := by
  refine ⟨fun args => ?_, fun allowEntry args a h => ⟨exists_ofArgs_iff h, fun o => holds_of_ofArgs h⟩, ?_⟩
  · exact ⟨Arguments.ofWords args, Arguments.splits_ofWords args, fun a h => Arguments.splits_iff.mp h⟩
  · intro allowEntry before flag value rest hbefore hflag
    refine ⟨fun word hword => ?_, fun flag' value' hflag' hne => ?_⟩
    · exact result_swap (x := .option flag value) (y := .positional word) hbefore hflag hword (Or.inl rfl)
        (fun _ => Or.inr rfl) rest
    · refine result_swap (x := .option flag value) (y := .option flag' value') hbefore hflag hflag' (Or.inl rfl)
        (fun other => ?_) rest
      by_cases hother : flag = other
      · exact Or.inr (if_neg fun h => hne (h.trans hother.symm))
      · exact Or.inl (if_neg hother)

/-- A flag that is given twice, and a value that looks like a flag. -/
def repeatedFlag : Arguments where
  parts := [.positional "prog", .option "--max-steps" "9", .option "--entry" "--max-depth", .positional "-3",
    .option "--max-steps" "+50"]
  dangling := none

theorem ofArgs_exact_repeatedFlag :
    repeatedFlag.Splits ["prog", "--max-steps", "9", "--entry", "--max-depth", "-3", "--max-steps", "+50"] ∧
    (∃ o, ofArgs true ["prog", "--max-steps", "9", "--entry", "--max-depth", "-3", "--max-steps", "+50"] = .ok o ∧
      o.Holds repeatedFlag.parts) ∧
    result true ["prog", "--max-steps", "9", "--entry", "--max-depth", "-3", "--max-steps", "+50"] =
      result true ["prog", "--entry", "--max-depth", "--max-steps", "9", "-3", "--max-steps", "+50"] := by
  have hsplits : repeatedFlag.Splits
      ["prog", "--max-steps", "9", "--entry", "--max-depth", "-3", "--max-steps", "+50"] :=
    Arguments.splits_iff.mpr (by decide +kernel)
  have hnine : Numeral.IsNat64 "9" 9 := Numeral.nat64?_eq_some_iff.mp (by decide +kernel)
  have hfifty : Numeral.IsNat64 "+50" 50 := Numeral.nat64?_eq_some_iff.mp (by decide +kernel)
  have haccepted : ∀ x ∈ repeatedFlag.parts, x.Accepted true := by
    simp only [repeatedFlag, List.forall_mem_cons]
    exact ⟨trivial, Or.inr ⟨Or.inl rfl, 9, hnine⟩, Or.inl ⟨rfl, rfl⟩, trivial, Or.inr ⟨Or.inl rfl, 50, hfifty⟩,
      List.forall_mem_nil _⟩
  obtain ⟨-, hread, hmove⟩ := ofArgs_exact
  obtain ⟨hiff, hholds⟩ := hread true _ repeatedFlag hsplits
  obtain ⟨o, ho⟩ := hiff.mpr ⟨rfl, haccepted⟩
  have hbefore : ∀ x ∈ [Argument.positional "prog"], x.Proper := by
    intro x hx
    rw [List.mem_singleton.mp hx]
    exact (by decide +kernel : isFlag "prog" = false)
  obtain ⟨-, hpair⟩ := hmove true [.positional "prog"] "--max-steps" "9" ["-3", "--max-steps", "+50"] hbefore
    (by decide +kernel)
  exact ⟨hsplits, ⟨o, ho, hholds o ho⟩, hpair "--entry" "--max-depth" (by decide +kernel) (by decide)⟩

end Options

end StackMachine
