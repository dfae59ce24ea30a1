import Mathlib.Data.Nat.Digits.Defs
import StackMachine.Proofs.Assembly.RoundTrip

/-! Numbers in assembly text. A numeral has one value, however many digits it has; an operand is that value if it is in the
range of the operand, and every other word that starts like a number is an invalid number. The lexer reads numerals up to
64 bits and the operands narrow them further, but nothing in between is lost: what does not fit the first step would not
fit the second one. -/

namespace StackMachine

/-! ### What numerals denote -/

namespace Numeral

/-- The digits in small letters, each at its value. -/
def smallDigits : List Char := "0123456789abcdef".toList

/-- The digits in capital letters, each at its value. -/
def capitalDigits : List Char := "0123456789ABCDEF".toList

/-- Character `c` is the digit `d` of a base up to sixteen. -/
def IsDigit (base : Nat) (c : Char) (d : Nat) : Prop :=
  d < base ∧ (smallDigits[d]? = some c ∨ capitalDigits[d]? = some c)

/-- The characters are the digits of `n` in a base, the most significant first. -/
def Digits (base : Nat) (cs : List Char) (n : Nat) : Prop :=
  ∃ ds, ds ≠ [] ∧ List.Forall₂ (IsDigit base) cs ds ∧ n = Nat.ofDigits base ds.reverse

/-- The characters are a numeral without a sign. -/
inductive Unsigned : List Char → Nat → Prop
  | decimal {cs : List Char} {n : Nat} : Digits 10 cs n → Unsigned cs n
  | hexadecimal {x : Char} {cs : List Char} {n : Nat} : x = 'x' ∨ x = 'X' → Digits 16 cs n → Unsigned ('0' :: x :: cs) n

/-- The characters are a numeral with this value. -/
inductive Denotes : List Char → Int → Prop
  | plain {cs : List Char} {n : Nat} : Unsigned cs n → Denotes cs n
  | negative {cs : List Char} {n : Nat} : Unsigned cs n → Denotes ('-' :: cs) (-n)

/-! ### Reading digits -/

theorem getElem?_of_range {digits : List Char} {low high c : Char} (first : Nat)
    (hdigits : ∀ k ≤ high.toNat - low.toNat, digits[k + first]? = some (Char.ofNat (low.toNat + k)))
    (h : low ≤ c ∧ c ≤ high) : digits[c.toNat - low.toNat + first]? = some c := by
  have hlow : low.toNat ≤ c.toNat := h.1
  have hhigh : c.toNat ≤ high.toNat := h.2
  rw [hdigits _ (Nat.sub_le_sub_right hhigh _), Nat.add_sub_cancel' hlow, Char.ofNat_toNat]

section
variable {base : Nat} {c : Char} {d : Nat}

theorem isDigit_of_digit? (h : digit? base c = some d) : IsDigit base c d := by
  obtain ⟨hvalue, hlt⟩ := Option.filter_eq_some_iff.mp h
  refine ⟨by simpa using hlt, ?_⟩
  split at hvalue
  · rename_i hrange
    cases hvalue
    exact Or.inl (getElem?_of_range 0 (by decide) hrange)
  · split at hvalue
    · rename_i hrange
      cases hvalue
      exact Or.inl (getElem?_of_range 10 (by decide) hrange)
    · split at hvalue
      · rename_i hrange
        cases hvalue
        exact Or.inr (getElem?_of_range 10 (by decide) hrange)
      · cases hvalue

theorem digit?_eq_some_iff (hbase : base ≤ 16) : digit? base c = some d ↔ IsDigit base c d := by
  constructor
  · exact isDigit_of_digit?
  · rintro ⟨hd, hc⟩
    have hsmall : ∀ k < 16, smallDigits[k]?.bind (digit? 16) = some k := by decide
    have hcapital : ∀ k < 16, capitalDigits[k]?.bind (digit? 16) = some k := by decide
    have hlt : d < 16 := Nat.lt_of_lt_of_le hd hbase
    have h16 : digit? 16 c = some d := by
      rcases hc with hc | hc
      · have hbind := hsmall d hlt
        rwa [hc] at hbind
      · have hbind := hcapital d hlt
        rwa [hc] at hbind
    obtain ⟨hvalue, -⟩ := Option.filter_eq_some_iff.mp h16
    exact Option.filter_eq_some_iff.mpr ⟨hvalue, by simpa using hd⟩

theorem foldlM_digit?_eq_some_iff (hbase : base ≤ 16) {cs : List Char} {start n : Nat} :
    cs.foldlM (fun n c => (digit? base c).map (base * n + ·)) start = some n ↔
      ∃ ds, List.Forall₂ (IsDigit base) cs ds ∧ n = ds.foldl (fun n d => d + base * n) start := by
  induction cs generalizing start with
  | nil => simp [eq_comm]
  | cons c cs ih =>
    rw [List.foldlM_cons, Option.bind_eq_bind, Option.bind_eq_some_iff]
    simp only [ih, Option.map_eq_some_iff, digit?_eq_some_iff hbase, List.forall₂_cons_left_iff]
    constructor
    · rintro ⟨_, ⟨d, hd, rfl⟩, ds, hds, rfl⟩
      exact ⟨d :: ds, ⟨d, ds, hd, hds, rfl⟩, by rw [List.foldl_cons, Nat.add_comm d]⟩
    · rintro ⟨_, ⟨d, ds, hd, hds, rfl⟩, rfl⟩
      exact ⟨_, ⟨d, hd, rfl⟩, ds, hds, by rw [List.foldl_cons, Nat.add_comm d]⟩

/-- A run of digits is read from the left; its value is that of the positions. -/
theorem ofDigits?_eq_some_iff (hbase : base ≤ 16) {cs : List Char} {n : Nat} :
    ofDigits? base cs = some n ↔ Digits base cs n := by
  have hvalue : ∀ ds : List Nat, Nat.ofDigits base ds.reverse = ds.foldl (fun n d => d + base * n) 0 := by
    intro ds
    rw [Nat.ofDigits_eq_foldr, List.foldr_reverse]
    rfl
  unfold ofDigits? Digits
  simp only [hvalue]
  cases cs with
  | nil => simp
  | cons c cs =>
    rw [List.isEmpty_cons, if_neg Bool.false_ne_true, foldlM_digit?_eq_some_iff hbase]
    refine exists_congr fun ds => ⟨fun ⟨hds, hn⟩ => ⟨?_, hds, hn⟩, fun ⟨_, hds, hn⟩ => ⟨hds, hn⟩⟩
    rintro rfl
    cases hds

theorem Digits.isDigit_of_mem {cs : List Char} {n : Nat} (h : Digits base cs n) (hc : c ∈ cs) :
    ∃ d, IsDigit base c d := by
  obtain ⟨ds, -, hds, -⟩ := h
  obtain ⟨d, -, hd⟩ := exists_of_mem_right hds.flip c hc
  exact ⟨d, hd⟩

theorem not_isDigit_of_digit? (hbase : base ≤ 16) (h : digit? base c = none) : ¬IsDigit base c d := by
  intro hd
  rw [← digit?_eq_some_iff hbase, h] at hd
  cases hd

end

end Numeral

/-! ### Tokens -/

namespace Token
open Numeral
variable {cs w : List Char} {n : Nat} {v v' : Int}

/-- After the mark of a hexadecimal numeral there is no other way to read it. -/
theorem ofDigits?_eq_some_iff_unsigned {x : Char} (hx : x = 'x' ∨ x = 'X') :
    ofDigits? 16 cs = some n ↔ Unsigned ('0' :: x :: cs) n := by
  rw [ofDigits?_eq_some_iff (by decide)]
  constructor
  · exact .hexadecimal hx
  · intro h
    cases h with
    | decimal h =>
      obtain ⟨d, hd⟩ := h.isDigit_of_mem (List.mem_cons_of_mem _ List.mem_cons_self)
      refine absurd hd (not_isDigit_of_digit? (by decide) ?_)
      rcases hx with rfl | rfl <;> decide
    | hexadecimal _ h => exact h

theorem magnitude?_eq_some_iff : magnitude? cs = some n ↔ Unsigned cs n := by
  unfold magnitude?
  split
  · exact ofDigits?_eq_some_iff_unsigned (Or.inl rfl)
  · exact ofDigits?_eq_some_iff_unsigned (Or.inr rfl)
  · rename_i hsmall hcapital
    rw [ofDigits?_eq_some_iff (by decide)]
    constructor
    · exact .decimal
    · intro h
      cases h with
      | decimal h => exact h
      | hexadecimal hx _ =>
        rcases hx with rfl | rfl
        · exact absurd rfl (hsmall _)
        · exact absurd rfl (hcapital _)

theorem not_unsigned_minus : ¬Unsigned ('-' :: cs) n := by
  intro h
  cases h with
  | decimal h =>
    obtain ⟨d, hd⟩ := h.isDigit_of_mem List.mem_cons_self
    exact not_isDigit_of_digit? (by decide) (by decide) hd

theorem magnitude?_filter_eq_some_iff :
    (magnitude? cs).filter (· < 0x8000000000000000) = some n ↔ Unsigned cs n ∧ n < 2 ^ 63 := by
  rw [Option.filter_eq_some_iff, magnitude?_eq_some_iff, decide_eq_true_eq]
  rfl

/-- A numeral is read as the value that it denotes, if that is within 64 bits. -/
theorem literal?_eq_some_iff : literal? w = some v ↔ Denotes w v ∧ v.natAbs < 2 ^ 63 := by
  have hmap : ∀ (x : Option Nat) (f : Int → Int),
      (x >>= fun n => pure (n : Int)).map f = some v ↔ ∃ n : Nat, x = some n ∧ f n = v := by
    intro x f
    cases x <;> simp
  unfold literal?
  split
  · simp only [hmap, magnitude?_filter_eq_some_iff]
    constructor
    · rintro ⟨n, ⟨hn, hlt⟩, rfl⟩
      exact ⟨.negative hn, by omega⟩
    · rintro ⟨h, hlt⟩
      cases h with
      | plain h => exact absurd h not_unsigned_minus
      | @negative _ n h => exact ⟨n, ⟨h, by omega⟩, rfl⟩
  · rename_i hminus
    simp only [hmap, magnitude?_filter_eq_some_iff]
    constructor
    · rintro ⟨n, ⟨hn, hlt⟩, rfl⟩
      exact ⟨.plain hn, by omega⟩
    · rintro ⟨h, hlt⟩
      cases h with
      | @plain _ n h => exact ⟨n, ⟨h, by omega⟩, rfl⟩
      | negative h => exact absurd rfl (hminus _)

theorem unsigned_unique {n' : Nat} (h : Unsigned cs n) (h' : Unsigned cs n') : n = n' := by
  rw [← magnitude?_eq_some_iff] at h h'
  exact Option.some.inj (h.symm.trans h')

theorem denotes_unique (h : Denotes w v) (h' : Denotes w v') : v = v' := by
  cases h with
  | plain h =>
    cases h' with
    | plain h' => rw [unsigned_unique h h']
    | negative h' => exact absurd h not_unsigned_minus
  | negative h =>
    cases h' with
    | plain h' => exact absurd h' not_unsigned_minus
    | negative h' => rw [unsigned_unique h h']

/-- A word that is taken for a number, whether or not it is one. -/
structure LooksNumeric (w : String) : Prop where
  isWord : Text.IsWord w.toList
  starts : ∃ c rest, c.isDigit = true ∧ (w.toList = c :: rest ∨ w.toList = '-' :: c :: rest)

theorem LooksNumeric.startsNumeral {w : String} (h : LooksNumeric w) : startsNumeral w.toList = true := by
  obtain ⟨c, rest, hc, hw | hw⟩ := h.starts
  · rw [hw]
    unfold Numeral.startsNumeral
    split
    · rename_i heq
      cases heq
      exact absurd hc (by decide)
    · rename_i heq
      cases heq
      exact hc
    · rename_i heq
      cases heq
  · rw [hw]
    exact hc

theorem LooksNumeric.ofWord_cases {w : String} (h : LooksNumeric w) :
    (∃ v, Denotes w.toList v ∧ ofWord w.toList = .ok (.number v)) ∨
      ((∀ v, Denotes w.toList v → 2 ^ 63 ≤ v.natAbs) ∧ ofWord w.toList = .error (.invalidNumber w)) := by
  rw [ofWord, if_pos h.startsNumeral]
  cases hl : literal? w.toList with
  | some v => exact Or.inl ⟨v, (literal?_eq_some_iff.mp hl).1, rfl⟩
  | none =>
    refine Or.inr ⟨fun v hv => Nat.le_of_not_lt fun hlt => ?_, by rw [String.ofList_toList]⟩
    rw [literal?_eq_some_iff.mpr ⟨hv, hlt⟩] at hl
    cases hl

section
variable {front ws : List String} {tokens : List Token}

theorem mapM_ofWord_cases (h : ∀ w ∈ ws, LooksNumeric w) :
    (∃ vs, List.Forall₂ (fun w v => Denotes w.toList v) ws vs ∧
      (ws.map String.toList).mapM ofWord = .ok (vs.map .number)) ∨
    ∃ w ∈ ws, (∀ v, Denotes w.toList v → 2 ^ 63 ≤ v.natAbs) ∧
      (ws.map String.toList).mapM ofWord = .error (.invalidNumber w) := by
  induction ws with
  | nil => exact Or.inl ⟨[], .nil, rfl⟩
  | cons w ws ih =>
    rw [List.map_cons, List.mapM_cons]
    rcases (h w List.mem_cons_self).ofWord_cases with ⟨v, hv, hw⟩ | ⟨hv, hw⟩
    · rw [hw]
      rcases ih fun w' hw' => h w' (List.mem_cons_of_mem _ hw') with ⟨vs, hvs, hws⟩ | ⟨w', hw', hlarge, hws⟩
      · rw [hws]
        exact Or.inl ⟨v :: vs, .cons hv hvs, rfl⟩
      · rw [hws]
        exact Or.inr ⟨w', List.mem_cons_of_mem _ hw', hlarge, rfl⟩
    · rw [hw]
      exact Or.inr ⟨w, List.mem_cons_self, hv, rfl⟩

/-- The numbers at the end of a line are read as they are, or one of them is so large that no operand takes it. -/
theorem ofLine_cases (hfront : List.Forall₂ Writes front tokens) (h : ∀ w ∈ ws, LooksNumeric w) :
    (∃ vs, List.Forall₂ (fun w v => Denotes w.toList v) ws vs ∧
      ofLine (" ".intercalate (front ++ ws)).toList = .ok (tokens ++ vs.map .number)) ∨
    ∃ w ∈ ws, (∀ v, Denotes w.toList v → 2 ^ 63 ≤ v.natAbs) ∧
      ofLine (" ".intercalate (front ++ ws)).toList = .error (.invalidNumber w) := by
  have hwords : ∀ w ∈ (front ++ ws).map String.toList, Text.IsWord w := by
    intro w hw
    rw [List.map_append] at hw
    rcases List.mem_append.mp hw with hw | hw
    · exact isWord_of_mem hfront w hw
    · obtain ⟨w', hw', rfl⟩ := List.mem_map.mp hw
      exact (h w' hw').isWord
  rw [ofLine_words hwords, List.map_append, List.mapM_append, mapM_ofWord hfront]
  rcases mapM_ofWord_cases h with ⟨vs, hvs, hws⟩ | ⟨w, hw, hlarge, hws⟩
  · rw [hws]
    exact Or.inl ⟨vs, hvs, rfl⟩
  · rw [hws]
    exact Or.inr ⟨w, hw, hlarge, rfl⟩

end

end Token

/-! ### Ranges of operands -/

namespace Numeral

/-- The word is a numeral with this value, which is in a range. -/
def Within (w : String) (low high v : Int) : Prop :=
  Denotes w.toList v ∧ low ≤ v ∧ v < high

/-- The values of a type are those of a range within 64 bits, and `fit?` takes no others. -/
structure Fits {α : Type} (fit? : Int → Option α) (low high : Int) (value : α → Int) : Prop where
  lower : -2 ^ 63 < low
  upper : high ≤ 2 ^ 63
  inside : ∀ v, low ≤ v → v < high → ∃ a, value a = v
  outside : ∀ v, ¬(low ≤ v ∧ v < high) → fit? v = none

theorem fits_int32 : Fits toInt32? (-2 ^ 31) (2 ^ 31) Int32.toInt where
  lower := by decide
  upper := by decide
  inside v hlow hhigh := ⟨Int32.ofInt v, Int32.toInt_ofInt_of_le hlow hhigh⟩
  outside _ hout := if_neg hout

theorem fits_uint16 : Fits toUInt16? 0 (2 ^ 16) fun value => value.toNat where
  lower := by decide
  upper := by decide
  inside v hlow hhigh := by
    have hlt : v.toNat < UInt16.size := by
      rw [UInt16.size]
      omega
    exact ⟨UInt16.ofNat v.toNat, by rw [UInt16.toNat_ofNat_of_lt' hlt, Int.toNat_of_nonneg hlow]⟩
  outside _ hout := if_neg hout

theorem fits_uint32 : Fits toUInt32? 0 (2 ^ 32) fun value => value.toNat where
  lower := by decide
  upper := by decide
  inside v hlow hhigh := by
    have hlt : v.toNat < UInt32.size := by
      rw [UInt32.size]
      omega
    exact ⟨UInt32.ofNat v.toNat, by rw [UInt32.toNat_ofNat_of_lt' hlt, Int.toNat_of_nonneg hlow]⟩
  outside _ hout := if_neg hout

end Numeral

namespace Operands
variable {opcode : String} {expected : Nat} {n : Int} {ts : List Token}

theorem run_number_of_none {α : Type} {fit? : Int → Option α} (h : fit? n = none) :
    (number opcode expected fit?).run (.number n :: ts) = .error (.invalidNumber (toString n)) := by
  refine ((reads_next (.number n)).run_bind ts).trans ?_
  simp only [h]
  rfl

theorem run_target_of_none (h : Numeral.toUInt32? n = none) :
    (target opcode expected).run (.number n :: ts) = .error (.invalidNumber (toString n)) := by
  refine ((reads_next (.number n)).run_bind ts).trans ?_
  simp only [h]
  rfl

theorem run_start_of_arity (name : String) (h : Numeral.toUInt16? n = none) :
    start.run (.ident name :: .number n :: ts) = .error (.invalidNumber (toString n)) :=
  ((reads_name name).run_bind _).trans (run_bind_of_error (run_number_of_none h))

theorem run_start_of_localCount (name : String) (arity : UInt16) (h : Numeral.toUInt16? n = none) :
    start.run (.ident name :: .number arity.toNat :: .number n :: ts) = .error (.invalidNumber (toString n)) :=
  ((reads_name name).run_bind _).trans
    (((reads_number (Numeral.toUInt16?_toNat arity)).run_bind _).trans (run_bind_of_error (run_number_of_none h)))

end Operands

/-! ### Lines with a number -/

namespace Statement
open Numeral

/-- The line has the number `w` as an operand in a range. With a value in the range the line is the item of that value,
and in every other case it has an invalid number. -/
structure ReadsNumber {α : Type} (line w : String) (low high : Int) (value : α → Int) (item : α → Item) : Prop where
  inside : ∀ v, Within w low high v → ∃ a, value a = v ∧ ofLine line.toList = .ok ⟨none, some (item a)⟩
  outside : (∀ v, ¬Within w low high v) → ∃ token, ofLine line.toList = .error (.invalidNumber token)

theorem ofLine_of_error {line : List Char} {e : LineError} (h : Token.ofLine line = .error e) : ofLine line = .error e := by
  rw [ofLine, h]
  rfl

theorem ofTokens_start (ts : List Token) : ofTokens (.directive "method" :: ts) =
    (fun item => ⟨none, some item⟩) <$> Item.complete Operands.start ts := by
  simp only [ofTokens, Item.ofTokens, Item.ofDirective, if_true]
  cases Item.complete Operands.start ts <;> rfl

theorem ofTokens_draft (op : Opcode) (ts : List Token) : ofTokens (.ident op.mnemonic :: ts) =
    (fun item => ⟨none, some item⟩) <$> Item.complete (Item.instruction <$> Operands.draft op) ts := by
  simp only [ofTokens, Item.ofTokens, Item.ofMnemonic, op.ofMnemonic?_mnemonic]
  cases Item.complete (Item.instruction <$> Operands.draft op) ts <;> rfl

section
variable {α : Type} {fit? : Int → Option α} {low high : Int} {value : α → Int} {front : List String}
  {tokens : List Token} {w : String}

/-- A numeral that the lexer refuses has no value in the range of an operand. -/
theorem readsNumber {item : α → Item} (hfront : List.Forall₂ Token.Writes front tokens) (hw : Token.LooksNumeric w)
    (hfits : Fits fit? low high value)
    (hok : ∀ a, ofTokens (tokens ++ [.number (value a)]) = .ok ⟨none, some (item a)⟩)
    (herror : ∀ v, fit? v = none → ofTokens (tokens ++ [.number v]) = .error (.invalidNumber (toString v))) :
    ReadsNumber (" ".intercalate (front ++ [w])) w low high value item := by
  have hall : ∀ w' ∈ [w], Token.LooksNumeric w' := fun w' hw' => List.mem_singleton.mp hw' ▸ hw
  rcases Token.ofLine_cases hfront hall with ⟨vs, hvs, hline⟩ | ⟨w', hw', hlarge, hline⟩
  · obtain ⟨v, _, hv, hnil, rfl⟩ := List.forall₂_cons_left_iff.mp hvs
    cases hnil
    refine ⟨?_, ?_⟩
    · rintro v' ⟨hv', hlow, hhigh⟩
      obtain rfl := Token.denotes_unique hv hv'
      obtain ⟨a, rfl⟩ := hfits.inside v hlow hhigh
      exact ⟨a, rfl, (ofLine_of_tokens hline).trans (hok a)⟩
    · intro hout
      have hnone := hfits.outside v fun hin => hout v ⟨hv, hin⟩
      exact ⟨toString v, (ofLine_of_tokens hline).trans (herror v hnone)⟩
  · -- The word was refused already as a token, so its value is outside of every range.
    obtain rfl := List.mem_singleton.mp hw'
    refine ⟨?_, fun _ => ⟨w', ofLine_of_error hline⟩⟩
    rintro v ⟨hv, hlow, hhigh⟩
    have hsize := hlarge v hv
    have hmin := hfits.lower
    have hmax := hfits.upper
    omega

/-- Instructions whose last operand is a number. -/
theorem readsNumber_instruction (op : Opcode) (make : α → Instruction) (hfront : List.Forall₂ Token.Writes front tokens)
    (hw : Token.LooksNumeric w) (hfits : Fits fit? low high value) (hop : ∀ a, (make a).opcode = op)
    (hmake : ∀ a, (make a).operandTokens = tokens ++ [.number (value a)])
    (herror : ∀ v, fit? v = none →
      (Operands.draft op).run (tokens ++ [.number v]) = .error (.invalidNumber (toString v))) :
    ReadsNumber (" ".intercalate (op.mnemonic :: front ++ [w])) w low high value fun a =>
      .instruction (make a).draft := by
  refine readsNumber (.cons (Token.writes_name op.isName_mnemonic) hfront) hw hfits (fun a => ?_) fun v hv => ?_
  · have hread := (make a).reads_draft
    rw [hop, hmake] at hread
    have hitem : Item.complete (Item.instruction <$> Operands.draft op) (tokens ++ [.number (value a)]) =
        .ok (.instruction (make a).draft) := Item.complete_eq_ok (hread.map Item.instruction)
    rw [List.cons_append, ofTokens_draft, hitem]
    rfl
  · have hrun : (Item.instruction <$> Operands.draft op).run (tokens ++ [.number v]) =
        .error (.invalidNumber (toString v)) := by
      rw [StateT.run_map, herror v hv]
      rfl
    rw [List.cons_append, ofTokens_draft, Item.complete, hrun]
    rfl

end

theorem ofTokens_start_of_reads {ts : List Token} {item : Item} (h : Reads Operands.start ts item) :
    ofTokens (.directive "method" :: ts) = .ok ⟨none, some item⟩ := by
  rw [ofTokens_start, Item.complete_eq_ok h]
  rfl

theorem ofTokens_start_of_error {ts : List Token} {e : LineError} (h : Operands.start.run ts = .error e) :
    ofTokens (.directive "method" :: ts) = .error e := by
  rw [ofTokens_start, Item.complete, h]
  rfl

/-- The line that opens a method has two numbers. -/
theorem readsNumbers_heading {name w w' : String} (hname : isName name = true) (hw : Token.LooksNumeric w)
    (hw' : Token.LooksNumeric w') :
    (∀ v v', Within w 0 (2 ^ 16) v → Within w' 0 (2 ^ 16) v' → ∃ arity localCount : UInt16,
      arity.toNat = v ∧ localCount.toNat = v' ∧
      ofLine (" ".intercalate [".method", name, w, w']).toList = .ok ⟨none, some (.start name arity localCount)⟩) ∧
    ((∀ v, ¬Within w 0 (2 ^ 16) v) ∨ (∀ v, ¬Within w' 0 (2 ^ 16) v) → ∃ token,
      ofLine (" ".intercalate [".method", name, w, w']).toList = .error (.invalidNumber token)) := by
  have hfront : List.Forall₂ Token.Writes [".method", name] [.directive "method", .ident name] :=
    .cons Token.writes_method (.cons (Token.writes_name hname) .nil)
  have hall : ∀ x ∈ [w, w'], Token.LooksNumeric x := by simp [hw, hw']
  rcases Token.ofLine_cases hfront hall with ⟨vs, hvs, hline⟩ | ⟨x, hx, hlarge, hline⟩
  · obtain ⟨v, _, hv, hrest, rfl⟩ := List.forall₂_cons_left_iff.mp hvs
    obtain ⟨v', _, hv', hnil, rfl⟩ := List.forall₂_cons_left_iff.mp hrest
    cases hnil
    have htokens : ofLine (" ".intercalate [".method", name, w, w']).toList =
        ofTokens [.directive "method", .ident name, .number v, .number v'] := ofLine_of_tokens hline
    refine ⟨?_, fun hout => ?_⟩
    · rintro n n' ⟨hn, hlow, hhigh⟩ ⟨hn', hlow', hhigh'⟩
      obtain rfl := Token.denotes_unique hv hn
      obtain rfl := Token.denotes_unique hv' hn'
      obtain ⟨arity, rfl⟩ := fits_uint16.inside v hlow hhigh
      obtain ⟨localCount, rfl⟩ := fits_uint16.inside v' hlow' hhigh'
      exact ⟨arity, localCount, rfl, rfl,
        htokens.trans (ofTokens_start_of_reads (Operands.reads_start name arity localCount))⟩
    · by_cases hin : 0 ≤ v ∧ v < 2 ^ 16
      · -- The arity is read, so it is the other number that is out of range.
        obtain ⟨arity, rfl⟩ := fits_uint16.inside v hin.1 hin.2
        have hother := hout.resolve_left fun hall => hall _ ⟨hv, hin⟩
        have hnone := fits_uint16.outside v' fun hin' => hother v' ⟨hv', hin'⟩
        exact ⟨toString v', htokens.trans (ofTokens_start_of_error (Operands.run_start_of_localCount name arity hnone))⟩
      · have hnone := fits_uint16.outside v hin
        exact ⟨toString v, htokens.trans (ofTokens_start_of_error (Operands.run_start_of_arity name hnone))⟩
  · refine ⟨?_, fun _ => ⟨x, ofLine_of_error hline⟩⟩
    rintro n n' ⟨hn, hlow, hhigh⟩ ⟨hn', hlow', hhigh'⟩
    rcases List.mem_cons.mp hx with rfl | hx
    · have hsize := hlarge n hn
      omega
    · obtain rfl := List.mem_singleton.mp hx
      have hsize := hlarge n' hn'
      omega

/-- Numbers are read exactly. A word that looks like a number denotes at most one integer. As the operand of an
instruction or of a heading it is that integer if the operand can take it, and otherwise an invalid number. -/
theorem numbers_read_exactly {w : String} (hw : Token.LooksNumeric w) :
    (∀ v v', Denotes w.toList v → Denotes w.toList v' → v = v') ∧
    ReadsNumber (" ".intercalate ["PUSH_CONST", w]) w (-2 ^ 31) (2 ^ 31) Int32.toInt
      (fun value => .instruction (.ready (.pushConst value))) ∧
    ReadsNumber (" ".intercalate ["LOAD_LOCAL", w]) w 0 (2 ^ 16) (fun slot : UInt16 => slot.toNat)
      (fun slot => .instruction (.ready (.loadLocal slot))) ∧
    ReadsNumber (" ".intercalate ["STORE_LOCAL", w]) w 0 (2 ^ 16) (fun slot : UInt16 => slot.toNat)
      (fun slot => .instruction (.ready (.storeLocal slot))) ∧
    ReadsNumber (" ".intercalate ["JUMP", w]) w 0 (2 ^ 32) (fun index : UInt32 => index.toNat)
      (fun index => .instruction (.jump (.index index))) ∧
    ReadsNumber (" ".intercalate ["JUMP_IF_FALSE", w]) w 0 (2 ^ 32) (fun index : UInt32 => index.toNat)
      (fun index => .instruction (.jumpIfFalse (.index index))) ∧
    (∀ name, isName name = true →
      ReadsNumber (" ".intercalate ["INVOKE_STATIC", name, w]) w 0 (2 ^ 16) (fun argc : UInt16 => argc.toNat)
        (fun argc => .instruction (.ready (.invokeStatic name argc)))) ∧
    ∀ name w', isName name = true → Token.LooksNumeric w' →
      (∀ v v', Within w 0 (2 ^ 16) v → Within w' 0 (2 ^ 16) v' → ∃ arity localCount : UInt16,
        arity.toNat = v ∧ localCount.toNat = v' ∧
        ofLine (" ".intercalate [".method", name, w, w']).toList = .ok ⟨none, some (.start name arity localCount)⟩) ∧
      ((∀ v, ¬Within w 0 (2 ^ 16) v) ∨ (∀ v, ¬Within w' 0 (2 ^ 16) v) → ∃ token,
        ofLine (" ".intercalate [".method", name, w, w']).toList = .error (.invalidNumber token)) := by
  have hnumber : ∀ {α β : Type} {opcode : String} {expected : Nat} {fit? : Int → Option α} {k : α → Operands β} {v : Int},
      fit? v = none → (Operands.number opcode expected fit? >>= k).run [.number v] = .error (.invalidNumber (toString v)) :=
    fun hv => run_bind_of_error (Operands.run_number_of_none hv)
  refine ⟨fun v v' => Token.denotes_unique, ?_, ?_, ?_, ?_, ?_, fun name hname => ?_, ?_⟩
  · exact readsNumber_instruction .pushConst .pushConst .nil hw fits_int32 (fun _ => rfl) (fun _ => rfl) fun v => hnumber
  · exact readsNumber_instruction .loadLocal .loadLocal .nil hw fits_uint16 (fun _ => rfl) (fun _ => rfl) fun v => hnumber
  · exact readsNumber_instruction .storeLocal .storeLocal .nil hw fits_uint16 (fun _ => rfl) (fun _ => rfl) fun v => hnumber
  · exact readsNumber_instruction .jump .jump .nil hw fits_uint32 (fun _ => rfl) (fun _ => rfl) fun v hv =>
      run_bind_of_error (Operands.run_target_of_none hv)
  · exact readsNumber_instruction .jumpIfFalse .jumpIfFalse .nil hw fits_uint32 (fun _ => rfl) (fun _ => rfl) fun v hv =>
      run_bind_of_error (Operands.run_target_of_none hv)
  · exact readsNumber_instruction .invokeStatic (.invokeStatic name) (.cons (Token.writes_name hname) .nil) hw fits_uint16
      (fun _ => rfl) (fun _ => rfl) fun v hv => ((Operands.reads_name name).run_bind _).trans (hnumber hv)
  · exact fun name w' hname hw' => readsNumbers_heading hname hw hw'

/-- The least constant, with leading zeros. -/
def leastConstant : String := "-0X0080000000"

theorem numbers_read_exactly_least : Token.LooksNumeric leastConstant ∧ Denotes leastConstant.toList (-2 ^ 31) ∧
    (∃ value : Int32, value.toInt = -2 ^ 31 ∧ ofLine (" ".intercalate ["PUSH_CONST", leastConstant]).toList =
      .ok ⟨none, some (.instruction (.ready (.pushConst value)))⟩) ∧
    ∃ token, ofLine (" ".intercalate ["LOAD_LOCAL", leastConstant]).toList = .error (.invalidNumber token) := by
  have hplain : (leastConstant.toList.all fun c => !Text.isBlank c && c != ';') = true := by decide +kernel
  have hw : Token.LooksNumeric leastConstant := by
    refine ⟨⟨by decide +kernel, fun c hc => ?_⟩, '0', _, rfl, Or.inr rfl⟩
    simpa using List.all_eq_true.mp hplain c hc
  have hv : Denotes leastConstant.toList (-2 ^ 31) := (Token.literal?_eq_some_iff.mp (by decide +kernel)).1
  obtain ⟨hunique, hpush, hload, -⟩ := numbers_read_exactly hw
  refine ⟨hw, hv, hpush.inside _ ⟨hv, by decide, by decide⟩, hload.outside ?_⟩
  rintro v ⟨hv', hlow, -⟩
  rw [hunique v _ hv' hv] at hlow
  exact absurd hlow (by decide)

end Statement

end StackMachine
