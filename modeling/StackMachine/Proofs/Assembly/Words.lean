import Mathlib.Data.List.Forall2
import Mathlib.Data.List.TakeWhile
import StackMachine.Assembly.Token

/-! How written words are read: words with single spaces between them are the words of their line, lines that end
with a line feed are the lines of their text, and a word is read as the token it was written for. A method name is
written as an identifier because it is none of the other kinds of word. -/

namespace StackMachine
namespace Text

/-! ### Words and lines -/

/-- A run has a character, and no blanks. -/
structure IsRun (w : List Char) : Prop where
  ne_nil : w ≠ []
  unbroken : ∀ c ∈ w, isBlank c = false

/-- A word has a character, and neither blanks nor semicolons. -/
structure IsWord (w : List Char) : Prop where
  ne_nil : w ≠ []
  plain : ∀ c ∈ w, isBlank c = false ∧ c ≠ ';'

variable {w : List Char} {ws : List (List Char)}

theorem IsWord.isRun (h : IsWord w) : IsRun w :=
  ⟨h.ne_nil, fun c hc => (h.plain c hc).1⟩

theorem words_space (cs : List Char) : words (' ' :: cs) = words cs := by
  have h : (' ' :: cs).splitOnP isBlank = [] :: cs.splitOnP isBlank :=
    List.splitOnP_append_cons_of_forall_mem (List.forall_mem_nil _) ' ' (by decide) cs
  simp [words, h]

theorem words_append_space (h : IsRun w) (cs : List Char) : words (w ++ ' ' :: cs) = w :: words cs := by
  have hw := List.splitOnP_append_cons_of_forall_mem h.unbroken ' ' (by decide) cs
  simp [words, hw, h.ne_nil]

theorem words_of_isRun (h : IsRun w) : words w = [w] := by
  simp [words, List.splitOnP_eq_singleton h.unbroken, h.ne_nil]

/-- Runs with single spaces between them are told apart again. -/
theorem words_intercalate (h : ∀ w ∈ ws, IsRun w) : words ([' '].intercalate ws) = ws := by
  induction ws with
  | nil => rfl
  | cons w ws ih =>
    have hw := h w List.mem_cons_self
    have hws := ih fun v hv => h v (List.mem_cons_of_mem _ hv)
    cases ws with
    | nil => rw [List.intercalate_singleton, words_of_isRun hw]
    | cons v ws =>
      rw [List.intercalate_cons_cons, List.append_assoc, List.singleton_append, words_append_space hw, hws]

theorem mem_of_mem_intercalate {α : Type} {x : α} {sep : List α} {parts : List (List α)}
    (h : x ∈ sep.intercalate parts) : x ∈ sep ∨ ∃ part ∈ parts, x ∈ part := by
  induction parts with
  | nil => cases h
  | cons part parts ih =>
    cases parts with
    | nil => exact .inr ⟨part, List.mem_cons_self, by rwa [List.intercalate_singleton] at h⟩
    | cons part' parts =>
      rw [List.intercalate_cons_cons, List.mem_append, List.mem_append] at h
      rcases h with (h | h) | h
      · exact .inr ⟨part, List.mem_cons_self, h⟩
      · exact .inl h
      · exact (ih h).imp_right fun ⟨part, hpart, h⟩ => ⟨part, List.mem_cons_of_mem _ hpart, h⟩

theorem not_mem_intercalate {c : Char} (hc : c ≠ ' ') (h : ∀ w ∈ ws, c ∉ w) : c ∉ [' '].intercalate ws := by
  intro hmem
  rcases mem_of_mem_intercalate hmem with hspace | ⟨w, hw, hmem⟩
  · exact hc (List.mem_singleton.mp hspace)
  · exact h w hw hmem

/-- The line has no blanks but spaces. So no line feed breaks it, and it does not end with a carriage return. -/
def Spaced (line : List Char) : Prop :=
  ∀ c ∈ line, isBlank c = true → c = ' '

theorem spaced_of_all {line : List Char} (h : (line.all fun c => !isBlank c || c == ' ') = true) : Spaced line := by
  intro c hc hblank
  have hchar := List.all_eq_true.mp h c hc
  rw [hblank] at hchar
  exact eq_of_beq hchar

theorem Spaced.append {line line' : List Char} (h : Spaced line) (h' : Spaced line') : Spaced (line ++ line') :=
  fun c hc => (List.mem_append.mp hc).elim (h c) (h' c)

theorem spaced_intercalate (h : ∀ w ∈ ws, IsRun w) : Spaced ([' '].intercalate ws) := by
  intro c hc hblank
  rcases mem_of_mem_intercalate hc with hspace | ⟨w, hw, hmem⟩
  · exact List.mem_singleton.mp hspace
  · rw [(h w hw).unbroken c hmem] at hblank
    cases hblank

theorem Spaced.stripReturn {line : List Char} (h : Spaced line) : stripReturn line = line := by
  refine if_neg fun hlast => ?_
  exact absurd (h '\r' (List.mem_of_getLast? hlast) (by decide)) (by decide)

/-- Lines that end with a line feed each are told apart again. -/
theorem lines_flatMap {ls : List (List Char)} (h : ∀ l ∈ ls, Spaced l) : lines (ls.flatMap (· ++ ['\n'])) = ls := by
  have hfeed : ∀ l ∈ ls, '\n' ∉ l := fun l hl hmem => absurd (h l hl '\n' hmem (by decide)) (by decide)
  have hsplit : (ls.flatMap (· ++ ['\n'])).splitOn '\n' = ls ++ [[]] := by
    induction ls with
    | nil => rfl
    | cons l ls ih =>
      rw [List.forall_mem_cons] at h hfeed
      rw [List.flatMap_cons, List.append_assoc, List.singleton_append,
        List.splitOn_append_cons_self_of_not_mem hfeed.1, ih h.2 hfeed.2, List.cons_append]
  have hstrip : ls.map Text.stripReturn = ls := by
    rw [List.map_congr_left fun l hl => (h l hl).stripReturn]
    exact List.map_id ls
  simp [lines, hsplit, hstrip]

end Text

/-! ### Numerals -/

namespace Numeral

theorem digit?_of_isDigit {c : Char} (h : c.isDigit = true) : digit? 10 c = some (c.toNat - '0'.toNat) := by
  have hrange : '0' ≤ c ∧ c ≤ '9' := by simpa [Char.isDigit, Char.le_def] using h
  have hlt : c.toNat - '0'.toNat < 10 := by
    have h9 : c.toNat ≤ '9'.toNat := hrange.2
    have hval : '9'.toNat = 57 ∧ '0'.toNat = 48 := by decide
    omega
  simp only [digit?, hrange, and_self, if_true, Option.filter_some, hlt, decide_true]

theorem foldlM_digits {cs : List Char} (h : ∀ c ∈ cs, c.isDigit = true) (n : Nat) :
    cs.foldlM (fun n c => (digit? 10 c).map (10 * n + ·)) n = some (Nat.ofDigitChars 10 cs n) := by
  induction cs generalizing n with
  | nil => rfl
  | cons c cs ih =>
    have hc := digit?_of_isDigit (h c List.mem_cons_self)
    rw [List.foldlM_cons, hc, Nat.ofDigitChars_cons]
    exact ih (fun d hd => h d (List.mem_cons_of_mem _ hd)) _

theorem isDigit_of_mem_toDigits {n : Nat} {c : Char} (h : c ∈ Nat.toDigits 10 n) : c.isDigit = true :=
  Nat.isDigit_of_mem_toDigits (by decide) (by decide) h

theorem ofDigits?_toDigits (n : Nat) : ofDigits? 10 (Nat.toDigits 10 n) = some n := by
  have h := foldlM_digits (fun c hc => isDigit_of_mem_toDigits (n := n) hc) 0
  rw [Nat.ofDigitChars_ten_toDigits] at h
  simpa [ofDigits?] using h

theorem startsNumeral_of_isDigit {cs : List Char} (h : ∀ c ∈ cs, c.isDigit = true) (hne : cs ≠ []) :
    startsNumeral cs = true := by
  cases cs with
  | nil => exact absurd rfl hne
  | cons c cs =>
    have hc := h c List.mem_cons_self
    unfold startsNumeral
    split
    · rename_i heq
      cases heq
      exact absurd hc (by decide)
    · rename_i heq
      cases heq
      exact hc
    · rename_i heq
      cases heq

end Numeral

/-! ### Tokens -/

namespace Token

theorem magnitude?_toDigits (n : Nat) : magnitude? (Nat.toDigits 10 n) = some n := by
  have h : ∀ c ∈ Nat.toDigits 10 n, c.isDigit = true := fun c hc => Numeral.isDigit_of_mem_toDigits hc
  unfold magnitude?
  split
  · rename_i heq
    exact absurd (h 'x' (by simp [heq])) (by decide)
  · rename_i heq
    exact absurd (h 'X' (by simp [heq])) (by decide)
  · exact Numeral.ofDigits?_toDigits n

section
variable {n : Nat} (h : n < 0x8000000000000000)
include h

theorem filter_magnitude?_toDigits :
    (magnitude? (Nat.toDigits 10 n)).filter (· < 0x8000000000000000) = some n := by
  rw [magnitude?_toDigits]
  simpa [Option.filter] using h

theorem literal?_toDigits : literal? (Nat.toDigits 10 n) = some (n : Int) := by
  unfold literal?
  split
  -- The first digit is not a sign.
  · rename_i heq
    have hminus : '-' ∈ Nat.toDigits 10 n := by simp [heq]
    exact absurd (Numeral.isDigit_of_mem_toDigits hminus) (by decide)
  · rw [filter_magnitude?_toDigits h]
    rfl

theorem literal?_minus_toDigits : literal? ('-' :: Nat.toDigits 10 n) = some (-(n : Int)) := by
  rw [literal?, filter_magnitude?_toDigits h]
  rfl

end

/-- String `s` is written for token `t`: it is a word, and it is read as `t`. -/
structure Writes (s : String) (t : Token) : Prop where
  isWord : Text.IsWord s.toList
  ofWord : Token.ofWord s.toList = .ok t

theorem Writes.ofList {s : String} {cs : List Char} {t : Token} (hs : s.toList = cs) (hw : Text.IsWord cs)
    (ht : Token.ofWord cs = .ok t) : Writes s t :=
  ⟨hs ▸ hw, hs ▸ ht⟩

theorem plain_of_isDigit {c : Char} (h : c.isDigit = true) : Text.isBlank c = false ∧ c ≠ ';' := by
  have hrange : 48 ≤ c.toNat ∧ c.toNat ≤ 57 := by simpa [Char.isDigit, UInt32.le_iff_toNat_le] using h
  constructor
  · simp [Text.isBlank, Text.blankRanges]
    omega
  · rintro rfl
    exact absurd h (by decide)

theorem writes_nat {n : Nat} (h : n < 0x8000000000000000) : Writes (toString n) (.number n) := by
  have hword : Text.IsWord (Nat.toDigits 10 n) :=
    ⟨Nat.toDigits_ne_nil, fun c hc => plain_of_isDigit (Numeral.isDigit_of_mem_toDigits hc)⟩
  have hstart : Numeral.startsNumeral (Nat.toDigits 10 n) = true :=
    Numeral.startsNumeral_of_isDigit (fun c hc => Numeral.isDigit_of_mem_toDigits hc) Nat.toDigits_ne_nil
  refine .ofList Nat.toList_repr hword ?_
  rw [Token.ofWord, if_pos hstart, literal?_toDigits h]

theorem writes_negative {n : Nat} (h : n < 0x8000000000000000) : Writes ("-" ++ toString n) (.number (-(n : Int))) := by
  have hword : Text.IsWord ('-' :: Nat.toDigits 10 n) := by
    refine ⟨List.cons_ne_nil _ _, fun c hc => ?_⟩
    rcases List.mem_cons.mp hc with rfl | hc
    · decide
    · exact plain_of_isDigit (Numeral.isDigit_of_mem_toDigits hc)
  have hstart : Numeral.startsNumeral ('-' :: Nat.toDigits 10 n) = true := by
    obtain ⟨c, cs, hcs⟩ := List.exists_cons_of_ne_nil (Nat.toDigits_ne_nil (n := n) (b := 10))
    rw [hcs]
    exact Numeral.isDigit_of_mem_toDigits (n := n) (by simp [hcs])
  refine .ofList (by simp) hword ?_
  rw [Token.ofWord, if_pos hstart, literal?_minus_toDigits h]

theorem writes_int {n : Int} (h : n.natAbs < 0x8000000000000000) : Writes (toString n) (.number n) := by
  rw [Int.toString_eq_repr, Int.repr_eq_if]
  by_cases hn : 0 ≤ n
  · obtain ⟨k, rfl⟩ := Int.eq_ofNat_of_zero_le hn
    rw [if_pos hn]
    exact writes_nat h
  · rw [if_neg hn]
    have hk : n = -((-n).toNat : Int) := by omega
    have hlt : (-n).toNat < 0x8000000000000000 := by omega
    have hw := writes_negative hlt
    rwa [← hk] at hw

/-- A word is an identifier if it is none of the other kinds of word. -/
theorem ofWord_eq_ident_iff {w : List Char} {s : String} : ofWord w = .ok (.ident s) ↔
    Numeral.startsNumeral w = false ∧ w.head? ≠ some '.' ∧ labelOf? w = none ∧ w = s.toList := by
  unfold ofWord
  by_cases hnum : Numeral.startsNumeral w = true
  · rw [if_pos hnum]
    cases literal? w <;> simp [hnum]
  · rw [if_neg hnum]
    by_cases hdot : w.head? = some '.'
    · simp [hdot]
    · rw [if_neg hdot]
      cases hlabel : labelOf? w with
      | some name => simp
      | none => simp [hnum, hdot, ← String.toList_inj]

theorem isName_iff_writes {s : String} : isName s = true ↔ Writes s (.ident s) := by
  simp only [isName, Bool.and_eq_true, Bool.not_eq_true', List.all_eq_true, bne_iff_ne, ne_eq]
  constructor
  · rintro ⟨⟨⟨⟨hne, hplain⟩, hnum⟩, hdot⟩, hlabel⟩
    have hident := ofWord_eq_ident_iff.mpr ⟨hnum, hdot, Option.isNone_iff_eq_none.mp hlabel, rfl⟩
    exact ⟨⟨by simpa using hne, hplain⟩, hident⟩
  · rintro ⟨⟨hne, hplain⟩, hident⟩
    obtain ⟨hnum, hdot, hlabel, -⟩ := ofWord_eq_ident_iff.mp hident
    exact ⟨⟨⟨⟨by simpa using hne, hplain⟩, hnum⟩, hdot⟩, Option.isNone_iff_eq_none.mpr hlabel⟩

theorem writes_name {s : String} (h : isName s = true) : Writes s (.ident s) :=
  isName_iff_writes.mp h

/-! ### Lines of tokens -/

theorem ofLine_space (cs : List Char) : ofLine (' ' :: cs) = ofLine cs := by
  have h : (' ' :: cs).takeWhile (· != ';') = ' ' :: cs.takeWhile (· != ';') := List.takeWhile_cons_of_pos (by decide)
  rw [ofLine, h, Text.words_space, ofLine]

variable {ws : List String} {ts : List Token}

theorem mapM_ofWord (h : List.Forall₂ Writes ws ts) : (ws.map String.toList).mapM ofWord = .ok ts := by
  induction h with
  | nil => rfl
  | cons hw _ ih =>
    rw [List.map_cons, List.mapM_cons, hw.ofWord, ih]
    rfl

theorem isWord_of_mem (h : List.Forall₂ Writes ws ts) : ∀ w ∈ ws.map String.toList, Text.IsWord w := by
  induction h with
  | nil => simp
  | cons hw _ ih =>
    intro w hmem
    rcases List.mem_cons.mp hmem with rfl | hmem
    · exact hw.isWord
    · exact ih w hmem

/-- Words with single spaces between them are read one by one. -/
theorem ofLine_words (h : ∀ w ∈ ws.map String.toList, Text.IsWord w) :
    ofLine (" ".intercalate ws).toList = (ws.map String.toList).mapM ofWord := by
  have hsemi : ∀ c ∈ [' '].intercalate (ws.map String.toList), (c != ';') = true := by
    intro c hc
    rw [bne_iff_ne]
    rintro rfl
    exact Text.not_mem_intercalate (by decide) (fun w hw hmem => ((h w hw).plain _ hmem).2 rfl) hc
  have hlist : (" ".intercalate ws).toList = [' '].intercalate (ws.map String.toList) := by simp
  rw [hlist, ofLine, List.takeWhile_eq_self_iff.mpr hsemi, Text.words_intercalate fun w hw => (h w hw).isRun]

/-- Written words with single spaces between them are read as their tokens. -/
theorem ofLine_intercalate (h : List.Forall₂ Writes ws ts) : ofLine (" ".intercalate ws).toList = .ok ts := by
  rw [ofLine_words (isWord_of_mem h), mapM_ofWord h]

theorem spaced_intercalate (h : List.Forall₂ Writes ws ts) : Text.Spaced (" ".intercalate ws).toList := by
  rw [String.toList_intercalate]
  exact Text.spaced_intercalate fun w hw => (isWord_of_mem h w hw).isRun

end Token

end StackMachine
