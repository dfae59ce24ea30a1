import StackMachine.Text.Blank

/-! Pieces of a text: what a separator leaves between its places. Words and lines are pieces, so they stand in their
text as they are, and there are no more lines than characters. -/

namespace StackMachine.Text
variable {cs w line : List Char}

/-- The first piece is at the front of the text, and the others are somewhere in it. -/
theorem splitOnP_pieces (p : Char → Bool) (cs : List Char) :
    ∃ w ws, cs.splitOnP p = w :: ws ∧ w <+: cs ∧ ∀ v ∈ ws, v <:+: cs := by
  induction cs with
  | nil => exact ⟨[], [], rfl, List.nil_prefix, List.forall_mem_nil _⟩
  | cons c cs ih =>
    obtain ⟨w, ws, heq, hw, hws⟩ := ih
    have htail : cs <:+: c :: cs := (List.suffix_cons c cs).isInfix
    rw [List.splitOnP_cons_eq_if_modifyHead, heq]
    by_cases hc : p c = true
    · rw [if_pos hc]
      refine ⟨[], w :: ws, rfl, List.nil_prefix, List.forall_mem_cons.mpr ⟨hw.isInfix.trans htail, ?_⟩⟩
      exact fun v hv => (hws v hv).trans htail
    · rw [if_neg hc]
      exact ⟨c :: w, ws, rfl, List.cons_prefix_cons.mpr ⟨rfl, hw⟩, fun v hv => (hws v hv).trans htail⟩

theorem isInfix_of_mem_splitOnP {p : Char → Bool} (h : w ∈ cs.splitOnP p) : w <:+: cs := by
  obtain ⟨v, vs, heq, hv, hvs⟩ := splitOnP_pieces p cs
  rw [heq] at h
  rcases List.mem_cons.mp h with rfl | h
  · exact hv.isInfix
  · exact hvs w h

theorem forall_not_of_mem_splitOnP {p : Char → Bool} (h : w ∈ cs.splitOnP p) : ∀ c ∈ w, p c = false := by
  induction cs generalizing w with
  | nil =>
    rw [List.splitOnP_nil, List.mem_singleton] at h
    rw [h]
    exact List.forall_mem_nil _
  | cons c cs ih =>
    obtain ⟨v, vs, hcs⟩ := List.exists_cons_of_ne_nil (List.splitOnP_ne_nil p cs)
    rw [List.splitOnP_cons_eq_if_modifyHead, hcs] at h
    rw [hcs] at ih
    by_cases hc : p c = true
    · rw [if_pos hc] at h
      rcases List.mem_cons.mp h with rfl | h
      · exact List.forall_mem_nil _
      · exact ih h
    · rw [if_neg hc, List.modifyHead_cons] at h
      rcases List.mem_cons.mp h with rfl | h
      · exact List.forall_mem_cons.mpr ⟨eq_false_of_ne_true hc, ih List.mem_cons_self⟩
      · exact ih (List.mem_cons_of_mem _ h)

theorem isInfix_of_mem_words (h : w ∈ words cs) : w <:+: cs :=
  isInfix_of_mem_splitOnP (List.mem_filter.mp h).1

theorem stripReturn_isPrefix (line : List Char) : stripReturn line <+: line := by
  unfold stripReturn
  split
  · exact List.dropLast_prefix line
  · exact List.prefix_refl line

theorem lines_eq (cs : List Char) : lines cs = (cs.splitOn '\n').dropLast.map stripReturn ++
    if (cs.splitOn '\n').getLast (List.splitOn_ne_nil '\n' cs) = [] then []
    else [(cs.splitOn '\n').getLast (List.splitOn_ne_nil '\n' cs)] := by
  simp only [lines, List.getLast?_eq_some_getLast (List.splitOn_ne_nil '\n' cs), Option.getD_some, List.isEmpty_iff]

/-- A line is a piece of the text, or what comes before the carriage return of one. -/
theorem isInfix_of_mem_lines (h : line ∈ lines cs) : line <:+: cs := by
  rw [lines_eq] at h
  rcases List.mem_append.mp h with h | h
  · obtain ⟨piece, hpiece, rfl⟩ := List.mem_map.mp h
    exact (stripReturn_isPrefix piece).isInfix.trans (isInfix_of_mem_splitOnP (List.dropLast_subset _ hpiece))
  · split at h
    · cases h
    · rw [List.mem_singleton.mp h]
      exact isInfix_of_mem_splitOnP (List.getLast_mem _)

/-- A text is its pieces, each but the last with a separator after it. -/
theorem eq_flatMap_append_getLast (sep : Char) (cs : List Char) :
    cs = (cs.splitOn sep).dropLast.flatMap (· ++ [sep]) ++ (cs.splitOn sep).getLast (List.splitOn_ne_nil sep cs) := by
  have hjoin : ∀ (pieces : List (List Char)) (h : pieces ≠ []),
      [sep].intercalate pieces = pieces.dropLast.flatMap (· ++ [sep]) ++ pieces.getLast h := by
    intro pieces
    induction pieces with
    | nil => exact fun h => absurd rfl h
    | cons w ws ih =>
      intro h
      cases ws with
      | nil => simp
      | cons v ws =>
        rw [List.intercalate_cons_cons, List.getLast_cons (List.cons_ne_nil v ws), List.dropLast_cons_cons,
          ih (List.cons_ne_nil v ws), List.flatMap_cons]
        simp only [List.append_assoc]
  have hcs := hjoin (cs.splitOn sep) (List.splitOn_ne_nil sep cs)
  rwa [List.intercalate_splitOn] at hcs

/-- Every line but the last has a line feed, and the last has a character or a line feed. -/
theorem length_lines_le (cs : List Char) : (lines cs).length ≤ cs.length := by
  have hne := List.splitOn_ne_nil '\n' cs
  have hlength := congrArg List.length (eq_flatMap_append_getLast '\n' cs)
  have hfeeds : ∀ pieces : List (List Char), pieces.length ≤ (pieces.flatMap (· ++ ['\n'])).length := by
    intro pieces
    induction pieces with
    | nil => exact Nat.le_refl _
    | cons w ws ih =>
      simp only [List.flatMap_cons, List.length_append, List.length_cons, List.length_nil]
      omega
  have hdrop := hfeeds (cs.splitOn '\n').dropLast
  rw [List.length_append] at hlength
  rw [List.length_dropLast] at hdrop
  rw [lines_eq, List.length_append, List.length_map, List.length_dropLast]
  by_cases hlast : (cs.splitOn '\n').getLast hne = []
  · rw [if_pos hlast, List.length_nil]
    omega
  · have hpos := List.length_pos_iff.mpr hlast
    rw [if_neg hlast, List.length_singleton]
    omega

/-- A suffix without the separator does not reach it. -/
theorem suffix_of_suffix_append_cons {sep : Char} {before last : List Char} (h : sep ∉ w)
    (hw : w <:+ before ++ sep :: last) : w <:+ last := by
  rcases List.suffix_or_suffix_of_suffix hw (List.suffix_append before (sep :: last)) with hin | hover
  · rcases List.suffix_cons_iff.mp hin with rfl | hin
    · exact absurd List.mem_cons_self h
    · exact hin
  · exact absurd (hover.subset List.mem_cons_self) h

/-- A text ends with something that has no separator exactly if its last piece does. -/
theorem suffix_getLast_splitOn_iff {sep : Char} (h : sep ∉ w) :
    w <:+ (cs.splitOn sep).getLast (List.splitOn_ne_nil sep cs) ↔ w <:+ cs := by
  have hcs := eq_flatMap_append_getLast sep cs
  generalize (cs.splitOn sep).getLast (List.splitOn_ne_nil sep cs) = last at hcs ⊢
  rcases List.eq_nil_or_concat (cs.splitOn sep).dropLast with hnil | ⟨front, piece, hfront⟩
  · rw [hnil] at hcs
    rw [hcs]
    rfl
  · rw [hfront, List.concat_eq_append, List.flatMap_append, List.flatMap_singleton] at hcs
    simp only [List.append_assoc, List.singleton_append] at hcs
    rw [← List.append_assoc] at hcs
    constructor
    · intro hw
      rw [hcs]
      exact hw.trans ((List.suffix_cons sep last).trans (List.suffix_append _ _))
    · intro hw
      rw [hcs] at hw
      exact suffix_of_suffix_append_cons h hw

theorem length_le_utf8ByteSize (text : String) : text.toList.length ≤ text.utf8ByteSize := by
  have h : ∀ cs : List Char, cs.length ≤ (String.ofList cs).utf8ByteSize := by
    intro cs
    induction cs with
    | nil => exact Nat.zero_le _
    | cons c cs ih =>
      have hpos := c.utf8Size_pos
      rw [String.ofList_cons, String.utf8ByteSize_append, String.utf8ByteSize_singleton, List.length_cons]
      omega
  have htext := h text.toList
  rwa [String.ofList_toList] at htext

theorem utf8ByteSize_le_of_isInfix {name text : String} (h : name.toList <:+: text.toList) :
    name.utf8ByteSize ≤ text.utf8ByteSize := by
  obtain ⟨before, after, heq⟩ := h
  have htext : text = String.ofList before ++ name ++ String.ofList after := by
    rw [← text.ofList_toList, ← heq, String.ofList_append, String.ofList_append, String.ofList_toList]
  rw [htext, String.utf8ByteSize_append, String.utf8ByteSize_append]
  omega

end StackMachine.Text
