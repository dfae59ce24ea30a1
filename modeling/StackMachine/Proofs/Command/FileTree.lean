import StackMachine.Command.FileTree
import StackMachine.Proofs.Results
import StackMachine.Proofs.Text.Pieces

/-! Reading and writing in a file tree. A path goes through directories only, and leads to a place that is named as its
last part unless that place is a directory. So what is written is read back, unless it went to the null device, and
files with other last names are as they were. -/

namespace StackMachine.FileTree
variable {t t' : FileTree} {place q way : List String} {path other part : String} {bytes : List UInt8}

/-! ### Places -/

theorem lookup_filter_ne (h : q ≠ place) (entries : List (List String × Entry)) :
    (entries.filter fun e => e.1 ≠ place).lookup q = entries.lookup q := by
  induction entries with
  | nil => rfl
  | cons e entries ih =>
    obtain ⟨key, value⟩ := e
    by_cases hkey : key = place
    · have hne : (q == key) = false := by
        rw [hkey]
        exact beq_eq_false_iff_ne.mpr h
      rw [List.filter_cons_of_neg (by simp [hkey]), ih, List.lookup_cons, hne]
    · rw [List.filter_cons_of_pos (by simp [hkey]), List.lookup_cons, List.lookup_cons, ih]

theorem isAbove_of_entry?_ne (h : t.entry? place ≠ some .directory) : t.isAbove place = false := by
  unfold entry? at h
  by_cases habove : t.isAbove place = true
  · rw [if_pos habove] at h
    exact absurd rfl h
  · exact Bool.eq_false_iff.mpr habove

theorem entry?_of_isPrefix_home (h : q <+: t.home) : t.entry? q = some .directory :=
  if_pos (List.isPrefixOf_iff_prefix.mpr h)

theorem entry?_put (hplace : t.isAbove place = false) (e : Entry) (q : List String) :
    entry? (t.put place e) q = if q = place then some e else t.entry? q := by
  have habove : (t.put place e).isAbove q = t.isAbove q := rfl
  by_cases hq : q = place
  · subst hq
    rw [if_pos rfl, entry?, habove, hplace]
    simp [put]
  · have hlookup := lookup_filter_ne hq t.entries
    rw [if_neg hq, entry?, entry?, habove]
    split
    · rfl
    · unfold put
      rw [List.lookup_cons, beq_eq_false_iff_ne.mpr hq]
      exact hlookup

/-! ### Walks -/

theorem walk_cons_eq_ok_iff {start : List String} : t.walk start (part :: way) = .ok q ↔
    t.entry? start = some .directory ∧ part.utf8ByteSize ≤ maxName ∧ t.walk (follow start part) way = .ok q := by
  rw [walk]
  cases t.entry? start with
  | none => simp
  | some found =>
    cases found with
    | file contents => simp
    | null => simp
    | directory =>
      by_cases hname : maxName < part.utf8ByteSize
      · simp [hname, Nat.not_le_of_lt hname]
      · simp [hname, Nat.le_of_not_lt hname]

/-- Writing a file leaves the walks that were possible. -/
theorem walk_put {start : List String} (hplace : t.entry? place ≠ some .directory) (e : Entry)
    (h : t.walk start way = .ok q) : (t.put place e).walk start way = .ok q := by
  induction way generalizing start with
  | nil => exact h
  | cons part way ih =>
    obtain ⟨hstart, hname, h⟩ := walk_cons_eq_ok_iff.mp h
    refine walk_cons_eq_ok_iff.mpr ⟨?_, hname, ih h⟩
    rw [entry?_put (isAbove_of_entry?_ne hplace), if_neg]
    · exact hstart
    · rintro rfl
      exact hplace hstart

/-- All places on the way to a place are directories. -/
def Inside (t : FileTree) (place : List String) : Prop :=
  ∀ q, q <+: place → q ≠ place → t.entry? q = some .directory

theorem Inside.entry?_of_isPrefix (h : t.Inside place) (hplace : t.entry? place = some .directory)
    (hq : q <+: place) : t.entry? q = some .directory := by
  by_cases heq : q = place
  · rw [heq]
    exact hplace
  · exact h q hq heq

theorem Inside.follow (h : t.Inside place) (hplace : t.entry? place = some .directory) (part : String) :
    t.Inside (follow place part) := by
  unfold FileTree.follow
  split
  · exact h
  · split
    · exact fun q hq _ => h.entry?_of_isPrefix hplace (hq.trans (List.dropLast_prefix place))
    · intro q hq hne
      rcases List.prefix_concat_iff.mp hq with heq | hprefix
      · exact absurd heq hne
      · exact h.entry?_of_isPrefix hplace hprefix

theorem origin_isPrefix_home (path : String) : t.origin path <+: t.home := by
  unfold origin
  split
  · exact List.nil_prefix
  · exact List.prefix_refl t.home

theorem inside_origin (path : String) : t.Inside (t.origin path) :=
  fun _ hq _ => entry?_of_isPrefix_home (hq.trans (origin_isPrefix_home path))

/-- A walk ends with its last part, from a directory inside directories. -/
theorem walk_concat {start : List String} (hstart : t.Inside start) (h : t.walk start (way ++ [part]) = .ok place) :
    ∃ parent, t.Inside parent ∧ t.entry? parent = some .directory ∧ place = follow parent part := by
  induction way generalizing start with
  | nil =>
    obtain ⟨hdirectory, -, h⟩ := walk_cons_eq_ok_iff.mp h
    cases h
    exact ⟨start, hstart, hdirectory, rfl⟩
  | cons first way ih =>
    obtain ⟨hdirectory, -, h⟩ := walk_cons_eq_ok_iff.mp h
    exact ih (hstart.follow hdirectory first) h

/-- A place that is no directory is named as the last part of a way to it. -/
theorem getLast?_of_walk {start : List String} (hinside : t.Inside start) (hstart : t.entry? start = some .directory)
    (h : t.walk start way = .ok place) (hplace : t.entry? place ≠ some .directory) :
    place.getLast? = way.getLast? := by
  rcases List.eq_nil_or_concat way with rfl | ⟨front, part, rfl⟩
  · cases h
    exact absurd hstart hplace
  · rw [List.concat_eq_append] at h ⊢
    obtain ⟨parent, hinside, hparent, rfl⟩ := walk_concat hinside h
    unfold follow at hplace ⊢
    by_cases hstay : part = "" ∨ part = "."
    · rw [if_pos hstay] at hplace
      exact absurd hparent hplace
    · by_cases hup : part = ".."
      · -- Going up leads to a directory, since the way went through it.
        rw [if_neg hstay, if_pos hup] at hplace
        exact absurd (hinside.entry?_of_isPrefix hparent (List.dropLast_prefix parent)) hplace
      · rw [if_neg hstay, if_neg hup, List.getLast?_concat, List.getLast?_concat]

theorem resolve_eq_ok_iff :
    t.resolve path = .ok place ↔ ∃ way, parts path = .ok way ∧ t.walk (t.origin path) way = .ok place := by
  rw [resolve, bind_eq_ok_iff]

theorem resolve_put (hplace : t.entry? place ≠ some .directory) (e : Entry) (h : t.resolve path = .ok q) :
    (t.put place e).resolve path = .ok q := by
  obtain ⟨way, hway, hwalk⟩ := resolve_eq_ok_iff.mp h
  exact resolve_eq_ok_iff.mpr ⟨way, hway, walk_put hplace e hwalk⟩

/-- The name that a path ends with. -/
def lastName (path : String) : List Char :=
  (path.toList.splitOn '/').getLast (List.splitOn_ne_nil '/' path.toList)

theorem getLast?_of_parts (h : parts path = .ok way) : way.getLast? = some (String.ofList (lastName path)) := by
  unfold parts at h
  split at h
  · cases h
  · split at h
    · cases h
    · cases h
      rw [List.getLast?_map, List.getLast?_eq_some_getLast]
      rfl

/-- A path to anything but a directory ends with the name of the place that it leads to. -/
theorem getLast?_of_resolve (h : t.resolve path = .ok place) (hplace : t.entry? place ≠ some .directory) :
    place.getLast? = some (String.ofList (lastName path)) := by
  obtain ⟨way, hway, hwalk⟩ := resolve_eq_ok_iff.mp h
  rw [getLast?_of_walk (inside_origin path) (entry?_of_isPrefix_home (origin_isPrefix_home path)) hwalk hplace,
    getLast?_of_parts hway]

/-! ### Files -/

theorem read_eq_ok_iff : t.read path = .ok bytes ↔ ∃ place, t.resolve path = .ok place ∧
    (t.entry? place = some (.file bytes) ∨ t.entry? place = some .null ∧ bytes = []) := by
  rw [read, bind_eq_ok_iff]
  refine exists_congr fun place => and_congr_right fun _ => ?_
  cases t.entry? place with
  | none => simp [throw, throwThe, MonadExceptOf.throw]
  | some found =>
    cases found with
    | file contents => simp [pure, Except.pure]
    | directory => simp [throw, throwThe, MonadExceptOf.throw]
    | null => simp [pure, Except.pure, eq_comm]

/-- Writing changes a file, or nothing at the null device. -/
theorem write_eq_ok (h : t.write path bytes = .ok t') : ∃ place, t.resolve path = .ok place ∧
    (t.entry? place = some .null ∧ t' = t ∨
      t.entry? place ≠ some .null ∧ t.entry? place ≠ some .directory ∧ t' = t.put place (.file bytes)) := by
  obtain ⟨way, hway, h⟩ := bind_eq_ok_iff.mp h
  split at h
  · -- The path ends with a slash.
    obtain ⟨-, -, h⟩ := bind_eq_ok_iff.mp h
    cases h
  · obtain ⟨place, hwalk, h⟩ := bind_eq_ok_iff.mp h
    refine ⟨place, resolve_eq_ok_iff.mpr ⟨way, hway, hwalk⟩, ?_⟩
    split at h
    · cases h
    · rename_i hplace
      cases h
      exact .inl ⟨hplace, rfl⟩
    · rename_i hdirectory hnull
      cases h
      exact .inr ⟨hnull, hdirectory, rfl⟩

/-- Whether a path leads to the null device. -/
def isNull (t : FileTree) (path : String) : Bool :=
  (t.resolve path).toOption.bind t.entry? = some .null

/-- What was written is read back, unless it went to the null device. -/
theorem read_of_write (h : t.write path bytes = .ok t') (hnull : t.isNull path = false) :
    t'.read path = .ok bytes := by
  obtain ⟨place, hresolve, ⟨hplace, -⟩ | ⟨-, hplace, rfl⟩⟩ := write_eq_ok h
  · simp [isNull, hresolve, hplace, Except.toOption] at hnull
  · refine read_eq_ok_iff.mpr ⟨place, resolve_put hplace _ hresolve, .inl ?_⟩
    rw [entry?_put (isAbove_of_entry?_ne hplace), if_pos rfl]

/-- A file whose path ends with another name is as it was. -/
theorem read_of_write_other {contents : List UInt8} (h : t.write path bytes = .ok t')
    (hother : t.read other = .ok contents) (hne : lastName other ≠ lastName path) : t'.read other = .ok contents := by
  obtain ⟨place, hresolve, ⟨-, rfl⟩ | ⟨-, hplace, rfl⟩⟩ := write_eq_ok h
  · exact hother
  · obtain ⟨place', hresolve', hplace'⟩ := read_eq_ok_iff.mp hother
    have hfile : t.entry? place' ≠ some .directory := by
      rcases hplace' with h | ⟨h, -⟩
      · simp [h]
      · simp [h]
    have hother : place' ≠ place := by
      rintro rfl
      have hlast := (getLast?_of_resolve hresolve' hfile).symm.trans (getLast?_of_resolve hresolve hplace)
      exact hne (String.ofList_injective (Option.some.inj hlast))
    refine read_eq_ok_iff.mpr ⟨place', resolve_put hplace _ hresolve', ?_⟩
    rw [entry?_put (isAbove_of_entry?_ne hplace), if_neg hother]
    exact hplace'

end StackMachine.FileTree
