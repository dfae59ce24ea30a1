/-! Cell arrays: a fixed number of 32-bit cells, all zero at first. The cells lie in pages. The pages of a new array
are one page in memory, and setting a cell replaces its page only, so that a large one costs little until its
cells are set. What an array holds is the list of its cells. -/

namespace StackMachine

namespace CellArray

/-- The number of cells of a full page. -/
@[inline] def pageSize : Nat := 256

/-- The sizes of the pages of an array: all are full but the last, which has the rest. -/
def pageSizes (size : Nat) : Array Nat :=
  (Array.replicate (size / pageSize + 1) pageSize).setIfInBounds (size / pageSize) (size % pageSize)

end CellArray

/-- Cells in pages, which have the sizes that the number of cells demands. -/
structure CellArray where
  size : Nat
  pages : Array (Array Int32)
  sizes : pages.map Array.size = CellArray.pageSizes size
deriving DecidableEq

namespace CellArray

/-- An array of zeros. -/
def zeros (size : Nat) : CellArray where
  size := size
  pages := (Array.replicate (size / pageSize + 1) (Array.replicate pageSize 0)).setIfInBounds (size / pageSize)
    (Array.replicate (size % pageSize) 0)
  sizes := by simp [pageSizes, Array.map_setIfInBounds]

/-- The value of a cell that is there. -/
@[inline] def get? (a : CellArray) (i : Nat) : Option Int32 :=
  match a.pages[i / pageSize]? with
  | some page => page[i % pageSize]?
  | none => none

/-- Replaces the value of a cell that is there. -/
def set (a : CellArray) (i : Nat) (value : Int32) : CellArray where
  size := a.size
  pages := a.pages.modify (i / pageSize) fun page => page.setIfInBounds (i % pageSize) value
  sizes := by
    rw [← a.sizes]
    apply Array.ext
    · simp
    · intro k h _
      simp only [Array.getElem_map, Array.getElem_modify]
      split <;> simp

/-- The first `count` cells. -/
def take (count : Nat) (a : CellArray) : List Int32 :=
  (List.range (min count a.size)).map fun i => (a.get? i).getD 0

/-- The cells in order. -/
def toList (a : CellArray) : List Int32 :=
  a.take a.size

/-- An array whose leading cells hold these values, as far as it has cells for them. -/
def ofList (size : Nat) (values : List Int32) : CellArray :=
  values.zipIdx.foldl (fun a (value, i) => a.set i value) (zeros size)

theorem size_page (a : CellArray) (k : Nat) : a.pages[k]?.map Array.size = (pageSizes a.size)[k]? := by
  rw [← a.sizes, Array.getElem?_map]

theorem getElem?_pageSizes (size k : Nat) :
    (pageSizes size)[k]? = if k < size / pageSize then some pageSize
      else if k = size / pageSize then some (size % pageSize) else none := by
  simp only [pageSizes, Array.getElem?_setIfInBounds, Array.size_replicate, Array.getElem?_replicate]
  grind

theorem isSome_get?_iff {a : CellArray} {i : Nat} : (a.get? i).isSome ↔ i < a.size := by
  have h := a.size_page (i / pageSize)
  rw [getElem?_pageSizes] at h
  simp only [get?]
  cases hp : a.pages[i / pageSize]? with
  | none =>
    rw [hp] at h
    grind [pageSize]
  | some page =>
    rw [hp] at h
    simp only [isSome_getElem?]
    grind [pageSize]

@[simp] theorem length_toList (a : CellArray) : a.toList.length = a.size := by
  simp [toList, take]

@[simp] theorem getElem?_toList (a : CellArray) (i : Nat) : a.toList[i]? = a.get? i := by
  have h := isSome_get?_iff (a := a) (i := i)
  cases hg : a.get? i with
  | none =>
    rw [hg] at h
    simpa using h
  | some v =>
    rw [hg] at h
    have hi : i < a.size := h.mp rfl
    simp [toList, take, hi, hg]

@[simp] theorem size_zeros (size : Nat) : (zeros size).size = size := rfl

@[simp] theorem size_set (a : CellArray) (i : Nat) (value : Int32) : (a.set i value).size = a.size := rfl

theorem get?_zeros (size i : Nat) : (zeros size).get? i = if i < size then some 0 else none := by
  have h := isSome_get?_iff (a := zeros size) (i := i)
  have hz : ∀ v, (zeros size).get? i = some v → v = 0 := by
    intro v hv
    simp only [get?, zeros, Array.getElem?_setIfInBounds, Array.getElem?_replicate] at hv
    grind
  cases hg : (zeros size).get? i with
  | none => simp [hg] at h; simp; omega
  | some v => simp [hg] at h; simp [h, hz v hg]

theorem get?_set (a : CellArray) (i j : Nat) (value : Int32) :
    (a.set i value).get? j = if i = j ∧ i < a.size then some value else a.get? j := by
  by_cases hp : i / pageSize = j / pageSize
  · have h := isSome_get?_iff (a := a) (i := i)
    simp only [get?, set, Array.getElem?_modify, hp, if_true] at h ⊢
    cases hq : a.pages[j / pageSize]? with
    | none => simp [hq] at h ⊢; omega
    | some page =>
      simp only [hq, isSome_getElem?, Option.map_some, Array.getElem?_setIfInBounds] at h ⊢
      have hm : i % pageSize = j % pageSize ↔ i = j := by
        have := Nat.div_add_mod i pageSize; have := Nat.div_add_mod j pageSize
        rw [hp] at *
        omega
      grind
  · have hij : i ≠ j := fun e => hp (congrArg (· / pageSize) e)
    simp [get?, set, Array.getElem?_modify, hp, hij]

theorem toList_zeros (size : Nat) : (zeros size).toList = List.replicate size 0 := by
  apply List.ext_getElem?
  intro i
  rw [getElem?_toList, get?_zeros, List.getElem?_replicate]

theorem toList_set (a : CellArray) (i : Nat) (value : Int32) : (a.set i value).toList = a.toList.set i value := by
  apply List.ext_getElem?
  intro j
  rw [getElem?_toList, get?_set, List.getElem?_set, length_toList, getElem?_toList]
  by_cases hij : i = j
  · by_cases hi : i < a.size
    · simp [hij, hij ▸ hi]
    · have hn : a.get? j = none := by
        rw [← Option.not_isSome_iff_eq_none, isSome_get?_iff, ← hij]
        exact hi
      simp [hij, hij ▸ hi, hn]
  · simp [hij]

end CellArray

end StackMachine
