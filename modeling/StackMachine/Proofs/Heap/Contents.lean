import Mathlib.Algebra.BigOperators.Group.List.Basic
import Mathlib.Algebra.GroupWithZero.Nat
import StackMachine.Session.Effect

/-! What a heap holds. A cell array is determined by the list of its cells, although it keeps them in pages, and a
heap whose count of cells is right is determined by the lists of its arrays. -/

namespace StackMachine

namespace CellArray

theorem size_page_le (a : CellArray) {k : Nat} {page : Array Int32} (h : a.pages[k]? = some page) :
    page.size ≤ pageSize := by
  have hsize := a.size_page k
  rw [h, Option.map_some, getElem?_pageSizes] at hsize
  split at hsize
  · exact Nat.le_of_eq (Option.some.inj hsize)
  · split at hsize
    · rw [Option.some.inj hsize]
      exact Nat.le_of_lt (Nat.mod_lt _ (by decide))
    · cases hsize

theorem getElem?_page (a : CellArray) {k : Nat} {page : Array Int32} (h : a.pages[k]? = some page) {j : Nat}
    (hj : j < pageSize) : page[j]? = a.get? (pageSize * k + j) := by
  have hpos : 0 < pageSize := by decide
  rw [get?, Nat.mul_add_div hpos, Nat.div_eq_of_lt hj, Nat.add_zero, h, Nat.mul_add_mod, Nat.mod_eq_of_lt hj]

theorem toList_inj {a b : CellArray} : a.toList = b.toList ↔ a = b := by
  refine ⟨fun h => ?_, fun h => h ▸ rfl⟩
  have hsize : a.size = b.size := by rw [← length_toList, h, length_toList]
  have hget : ∀ i, a.get? i = b.get? i := fun i => by rw [← getElem?_toList, h, getElem?_toList]
  have hpages : a.pages = b.pages := by
    apply Array.ext_getElem?
    intro k
    -- The sizes of pages follow from the size of the array, so both have a page here or neither.
    have hsizes : a.pages[k]?.map Array.size = b.pages[k]?.map Array.size := by rw [size_page, size_page, hsize]
    cases ha : a.pages[k]? with
    | none =>
      rw [ha, Option.map_none] at hsizes
      exact (Option.map_eq_none_iff.mp hsizes.symm).symm
    | some page =>
      rw [ha, Option.map_some] at hsizes
      obtain ⟨page', hb, hpage⟩ := Option.map_eq_some_iff.mp hsizes.symm
      rw [hb]
      congr 1
      apply Array.ext_getElem?
      intro j
      -- A cell of a page is a cell of the array; past the end of the page there is none in either.
      rcases Nat.lt_or_ge j pageSize with hj | hj
      · rw [a.getElem?_page ha hj, b.getElem?_page hb hj, hget]
      · have hja := Nat.le_trans (a.size_page_le ha) hj
        rw [Array.getElem?_eq_none hja, Array.getElem?_eq_none (hpage ▸ hja)]
  obtain ⟨size, pages, sizes⟩ := a
  obtain ⟨size', pages', sizes'⟩ := b
  cases hsize
  cases hpages
  rfl

end CellArray

namespace Heap

/-- The arrays of the heap, as the lists of their cells. -/
def contents (h : Heap) : List (List Int32) :=
  h.arrays.toList.map CellArray.toList

/-- The count of cells is the number of cells of all arrays. -/
def Counted (h : Heap) : Prop :=
  h.cells = (h.arrays.toList.map CellArray.size).sum

/-- Heaps that count right and hold the same are the same. -/
theorem eq_of_contents {h h' : Heap} (hc : h.Counted) (hc' : h'.Counted) (heq : h.contents = h'.contents) : h = h' := by
  have harrays : h.arrays.toList = h'.arrays.toList :=
    List.map_injective_iff.mpr (fun _ _ => CellArray.toList_inj.mp) heq
  obtain ⟨arrays, cells⟩ := h
  obtain ⟨arrays', cells'⟩ := h'
  cases Array.toList_inj.mp harrays
  have hcells : cells = cells' := Eq.trans hc hc'.symm
  rw [hcells]

/-! ### What an instruction can do to a heap -/

/-- The heap stays, or gets an array of a size that it has room for, or has a cell set. -/
inductive Changes (limits : Limits) (h : Heap) : Heap → Prop
  | same : Changes limits h h
  | grow {length : Int32} {size : Nat} : h.request limits.heapCells length = .ok size → Changes limits h (h.grow size)
  | set {reference index : Int32} {place : Place} (value : Int32) : h.locate reference index = .ok place →
    Changes limits h (h.set place value)

theorem counted_empty : Heap.empty.Counted := rfl

theorem map_size_set (h : Heap) (place : Place) (value : Int32) :
    (h.set place value).arrays.toList.map CellArray.size = h.arrays.toList.map CellArray.size := by
  apply List.ext_getElem?
  intro k
  rw [set, Array.toList_modify, List.getElem?_map, List.getElem?_map, List.getElem?_modify]
  cases h.arrays.toList[k]? with
  | none => rfl
  | some array =>
    rw [Option.map_eq_map, Option.map_some, Option.map_some, Option.map_some]
    split
    · rfl
    · rfl

theorem Counted.changes {limits : Limits} {h h' : Heap} (hc : h.Counted) (hch : h.Changes limits h') : h'.Counted := by
  cases hch with
  | same => exact hc
  | grow _ =>
    unfold Counted at hc ⊢
    rw [grow, Array.toList_push, List.map_append, List.sum_append, hc]
    rfl
  | set value _ =>
    unfold Counted at hc ⊢
    rw [map_size_set]
    exact hc

end Heap

end StackMachine
