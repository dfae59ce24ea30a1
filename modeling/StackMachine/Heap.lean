import StackMachine.CellArray
import StackMachine.Fault

/-! The heap: arrays of fixed length that live until the session ends. The reference of an array is its
position counted from one, so zero refers to no array. -/

namespace StackMachine

/-- All arrays that a session has made, none of which goes away. -/
structure Heap where
  arrays : Array CellArray
  /-- The number of elements of all arrays together. -/
  cells : Nat
deriving DecidableEq

namespace Heap

/-- No arrays. -/
def empty : Heap := ⟨#[], 0⟩

/-- The greatest number of arrays that references can tell apart. -/
def maxArrays : Nat := 0x7fffffff

/-- The size of a new array, if all arrays together then have at most `limit` elements. -/
def request (limit : Nat) (length : Int32) (h : Heap) : Except FaultKind Nat :=
  if length < 0 then .error (.negativeArraySize length)
  else
    -- The number of arrays is limited by the references that are positive.
    let size := length.toInt.toNat
    if h.cells + size ≤ limit ∧ h.arrays.size < maxArrays then .ok size else .error (.heapExhausted size limit)

/-- The reference of the array that is added next. -/
def nextReference (h : Heap) : Int32 :=
  Int32.ofNat (h.arrays.size + 1)

/-- Adds an array of zeros. -/
def grow (size : Nat) (h : Heap) : Heap :=
  ⟨h.arrays.push (.zeros size), h.cells + size⟩

/-- Adds an array of zeros, if all arrays together then have at most `limit` elements, and gives its
reference. -/
def allocate (limit : Nat) (length : Int32) (h : Heap) : Except FaultKind (Int32 × Heap) := do
  let size ← h.request limit length
  return (h.nextReference, h.grow size)

/-- The position of the array with a positive reference. -/
def slot (reference : Int32) : Nat :=
  reference.toInt.toNat - 1

/-- The array that a reference refers to. -/
def elements (reference : Int32) (h : Heap) : Except FaultKind CellArray :=
  match if 0 < reference then h.arrays[slot reference]? else none with
  | some array => .ok array
  | none => .error (.nullReference reference)

/-- Where an element is: the position of its array, and its position there. -/
structure Place where
  array : Nat
  index : Nat
deriving DecidableEq

/-- The place of an element of the array that a reference refers to. -/
def locate (reference index : Int32) (h : Heap) : Except FaultKind Place := do
  let array ← h.elements reference
  if 0 ≤ index ∧ index.toInt.toNat < array.size then return ⟨slot reference, index.toInt.toNat⟩
  else throw (.indexOutOfBounds index array.size)

/-- The element at a place. -/
def get (place : Place) (h : Heap) : Int32 :=
  match h.arrays[place.array]? with
  | some array => (array.get? place.index).getD 0
  | none => 0

/-- Replaces the element at a place. -/
def set (place : Place) (value : Int32) (h : Heap) : Heap :=
  { h with arrays := h.arrays.modify place.array fun array => array.set place.index value }

/-- The element of an array at an index. -/
def load (reference index : Int32) (h : Heap) : Except FaultKind Int32 := do
  return h.get (← h.locate reference index)

/-- Replaces the element of an array at an index. -/
def store (reference index value : Int32) (h : Heap) : Except FaultKind Heap := do
  return h.set (← h.locate reference index) value

/-- The number of elements of an array. -/
def length (reference : Int32) (h : Heap) : Except FaultKind Int32 := do
  let array ← h.elements reference
  return Int32.ofNat array.size

end Heap

end StackMachine
