import StackMachine.Proofs.Heap.Memory

/-! The heap keeps exact accounts. Whatever has been asked of it, its count of cells is the number of elements that its
arrays have, and this stays within the limit. Its references are the numbers from one up to the number of its arrays.
An allocation succeeds exactly where the limit has room for the elements and the references have room for one more
array: an empty array takes no cells, so either kind of room can run out first. -/

namespace StackMachine.Heap

/-! ### Bounds -/

/-- The count of cells is right and within the limit, and all references and lengths fit 32 bits with a sign. -/
structure InBounds (limit : Nat) (h : Heap) : Prop where
  counted : h.Counted
  cells_le : h.cells ≤ limit
  size_le : h.arrays.size ≤ maxArrays
  size_array_le : ∀ a ∈ h.arrays, a.size ≤ 2 ^ 31 - 1

section
variable {limits : Limits} {h h' : Heap}

theorem inBounds_empty (limit : Nat) : InBounds limit .empty where
  counted := counted_empty
  cells_le := Nat.zero_le _
  size_le := Nat.zero_le _
  size_array_le := by
    intro a ha
    simp [Heap.empty] at ha

theorem InBounds.grow {n : Int32} {size : Nat} (hb : h.InBounds limits.heapCells)
    (hreq : h.request limits.heapCells n = .ok size) : (h.grow size).InBounds limits.heapCells := by
  obtain ⟨hn, hsize, hcells, hroom⟩ := request_eq_ok hreq
  refine ⟨hb.counted.changes (.grow hreq), hcells, ?_, ?_⟩
  · rw [Heap.grow, Array.size_push]
    exact hroom
  · intro a ha
    rcases Array.mem_push.mp ha with ha | rfl
    · exact hb.size_array_le a ha
    -- The new array is as long as was asked for, and that was a 32-bit number.
    · have hlt := n.toInt_lt
      rw [CellArray.size_zeros, hsize]
      omega

theorem InBounds.set {reference index : Int32} {place : Place} (hb : h.InBounds limits.heapCells)
    (hplace : h.locate reference index = .ok place) (value : Int32) :
    (h.set place value).InBounds limits.heapCells := by
  have hch : h.Changes limits (h.set place value) := .set value hplace
  refine ⟨hb.counted.changes hch, hb.cells_le, ?_, ?_⟩
  · rw [Heap.set, Array.size_modify]
    exact hb.size_le
  · intro a ha
    have hmem : a.size ∈ (h.set place value).arrays.toList.map CellArray.size :=
      List.mem_map_of_mem (Array.mem_toList_iff.mpr ha)
    rw [map_size_set] at hmem
    obtain ⟨b, hb', hsize⟩ := List.mem_map.mp hmem
    rw [← hsize]
    exact hb.size_array_le b (Array.mem_toList_iff.mp hb')

theorem InBounds.changes (hb : h.InBounds limits.heapCells) (hch : h.Changes limits h') :
    h'.InBounds limits.heapCells := by
  cases hch with
  | same => exact hb
  | grow hreq => exact hb.grow hreq
  | set value hplace => exact hb.set hplace value

/-- An operation changes a heap as an instruction can. -/
theorem changes_perform (limits : Limits) (h : Heap) (op : Operation) :
    h.Changes limits (h.perform limits.heapCells op).2 := by
  rcases perform_cases limits.heapCells h op with
    ⟨n, size, -, hreq, hop⟩ | ⟨r, i, value, place, -, hplace, hop⟩ | ⟨hop, -⟩
  · rw [hop]
    exact .grow hreq
  · rw [hop]
    exact .set value hplace
  · rw [hop]
    exact .same

end

theorem inBounds_history (limit : Nat) (ops : List Operation) : (history limit ops).heap.InBounds limit := by
  refine history_induction (motive := fun t => t.heap.InBounds limit) (inBounds_empty limit) ?_ ops
  intro t op ht
  have hch := changes_perform { heapCells := limit } t.heap op
  exact InBounds.changes (show t.heap.InBounds ({ heapCells := limit } : Limits).heapCells from ht) hch

/-! ### References and lengths -/

section
variable {limit : Nat} {h : Heap} {r n : Int32}

theorem exists_elements_iff : (∃ a, h.elements r = .ok a) ↔ 1 ≤ r.toInt ∧ r.toInt ≤ h.arrays.size := by
  simp only [elements_eq_ok_iff, Int32.lt_iff_toInt_lt, Int32.toInt_zero, slot]
  constructor
  · rintro ⟨a, hr, ha⟩
    obtain ⟨hlt, -⟩ := Array.getElem?_eq_some_iff.mp ha
    omega
  · rintro ⟨hr, hle⟩
    have hlt : r.toInt.toNat - 1 < h.arrays.size := by omega
    exact ⟨h.arrays[r.toInt.toNat - 1], by omega, Array.getElem?_eq_getElem hlt⟩

/-- The length of an array is not cut off where it is answered as a number of 32 bits. -/
theorem InBounds.length_eq {a : CellArray} (hb : h.InBounds limit) (ha : h.elements r = .ok a) :
    ∃ n, h.length r = .ok n ∧ n.toInt = a.size := by
  have hmem : a ∈ h.arrays := Array.mem_of_getElem? (elements_eq_ok_iff.mp ha).2
  have hle := hb.size_array_le a hmem
  refine ⟨Int32.ofNat a.size, ?_, Int32.toInt_ofNat_of_lt (by omega)⟩
  rw [length_eq_map_elements, ha]
  rfl

/-! ### Allocation -/

theorem allocate_eq (limit : Nat) (n : Int32) (h : Heap) :
    h.allocate limit n = if n < 0 then .error (.negativeArraySize n)
      else if h.cells + n.toInt.toNat ≤ limit ∧ h.arrays.size < maxArrays
        then .ok (h.nextReference, h.grow n.toInt.toNat) else .error (.heapExhausted n.toInt.toNat limit) := by
  simp only [allocate, request]
  split
  · rfl
  · split
    · rfl
    · rfl

theorem allocate_eq_ok_iff {h' : Heap} : h.allocate limit n = .ok (r, h') ↔
    (0 ≤ n ∧ h.cells + n.toInt.toNat ≤ limit ∧ h.arrays.size < maxArrays) ∧
      r = h.nextReference ∧ h' = h.grow n.toInt.toNat := by
  rw [allocate_eq]
  by_cases hn : n < 0
  · simp [hn, Int32.not_le.mpr hn]
  · rw [if_neg hn]
    by_cases hroom : h.cells + n.toInt.toNat ≤ limit ∧ h.arrays.size < maxArrays
    · rw [if_pos hroom]
      constructor
      · intro hok
        cases hok
        exact ⟨⟨Int32.not_lt.mp hn, hroom⟩, rfl, rfl⟩
      · rintro ⟨-, rfl, rfl⟩
        rfl
    · rw [if_neg hroom]
      constructor
      · intro hok
        cases hok
      · rintro ⟨⟨-, hroom'⟩, -⟩
        exact absurd hroom' hroom

theorem allocate_eq_error {kind : FaultKind} (hk : h.allocate limit n = .error kind) :
    (kind = if n < 0 then .negativeArraySize n else .heapExhausted n.toInt.toNat limit) ∧
      h.perform limit (.allocate n) = (.error kind, h) := by
  refine ⟨?_, by rw [perform, hk]⟩
  rw [allocate_eq] at hk
  split at hk
  · rename_i hn
    cases hk
    rw [if_pos hn]
  · rename_i hn
    split at hk
    · cases hk
    · cases hk
      rw [if_neg hn]

/-- A new array has the number after the last one, and it holds zeros. -/
theorem elements_allocated (hroom : h.arrays.size < maxArrays) (size : Nat) :
    h.nextReference.toInt = h.arrays.size + 1 ∧
      ∃ a, (h.grow size).elements h.nextReference = .ok a ∧ a.toList = List.replicate size 0 := by
  constructor
  · obtain ⟨hpos, hslot⟩ := nextReference_pos_and_slot hroom
    rw [Int32.lt_iff_toInt_lt, Int32.toInt_zero] at hpos
    rw [slot] at hslot
    omega
  · refine ⟨.zeros size, ?_, CellArray.toList_zeros size⟩
    rw [elements_grow hroom, if_pos rfl]

/-- No allocation has given the reference of the next array. -/
theorem Recalls.not_allocated_nextReference {past : List Event} (hp : Recalls past h)
    (hroom : h.arrays.size < maxArrays) (n : Int32) : ¬Allocated past h.nextReference n := by
  intro hn
  obtain ⟨a, ha, -⟩ := hp.elements_of_allocated hn
  rw [elements_nextReference hroom] at ha
  cases ha

end

/-! ### Accounts -/

/-- The accounts of a heap with this past are exact. -/
structure KeepsAccounts (limit : Nat) (past : List Event) (h : Heap) : Prop where
  cells_eq : h.cells = (h.arrays.toList.map CellArray.size).sum
  cells_le : h.cells ≤ limit
  size_le : h.arrays.size ≤ 2 ^ 31 - 1
  /-- The references are exactly the numbers from one up to the number of arrays. -/
  live_iff : ∀ r : Int32, (∃ a, h.elements r = .ok a) ↔ 1 ≤ r.toInt ∧ r.toInt ≤ h.arrays.size
  size_array_le : ∀ a ∈ h.arrays, a.size ≤ 2 ^ 31 - 1
  length_eq : ∀ r a, h.elements r = .ok a → ∃ n, h.length r = .ok n ∧ n.toInt = a.size
  /-- An allocation succeeds exactly where there is room for its elements and for one more array. -/
  allocates_iff : ∀ n : Int32, (∃ r h', h.allocate limit n = .ok (r, h')) ↔
    0 ≤ n ∧ ((h.arrays.toList.map CellArray.size).sum : Int) + n.toInt ≤ limit ∧ h.arrays.size < 2 ^ 31 - 1
  allocated : ∀ n r h', h.allocate limit n = .ok (r, h') → r.toInt = h.arrays.size + 1 ∧
    (∀ n', ¬Allocated past r n') ∧ ∃ a, h'.elements r = .ok a ∧ a.toList = List.replicate n.toInt.toNat 0
  /-- An allocation that fails says why, and leaves the heap as it is. -/
  refused : ∀ n kind, h.allocate limit n = .error kind →
    (kind = if n < 0 then .negativeArraySize n else .heapExhausted n.toInt.toNat limit) ∧
      h.perform limit (.allocate n) = (.error kind, h)

/-- After any operations the accounts are exact: the count of cells is the sum of the lengths and within the limit, the
references are the numbers up to the number of arrays, and an allocation succeeds exactly where there is room, with a
reference that was never given before and an array of zeros. -/
theorem history_keepsAccounts (limit : Nat) (ops : List Operation) :
    KeepsAccounts limit (history limit ops).past (history limit ops).heap := by
  have hb := inBounds_history limit ops
  have hp := recalls_history limit ops
  generalize (history limit ops).heap = h at hb hp ⊢
  generalize (history limit ops).past = past at hp ⊢
  refine ⟨hb.counted, hb.cells_le, hb.size_le, fun r => exists_elements_iff, hb.size_array_le,
    fun r a => hb.length_eq, ?_, ?_, fun n kind => allocate_eq_error⟩
  · intro n
    have hcells : h.cells = (h.arrays.toList.map CellArray.size).sum := hb.counted
    simp only [allocate_eq_ok_iff, exists_and_left, exists_eq, and_true, ← hcells, maxArrays,
      Int32.le_iff_toInt_le, Int32.toInt_zero]
    omega
  · intro n r h' hok
    obtain ⟨⟨-, -, hroom⟩, rfl, rfl⟩ := allocate_eq_ok_iff.mp hok
    obtain ⟨hnext, hzeros⟩ := elements_allocated hroom n.toInt.toNat
    exact ⟨hnext, hp.not_allocated_nextReference hroom, hzeros⟩

/-- An empty array takes a reference but no cells, and a refused one takes neither. -/
example : (history 10 [.allocate 6, .allocate 5, .allocate 0, .allocate (-1), .allocate 4]).past.map (·.answer) =
    [.ok (.number 3), .error (.negativeArraySize (-1)), .ok (.number 2), .error (.heapExhausted 5 10),
      .ok (.number 1)] := by
  decide +kernel

end StackMachine.Heap
