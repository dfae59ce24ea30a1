import StackMachine.Proofs.Heap.Contents

/-! The heap is a memory. Whatever has been asked of it, also with references that it never gave, a reference refers to
an array exactly if an allocation has given it, that array keeps the length it was asked for, and each of its elements
holds the value that was stored there last, or zero. -/

namespace StackMachine.Heap

section
variable {h : Heap} {r r' : Int32} {a : CellArray}

/-! ### Access -/

theorem elements_eq_ok_iff : h.elements r = .ok a ↔ 0 < r ∧ h.arrays[slot r]? = some a := by
  unfold elements
  by_cases hr : 0 < r
  · cases ha : h.arrays[slot r]? with
    | none => simp [hr]
    | some array => simp [hr]
  · simp [hr]

/-- A reference refers to an array, or it is null. -/
theorem elements_eq_ok_or_null (h : Heap) (r : Int32) :
    (∃ a, h.elements r = .ok a) ∨ h.elements r = .error (.nullReference r) := by
  unfold elements
  split
  · exact .inl ⟨_, rfl⟩
  · exact .inr rfl

theorem locate_of_elements (ha : h.elements r = .ok a) (i : Int32) :
    h.locate r i = if 0 ≤ i ∧ i.toInt.toNat < a.size then .ok ⟨slot r, i.toInt.toNat⟩
      else .error (.indexOutOfBounds i a.size) := by
  simp only [locate, ha]
  rfl

theorem locate_of_null {kind : FaultKind} (hr : h.elements r = .error kind) (i : Int32) :
    h.locate r i = .error kind := by
  simp only [locate, hr]
  rfl

theorem locate_eq_ok {i : Int32} {place : Place} (hplace : h.locate r i = .ok place) :
    ∃ a, h.elements r = .ok a ∧ 0 ≤ i ∧ i.toInt.toNat < a.size ∧ place = ⟨slot r, i.toInt.toNat⟩ := by
  rcases elements_eq_ok_or_null h r with ⟨a, ha⟩ | hnull
  · rw [locate_of_elements ha] at hplace
    split at hplace
    · rename_i hi
      cases hplace
      exact ⟨a, ha, hi.1, hi.2, rfl⟩
    · cases hplace
  · rw [locate_of_null hnull] at hplace
    cases hplace

theorem get_of_elements (ha : h.elements r = .ok a) (k : Nat) : h.get ⟨slot r, k⟩ = (a.get? k).getD 0 := by
  simp only [get, (elements_eq_ok_iff.mp ha).2]

/-- A load reads where a store would write. -/
theorem load_eq_map_locate (h : Heap) (r i : Int32) : h.load r i = h.get <$> h.locate r i := by
  unfold load
  cases h.locate r i <;> rfl

theorem store_eq_map_locate (h : Heap) (r i value : Int32) : h.store r i value = (h.set · value) <$> h.locate r i := by
  unfold store
  cases h.locate r i <;> rfl

theorem length_eq_map_elements (h : Heap) (r : Int32) :
    h.length r = (fun a => Int32.ofNat a.size) <$> h.elements r := by
  unfold length
  cases h.elements r <;> rfl

theorem load_of_elements (ha : h.elements r = .ok a) (i : Int32) :
    h.load r i = if 0 ≤ i ∧ i.toInt.toNat < a.size then .ok ((a.get? i.toInt.toNat).getD 0)
      else .error (.indexOutOfBounds i a.size) := by
  rw [load_eq_map_locate, locate_of_elements ha]
  split
  · rw [← get_of_elements ha]
    rfl
  · rfl

theorem load_of_null {kind : FaultKind} (hr : h.elements r = .error kind) (i : Int32) : h.load r i = .error kind := by
  rw [load_eq_map_locate, locate_of_null hr]
  rfl

/-- A load sees the array of its reference and nothing else. -/
theorem load_congr {h' : Heap} (heq : h'.elements r = h.elements r) (i : Int32) : h'.load r i = h.load r i := by
  rcases elements_eq_ok_or_null h r with ⟨a, ha⟩ | hnull
  · rw [load_of_elements ha, load_of_elements (heq.trans ha)]
  · rw [load_of_null hnull, load_of_null (heq.trans hnull)]

/-! ### References and indices -/

theorem toNat_lt_toNat_iff {i n : Int32} (h0 : 0 ≤ i) : i.toInt.toNat < n.toInt.toNat ↔ i < n := by
  rw [Int32.le_iff_toInt_le, Int32.toInt_zero] at h0
  rw [Int32.lt_iff_toInt_lt]
  omega

theorem toNat_inj {i j : Int32} (hi : 0 ≤ i) (hj : 0 ≤ j) (heq : i.toInt.toNat = j.toInt.toNat) : i = j := by
  rw [Int32.le_iff_toInt_le, Int32.toInt_zero] at hi hj
  exact Int32.toInt_inj.mp (by omega)

theorem slot_inj (hr : 0 < r) (hr' : 0 < r') (hslot : slot r = slot r') : r = r' := by
  rw [Int32.lt_iff_toInt_lt, Int32.toInt_zero] at hr hr'
  unfold slot at hslot
  exact Int32.toInt_inj.mp (by omega)

theorem request_eq_ok {limit size : Nat} {length : Int32} (hreq : h.request limit length = .ok size) :
    0 ≤ length ∧ size = length.toInt.toNat ∧ h.cells + size ≤ limit ∧ h.arrays.size < maxArrays := by
  unfold request at hreq
  split at hreq
  · cases hreq
  · rename_i hneg
    dsimp only at hreq
    split at hreq
    · rename_i hroom
      cases hreq
      exact ⟨Int32.not_lt.mp hneg, rfl, hroom⟩
    · cases hreq

/-- As long as references can tell the arrays apart, the next one is that of the position after the last array. -/
theorem nextReference_pos_and_slot (hroom : h.arrays.size < maxArrays) :
    0 < h.nextReference ∧ slot h.nextReference = h.arrays.size := by
  have hint : h.nextReference.toInt = (h.arrays.size + 1 : Nat) :=
    Int32.toInt_ofNat_of_lt (by simp only [maxArrays] at hroom; omega)
  rw [Int32.lt_iff_toInt_lt, Int32.toInt_zero, slot, hint]
  omega

/-- A new array has a reference that was null, and the other references stay with their arrays. -/
theorem elements_grow (hroom : h.arrays.size < maxArrays) (size : Nat) (r : Int32) :
    (h.grow size).elements r = if r = h.nextReference then .ok (.zeros size) else h.elements r := by
  obtain ⟨hpos, hslot⟩ := nextReference_pos_and_slot hroom
  split
  · rename_i heq
    subst heq
    exact elements_eq_ok_iff.mpr ⟨hpos, by simp [grow, hslot]⟩
  · rename_i hne
    unfold elements
    by_cases hr : 0 < r
    · have hother : slot r ≠ h.arrays.size := fun heq => hne (slot_inj hr hpos (heq.trans hslot.symm))
      simp [grow, hr, Array.getElem?_push, hother]
    · simp [hr]

theorem elements_nextReference (hroom : h.arrays.size < maxArrays) :
    h.elements h.nextReference = .error (.nullReference h.nextReference) := by
  obtain ⟨-, hslot⟩ := nextReference_pos_and_slot hroom
  simp [elements, hslot]

/-- Setting an element changes its array only. -/
theorem elements_set (hr : 0 < r) (k : Nat) (value : Int32) (r' : Int32) :
    (h.set ⟨slot r, k⟩ value).elements r' =
      if r' = r then (·.set k value) <$> h.elements r' else h.elements r' := by
  unfold elements set
  by_cases hr' : 0 < r'
  · simp only [hr', if_true, Array.getElem?_modify]
    by_cases heq : r' = r
    · subst heq
      cases h.arrays[slot r']? <;> simp
    · have hother : slot r ≠ slot r' := fun hslot => heq (slot_inj hr' hr hslot.symm)
      simp [heq, hother]
  · have hne : r' ≠ r := fun heq => hr' (heq ▸ hr)
    simp [hr', hne]

end

/-! ### Operations and their past -/

/-- What can be asked of a heap. -/
inductive Operation where
  | allocate (length : Int32)
  | store (reference index value : Int32)
  | load (reference index : Int32)
  | length (reference : Int32)
  | elements (reference : Int32)
deriving DecidableEq

/-- What a heap answers where it does not fault. -/
inductive Answer where
  /-- A new reference, an element or a length. -/
  | number (value : Int32)
  | stored
  | cells (values : List Int32)
deriving DecidableEq

/-- The answer to an operation, and the heap after it. -/
def perform (limit : Nat) (h : Heap) : Operation → Except FaultKind Answer × Heap
  | .allocate length =>
    match h.allocate limit length with
    | .ok (reference, h') => (.ok (.number reference), h')
    | .error kind => (.error kind, h)
  | .store reference index value =>
    match h.store reference index value with
    | .ok h' => (.ok .stored, h')
    | .error kind => (.error kind, h)
  | .load reference index => (.number <$> h.load reference index, h)
  | .length reference => (.number <$> h.length reference, h)
  | .elements reference => ((fun a => .cells a.toList) <$> h.elements reference, h)

/-- An operation that was performed, and the answer to it. -/
structure Event where
  operation : Operation
  answer : Except FaultKind Answer

/-- A heap with all that has been asked of it, latest first. -/
structure History where
  heap : Heap
  past : List Event

/-- Performs an operation, and notes it with its answer. -/
def History.perform (limit : Nat) (t : History) (op : Operation) : History :=
  ⟨(t.heap.perform limit op).2, ⟨op, (t.heap.perform limit op).1⟩ :: t.past⟩

/-- The history of a heap that starts empty, with operations in the order in which they are performed. -/
def history (limit : Nat) (ops : List Operation) : History :=
  ops.foldl (History.perform limit) ⟨.empty, []⟩

/-- What holds of the empty heap and is kept by every operation holds after any operations. -/
theorem history_induction {limit : Nat} {motive : History → Prop} (start : motive ⟨.empty, []⟩)
    (step : ∀ t op, motive t → motive (t.perform limit op)) (ops : List Operation) : motive (history limit ops) :=
  List.foldlRecOn ops (History.perform limit) start fun t ht op _ => step t op ht

section
variable (past : List Event) (reference : Int32)

/-- An allocation of an array of this length has given this reference. -/
def Allocated (length : Int32) : Prop :=
  ⟨.allocate length, .ok (.number reference)⟩ ∈ past

/-- The value that an event has stored to an element. -/
def Event.stored? (index : Int32) (e : Event) : Option Int32 :=
  match e with
  | ⟨.store r i value, .ok _⟩ => if r = reference ∧ i = index then some value else none
  | _ => none

/-- The value stored last to an element, or zero. -/
def latest (index : Int32) : Int32 :=
  (past.findSome? (Event.stored? reference index)).getD 0

end

section
variable {past : List Event} {h : Heap} {r i : Int32} {e : Event}

theorem allocated_cons_iff {n : Int32} :
    Allocated (e :: past) r n ↔ e = ⟨.allocate n, .ok (.number r)⟩ ∨ Allocated past r n := by
  rw [Allocated, List.mem_cons, eq_comm, Allocated]

theorem latest_cons : latest (e :: past) r i = (e.stored? r i).getD (latest past r i) := by
  rw [latest, List.findSome?_cons]
  cases e.stored? r i <;> rfl

/-- An event that neither gives a reference nor stores to an element. -/
def Event.Quiet (e : Event) : Prop :=
  (∀ r n, e ≠ ⟨.allocate n, .ok (.number r)⟩) ∧ ∀ r i, e.stored? r i = none

theorem Event.quiet_of_error (op : Operation) (kind : FaultKind) : Quiet ⟨op, .error kind⟩ :=
  ⟨fun _ _ heq => (nomatch heq), fun _ _ => by cases op <;> rfl⟩

/-- What an operation can do: it adds an array, or it sets an element, or nothing happens. -/
theorem perform_cases (limit : Nat) (h : Heap) (op : Operation) :
    (∃ n size, op = .allocate n ∧ h.request limit n = .ok size ∧
      h.perform limit op = (.ok (.number h.nextReference), h.grow size)) ∨
    (∃ r i value place, op = .store r i value ∧ h.locate r i = .ok place ∧
      h.perform limit op = (.ok .stored, h.set place value)) ∨
    ((h.perform limit op).2 = h ∧ Event.Quiet ⟨op, (h.perform limit op).1⟩) := by
  cases op with
  | allocate n =>
    cases hreq : h.request limit n with
    | ok size => exact .inl ⟨n, size, rfl, hreq, by simp only [perform, allocate, hreq]; rfl⟩
    | error kind =>
      have hperform : h.perform limit (.allocate n) = (.error kind, h) := by
        simp only [perform, allocate, hreq]
        rfl
      rw [hperform]
      exact .inr (.inr ⟨rfl, Event.quiet_of_error _ kind⟩)
  | store r i value =>
    cases hplace : h.locate r i with
    | ok place => exact .inr (.inl ⟨r, i, value, place, rfl, hplace, by simp only [perform, store, hplace]; rfl⟩)
    | error kind =>
      have hperform : h.perform limit (.store r i value) = (.error kind, h) := by
        simp only [perform, store, hplace]
        rfl
      rw [hperform]
      exact .inr (.inr ⟨rfl, Event.quiet_of_error _ kind⟩)
  | load r i => exact .inr (.inr ⟨rfl, ⟨fun _ _ heq => (nomatch heq), fun _ _ => rfl⟩⟩)
  | length r => exact .inr (.inr ⟨rfl, ⟨fun _ _ heq => (nomatch heq), fun _ _ => rfl⟩⟩)
  | elements r => exact .inr (.inr ⟨rfl, ⟨fun _ _ heq => (nomatch heq), fun _ _ => rfl⟩⟩)

/-! ### What a heap has of its past -/

/-- What a reference leads to is what the past says of it: nothing, if no allocation has given it, and otherwise an
array of the length that was asked for, with the values that were stored last. -/
inductive RecallsAt (past : List Event) (r : Int32) : Except FaultKind CellArray → Prop
  | null : (∀ n, ¬Allocated past r n) → (∀ i, latest past r i = 0) → RecallsAt past r (.error (.nullReference r))
  | array {n : Int32} {a : CellArray} : Allocated past r n → (∀ n', Allocated past r n' → n' = n) → 0 ≤ n →
    a.size = n.toInt.toNat → (∀ i, 0 ≤ i → i < n → a.get? i.toInt.toNat = some (latest past r i)) →
    RecallsAt past r (.ok a)

/-- The heap holds what its past says, for every reference. -/
def Recalls (past : List Event) (h : Heap) : Prop :=
  ∀ r, RecallsAt past r (h.elements r)

/-- An event that neither gives a reference nor stores to its array says nothing of it. -/
theorem RecallsAt.cons {x : Except FaultKind CellArray} (hx : RecallsAt past r x)
    (halloc : ∀ n, e ≠ ⟨.allocate n, .ok (.number r)⟩) (hstore : ∀ i, e.stored? r i = none) :
    RecallsAt (e :: past) r x := by
  have hallocated : ∀ n, Allocated (e :: past) r n ↔ Allocated past r n := fun n => by
    rw [allocated_cons_iff, or_iff_right (halloc n)]
  have hlatest : ∀ i, latest (e :: past) r i = latest past r i := fun i => by
    rw [latest_cons, hstore, Option.getD_none]
  cases hx with
  | null hnone hzero =>
    exact .null (fun n hn => hnone n ((hallocated n).mp hn)) fun i => (hlatest i).trans (hzero i)
  | array hn hunique hn0 hsize hheld =>
    refine .array ((hallocated _).mpr hn) (fun n' hn' => hunique n' ((hallocated n').mp hn')) hn0 hsize ?_
    intro i h0 hi
    rw [hlatest]
    exact hheld i h0 hi

namespace Recalls

theorem empty : Recalls [] .empty := by
  intro r
  have hnull : Heap.empty.elements r = .error (.nullReference r) := by simp [Heap.empty, elements]
  rw [hnull]
  exact .null (fun n hn => nomatch hn) fun i => rfl

/-- A new array holds zeros, and nothing has been stored to it: its reference was null before. -/
theorem grow (hp : Recalls past h) {limit size : Nat} {n : Int32} (hreq : h.request limit n = .ok size) :
    Recalls (⟨.allocate n, .ok (.number h.nextReference)⟩ :: past) (h.grow size) := by
  obtain ⟨hn, rfl, -, hroom⟩ := request_eq_ok hreq
  intro r
  rw [elements_grow hroom]
  split
  · rename_i heq
    subst heq
    -- The reference led nowhere before, so the past has no allocation of it and no store.
    have hnull := hp h.nextReference
    rw [elements_nextReference hroom] at hnull
    cases hnull with
    | null hnone hzero =>
      refine .array (allocated_cons_iff.mpr (.inl rfl)) (fun n' hn' => ?_) hn rfl fun i h0 hi => ?_
      · rcases allocated_cons_iff.mp hn' with heq | hn'
        · cases heq
          rfl
        · exact absurd hn' (hnone n')
      · have hindex : i.toInt.toNat < n.toInt.toNat := (toNat_lt_toNat_iff h0).mpr hi
        rw [CellArray.get?_zeros, if_pos hindex, latest_cons, hzero]
        rfl
  · rename_i hne
    refine (hp r).cons (fun n' heq => ?_) fun i => rfl
    cases heq
    exact hne rfl

/-- A store sets the element that it names, which is in no other array and at no other index. -/
theorem set (hp : Recalls past h) {place : Place} (hplace : h.locate r i = .ok place) (value : Int32) :
    Recalls (⟨.store r i value, .ok .stored⟩ :: past) (h.set place value) := by
  obtain ⟨a, ha, h0, hi, rfl⟩ := locate_eq_ok hplace
  intro r'
  rw [elements_set (elements_eq_ok_iff.mp ha).1]
  split
  · rename_i heq
    subst heq
    have harray := hp r'
    rw [ha] at harray ⊢
    cases harray with
    | array hn hunique hn0 hsize hheld =>
      refine .array (allocated_cons_iff.mpr (.inr hn)) (fun n' hn' => ?_) hn0 hsize fun j hj0 hj => ?_
      · rcases allocated_cons_iff.mp hn' with heq | hn'
        · cases heq
        · exact hunique n' hn'
      · rw [CellArray.get?_set, latest_cons, Event.stored?]
        -- Two indices of elements are equal if they are so as natural numbers.
        by_cases hij : i = j
        · rw [if_pos ⟨by rw [hij], hi⟩, if_pos ⟨rfl, hij⟩]
          rfl
        · rw [if_neg fun heq => hij (toNat_inj h0 hj0 heq.1), if_neg fun heq => hij heq.2]
          exact hheld j hj0 hj
  · rename_i hne
    refine (hp r').cons (fun n heq => nomatch heq) fun j => ?_
    exact if_neg fun heq => hne heq.1.symm

theorem perform (hp : Recalls past h) (limit : Nat) (op : Operation) :
    Recalls (⟨op, (h.perform limit op).1⟩ :: past) (h.perform limit op).2 := by
  rcases perform_cases limit h op with
    ⟨n, size, rfl, hreq, hop⟩ | ⟨r, i, value, place, rfl, hplace, hop⟩ | ⟨hop, hquiet⟩
  · rw [hop]
    exact hp.grow hreq
  · rw [hop]
    exact hp.set hplace value
  · rw [hop]
    exact fun r => (hp r).cons (hquiet.1 r) (hquiet.2 r)

end Recalls

/-- Every history leaves a heap that holds what its past says. -/
theorem recalls_history (limit : Nat) (ops : List Operation) :
    Recalls (history limit ops).past (history limit ops).heap := by
  refine history_induction (motive := fun t => Recalls t.past t.heap) .empty ?_ ops
  intro t op ht
  exact ht.perform limit op

/-! ### The heap as a memory -/

/-- The heap answers as a memory with this past. -/
structure Remembers (past : List Event) (h : Heap) : Prop where
  /-- A reference is null exactly if no allocation has given it. -/
  load_null_iff : ∀ r i, h.load r i = .error (.nullReference r) ↔ ∀ n, ¬Allocated past r n
  /-- Other references fail exactly for an index outside of the length that was asked for. -/
  load_outside_iff : ∀ r n i, Allocated past r n →
    (h.load r i = .error (.indexOutOfBounds i n.toInt.toNat) ↔ i < 0 ∨ n ≤ i)
  load_eq_latest : ∀ r n i, Allocated past r n → 0 ≤ i → i < n → h.load r i = .ok (latest past r i)
  /-- A store fails where a load does, and as it does. -/
  store_error_iff : ∀ r i value kind, h.store r i value = .error kind ↔ h.load r i = .error kind
  length_eq : ∀ r n, Allocated past r n → h.length r = .ok n
  elements_eq : ∀ r n, Allocated past r n → ∃ a, h.elements r = .ok a ∧
    a.toList = (List.range n.toInt.toNat).map fun k => latest past r (Int32.ofNat k)
  null : ∀ r, (∀ n, ¬Allocated past r n) →
    h.length r = .error (.nullReference r) ∧ h.elements r = .error (.nullReference r)

namespace Recalls

theorem elements_of_not_allocated (hp : Recalls past h) (hnone : ∀ n, ¬Allocated past r n) :
    h.elements r = .error (.nullReference r) := by
  refine (elements_eq_ok_or_null h r).resolve_left ?_
  rintro ⟨a, ha⟩
  have harray := hp r
  rw [ha] at harray
  cases harray with
  | array hn _ _ _ _ => exact hnone _ hn

theorem elements_of_allocated (hp : Recalls past h) {n : Int32} (hn : Allocated past r n) :
    ∃ a, h.elements r = .ok a ∧ 0 ≤ n ∧ a.size = n.toInt.toNat ∧
      ∀ i, 0 ≤ i → i < n → a.get? i.toInt.toNat = some (latest past r i) := by
  have hr := hp r
  generalize hx : h.elements r = x at hr
  cases hr with
  | null hnone _ => exact absurd hn (hnone n)
  | array _ hunique hn0 hsize hheld =>
    cases hunique n hn
    exact ⟨_, rfl, hn0, hsize, hheld⟩

theorem toList_eq_map_latest {a : CellArray} {n : Int32} (hsize : a.size = n.toInt.toNat)
    (hheld : ∀ i, 0 ≤ i → i < n → a.get? i.toInt.toNat = some (latest past r i)) :
    a.toList = (List.range n.toInt.toNat).map fun k => latest past r (Int32.ofNat k) := by
  apply List.ext_getElem?
  intro k
  rw [CellArray.getElem?_toList, List.getElem?_map]
  -- The length is a 32-bit number, so every position of an element is one too.
  by_cases hk : k < n.toInt.toNat
  · have hint : (Int32.ofNat k).toInt = k := Int32.toInt_ofNat_of_lt (by have := n.toInt_lt; omega)
    have h0 : (0 : Int32) ≤ Int32.ofNat k := by
      rw [Int32.le_iff_toInt_le, hint, Int32.toInt_zero]
      omega
    have hindex := hheld (Int32.ofNat k) h0 ((toNat_lt_toNat_iff h0).mp (by rw [hint]; exact hk))
    rw [hint] at hindex
    rw [List.getElem?_range hk, Option.map_some]
    exact hindex
  · have hnone : a.get? k = none := by
      rw [← Option.not_isSome_iff_eq_none, CellArray.isSome_get?_iff, hsize]
      exact hk
    rw [hnone, List.getElem?_eq_none (by simpa using Nat.le_of_not_lt hk), Option.map_none]

theorem remembers (hp : Recalls past h) : Remembers past h where
  load_null_iff r i := by
    constructor
    · intro hnull n hn
      obtain ⟨a, ha, -⟩ := hp.elements_of_allocated hn
      rw [load_of_elements ha] at hnull
      split at hnull <;> cases hnull
    · exact fun hnone => load_of_null (hp.elements_of_not_allocated hnone) i
  load_outside_iff r n i hn := by
    obtain ⟨a, ha, hn0, hsize, -⟩ := hp.elements_of_allocated hn
    rw [load_of_elements ha, hsize]
    split
    · rename_i hi
      have hlt := (toNat_lt_toNat_iff hi.1).mp hi.2
      simp [Int32.not_lt.mpr hi.1, Int32.not_le.mpr hlt]
    · rename_i hi
      refine iff_of_true rfl ?_
      by_contra hin
      rw [not_or, Int32.not_lt, Int32.not_le] at hin
      exact hi ⟨hin.1, (toNat_lt_toNat_iff hin.1).mpr hin.2⟩
  load_eq_latest r n i hn h0 hi := by
    obtain ⟨a, ha, hn0, hsize, hheld⟩ := hp.elements_of_allocated hn
    have hindex : i.toInt.toNat < a.size := hsize ▸ (toNat_lt_toNat_iff h0).mpr hi
    rw [load_of_elements ha, if_pos ⟨h0, hindex⟩, hheld i h0 hi, Option.getD_some]
  store_error_iff r i value kind := by
    rw [store_eq_map_locate, load_eq_map_locate]
    cases h.locate r i <;> simp [Functor.map, Except.map]
  length_eq r n hn := by
    obtain ⟨a, ha, hn0, hsize, -⟩ := hp.elements_of_allocated hn
    rw [length_eq_map_elements, ha]
    have hofNat : Int32.ofNat a.size = n := by
      rw [hsize]
      exact Int32.ofNat_toNatClampNeg n hn0
    exact congrArg Except.ok hofNat
  elements_eq r n hn := by
    obtain ⟨a, ha, hn0, hsize, hheld⟩ := hp.elements_of_allocated hn
    exact ⟨a, ha, toList_eq_map_latest hsize hheld⟩
  null r hnone := by
    have hnull := hp.elements_of_not_allocated hnone
    rw [length_eq_map_elements, hnull]
    exact ⟨rfl, rfl⟩

end Recalls

/-- The operation is none on this element: it neither stores to it nor allocates its array. -/
def Event.Spares (r i : Int32) (e : Event) : Prop :=
  (∀ value, e.operation ≠ .store r i value) ∧ ∀ n, e ≠ ⟨.allocate n, .ok (.number r)⟩

theorem perform_of_error {limit : Nat} {op : Operation} {kind : FaultKind} (hk : (h.perform limit op).1 = .error kind) :
    (h.perform limit op).2 = h := by
  rcases perform_cases limit h op with ⟨n, size, rfl, -, hop⟩ | ⟨r, i, value, place, rfl, -, hop⟩ | ⟨hop, -⟩
  · rw [hop] at hk
    cases hk
  · rw [hop] at hk
    cases hk
  · exact hop

/-- An operation on other arrays leaves an array as it is. -/
theorem elements_perform {limit : Nat} {op : Operation}
    (he : ∀ i, (⟨op, (h.perform limit op).1⟩ : Event).Spares r i) :
    (h.perform limit op).2.elements r = h.elements r := by
  rcases perform_cases limit h op with ⟨n, size, rfl, hreq, hop⟩ | ⟨r', i', value, place, rfl, hplace, hop⟩ | ⟨hop, -⟩
  · obtain ⟨-, -, -, hroom⟩ := request_eq_ok hreq
    rw [hop] at he ⊢
    rw [elements_grow hroom, if_neg]
    rintro rfl
    exact (he 0).2 n rfl
  · obtain ⟨a, ha, -, -, rfl⟩ := locate_eq_ok hplace
    rw [hop, elements_set (elements_eq_ok_iff.mp ha).1, if_neg]
    rintro rfl
    exact (he i').1 value rfl
  · rw [hop]

/-- A store leaves the other elements of its array as they are, and the length. -/
theorem load_set_of_ne {j value : Int32} {place : Place} (hplace : h.locate r j = .ok place) (hij : j ≠ i) :
    (h.set place value).load r i = h.load r i ∧ (h.set place value).length r = h.length r := by
  obtain ⟨a, ha, hj0, -, rfl⟩ := locate_eq_ok hplace
  have hset : (h.set ⟨slot r, j.toInt.toNat⟩ value).elements r = .ok (a.set j.toInt.toNat value) := by
    rw [elements_set (elements_eq_ok_iff.mp ha).1, if_pos rfl, ha]
    rfl
  constructor
  · rw [load_of_elements hset, load_of_elements ha, CellArray.size_set]
    split
    · rename_i hi
      rw [CellArray.get?_set, if_neg fun heq => hij (toNat_inj hj0 hi.1 heq.1)]
    · rfl
  · rw [length_eq_map_elements, length_eq_map_elements, hset, ha]
    rfl

/-- An operation on other elements leaves an element as it is. -/
theorem load_perform {limit : Nat} {op : Operation} (he : (⟨op, (h.perform limit op).1⟩ : Event).Spares r i) :
    (h.perform limit op).2.load r i = h.load r i ∧ (h.perform limit op).2.length r = h.length r := by
  by_cases hall : ∀ j, (⟨op, (h.perform limit op).1⟩ : Event).Spares r j
  · have helements := elements_perform hall
    rw [length_eq_map_elements, length_eq_map_elements, helements]
    exact ⟨load_congr helements i, rfl⟩
  -- The operation spares the element but not the array, so it is a store to another index.
  · obtain ⟨j, value, rfl⟩ : ∃ j value, op = .store r j value := by
      by_contra hnone
      simp only [not_exists] at hnone
      exact hall fun j => ⟨hnone j, he.2⟩
    rcases perform_cases limit h (.store r j value) with
      ⟨n, size, heq, -⟩ | ⟨r', j', value', place, heq, hplace, hop⟩ | ⟨hop, -⟩
    · cases heq
    · cases heq
      rw [hop]
      refine load_set_of_ne hplace ?_
      rintro rfl
      exact he.1 value rfl
    · rw [hop]
      exact ⟨rfl, rfl⟩

/-- After any operations, also with references that were never given and indices out of range, the heap answers from
its past: a reference is null unless an allocation has given it, an index is out of bounds unless it is within the
length that was asked for, and an element is the value stored last, or zero. Stores fail as loads do. An operation that
fails changes nothing, and no operation changes what can be seen of other elements and arrays. -/
theorem history_remembers (limit : Nat) (ops : List Operation) :
    Remembers (history limit ops).past (history limit ops).heap ∧
    ∀ op answer h', (history limit ops).heap.perform limit op = (answer, h') →
      (∀ kind, answer = .error kind → h' = (history limit ops).heap) ∧
      (∀ r i, (⟨op, answer⟩ : Event).Spares r i → h'.load r i = (history limit ops).heap.load r i ∧
        h'.length r = (history limit ops).heap.length r) ∧
      ∀ r, (∀ i, (⟨op, answer⟩ : Event).Spares r i) → h'.elements r = (history limit ops).heap.elements r := by
  refine ⟨(recalls_history limit ops).remembers, ?_⟩
  rintro op answer h' hop
  obtain ⟨rfl, rfl⟩ := Prod.mk.inj hop.symm
  exact ⟨fun kind => perform_of_error, fun r i => load_perform, fun r => elements_perform⟩

example : (history 8 [.allocate 3, .store 1 2 5, .allocate 5, .store 2 2 9, .store 1 3 7]).heap.load 1 2 = .ok 5 := by
  decide +kernel

end

end StackMachine.Heap
