import StackMachine.Proofs.Module.RoundTrip

/-! The format of binary modules. A layout is what stands in a module, before the names of its records are looked up
and its words are read as instructions. Every layout is written in one way, and reading accepts exactly the bytes of
the layouts whose records stand for methods of distinct names. The table may hold any names: only those that the
records refer to are looked at. -/

namespace StackMachine

/-! ### Bytes -/

namespace Bytes

theorem toNat_cons (b : UInt8) (bytes : List UInt8) : toNat (b :: bytes) = b.toNat + 256 * toNat bytes := rfl

theorem toNat_lt (bytes : List UInt8) : toNat bytes < 256 ^ bytes.length := by
  induction bytes with
  | nil => exact Nat.one_pos
  | cons b bytes ih =>
    have hb := b.toNat_lt
    rw [toNat_cons, List.length_cons, Nat.pow_succ]
    omega

theorem ofNat_toNat (bytes : List UInt8) : ofNat bytes.length (toNat bytes) = bytes := by
  induction bytes with
  | nil => rfl
  | cons b bytes ih =>
    have hb := b.toNat_lt
    have hfirst : UInt8.ofNat (toNat (b :: bytes)) = b := by
      apply UInt8.toNat_inj.mp
      rw [UInt8.toNat_ofNat', toNat_cons]
      omega
    have hrest : toNat (b :: bytes) / 256 = toNat bytes := by
      rw [toNat_cons]
      omega
    rw [List.length_cons, ofNat, hfirst, hrest, ih]

theorem toString?_eq_some_iff {bytes : List UInt8} {s : String} : toString? bytes = some s ↔ bytes = ofString s := by
  constructor
  · intro h
    unfold toString? String.fromUTF8? at h
    split at h
    · cases h
      rfl
    · cases h
  · rintro rfl
    exact toString?_ofString s

end Bytes

theorem Word.bytes_ofBytes {bytes : List UInt8} (h : bytes.length = size) : (ofBytes bytes).bytes = bytes := by
  obtain ⟨opcode, fields, rfl⟩ := List.exists_cons_of_length_eq_add_one h
  obtain ⟨reserved, fields, rfl⟩ := List.exists_cons_of_length_eq_add_one (Nat.succ.inj h)
  have hlen : fields.length = 6 := Nat.succ.inj (Nat.succ.inj h)
  have ha := Bytes.ofNat_toNat (fields.take 2)
  have hb := Bytes.ofNat_toNat (fields.drop 2)
  have hlta := Bytes.toNat_lt (fields.take 2)
  have hltb := Bytes.toNat_lt (fields.drop 2)
  have hlena : (fields.take 2).length = 2 := by rw [List.length_take, hlen]; rfl
  have hlenb : (fields.drop 2).length = 4 := by rw [List.length_drop, hlen]
  rw [hlena] at ha hlta
  rw [hlenb] at hb hltb
  have htb : (fields.drop 2).take 4 = fields.drop 2 := List.take_of_length_le (Nat.le_of_eq hlenb)
  have hbytes : (ofBytes (opcode :: reserved :: fields)).bytes = opcode :: reserved ::
      (Bytes.ofNat 2 (UInt16.ofNat (Bytes.toNat (fields.take 2))).toNat ++
        Bytes.ofNat 4 (UInt32.ofNat (Bytes.toNat ((fields.drop 2).take 4))).toNat) := rfl
  rw [hbytes, htb, UInt16.toNat_ofNat_of_lt' hlta, UInt32.toNat_ofNat_of_lt' hltb, ha, hb, List.take_append_drop]

/-- A word that is an instruction is the same one where the table has more names at its end. -/
theorem Instruction.ofWord_append {names : List String} {w : Word} {i : Instruction} (h : ofWord names w = .ok i)
    (extra : List String) : ofWord (names ++ extra) w = .ok i := by
  unfold ofWord at h ⊢
  obtain ⟨op, hop, h⟩ := bind_eq_ok_iff.mp h
  refine bind_eq_ok_iff.mpr ⟨op, hop, ?_⟩
  by_cases hreserved : w.reserved = 0
  · simp only [hreserved, ne_eq, not_true_eq_false, if_false] at h ⊢
    cases op with
    | invokeStatic =>
      cases hname : names[w.b.toNat]? with
      | none =>
        simp only [hname] at h
        cases h
      | some name =>
        -- Only a call looks into the table, and its position is there without the additions.
        obtain ⟨hlt, -⟩ := List.getElem?_eq_some_iff.mp hname
        simp only [List.getElem?_append_left hlt, hname] at h ⊢
        exact h
    | _ => exact h
  · simp only [hreserved, ne_eq, not_false_eq_true, if_true] at h
    cases h

namespace Module

/-! ### Layouts -/

/-- A method as it stands in a module. -/
structure MethodRecord where
  /-- The position of its name in the table. -/
  name : UInt32
  arity : UInt16
  localCount : UInt16
  words : List Word
  length_words : words.length < 2 ^ 32

namespace MethodRecord

/-- The bytes of a record. -/
def bytes (r : MethodRecord) : List UInt8 :=
  Bytes.ofNat 4 r.name.toNat ++ Bytes.ofNat 2 r.arity.toNat ++ Bytes.ofNat 2 r.localCount.toNat ++
    Bytes.ofNat 4 r.words.length ++ r.words.flatMap Word.bytes

/-- The method of a record: the table has its name, its words are instructions, and it passes the load checks. -/
def StandsFor (names : List String) (r : MethodRecord) (m : Method) : Prop :=
  ∃ name code, names[r.name.toNat]? = some name ∧
    List.Forall₂ (fun w i => Instruction.ofWord names w = .ok i) r.words code ∧
    Method.load name r.arity r.localCount code.toArray = .ok m

theorem StandsFor.append {names : List String} {r : MethodRecord} {m : Method} (h : r.StandsFor names m)
    (extra : List String) : r.StandsFor (names ++ extra) m := by
  obtain ⟨name, code, hname, hwords, hload⟩ := h
  obtain ⟨hlt, -⟩ := List.getElem?_eq_some_iff.mp hname
  exact ⟨name, code, by rw [List.getElem?_append_left hlt, hname],
    hwords.imp fun _ _ hword => Instruction.ofWord_append hword extra, hload⟩

end MethodRecord

/-- What stands in a module. -/
structure Layout where
  names : List String
  records : List MethodRecord
  length_names : names.length < 2 ^ 32
  size_name : ∀ name ∈ names, name.utf8ByteSize < 2 ^ 32
  length_records : records.length < 2 ^ 32

namespace Layout

/-- The bytes of a layout. -/
def bytes (l : Layout) : List UInt8 :=
  magic ++ [version] ++ Bytes.ofNat 4 l.names.length ++ l.names.flatMap nameBytes ++
    Bytes.ofNat 4 l.records.length ++ l.records.flatMap MethodRecord.bytes

/-- The records of the layout stand for these methods. -/
def StandsFor (l : Layout) (ms : List Method) : Prop :=
  List.Forall₂ (MethodRecord.StandsFor l.names) l.records ms

end Layout

/-! ### Readers -/

section
variable {size : Nat} {bytes rest : List UInt8}

theorem run_take_eq_ok_iff {n : Nat} {taken : List UInt8} :
    (take size n).run bytes = .ok (taken, rest) ↔ taken.length = n ∧ bytes = taken ++ rest := by
  constructor
  · intro h
    change (if _ then _ else _) = _ at h
    split at h
    · rename_i hlen
      cases h
      exact ⟨hlen, (List.take_append_drop n bytes).symm⟩
    · cases h
  · rintro ⟨hlen, rfl⟩
    exact reads_take hlen rest

theorem run_nat_eq_ok_iff {width n : Nat} :
    (nat size width).run bytes = .ok (n, rest) ↔ n < 256 ^ width ∧ bytes = Bytes.ofNat width n ++ rest := by
  constructor
  · intro h
    obtain ⟨taken, mid, htake, hpure⟩ := run_bind_eq_ok_iff.mp h
    cases hpure
    obtain ⟨rfl, rfl⟩ := run_take_eq_ok_iff.mp htake
    exact ⟨Bytes.toNat_lt taken, by rw [Bytes.ofNat_toNat]⟩
  · rintro ⟨hn, rfl⟩
    exact reads_nat hn rest

/-- Parts are read as often as is counted, where each part reads what some `x` is written as. -/
theorem run_many_eq_ok_iff {α β : Type} {part : Nat → Reader α} {stands : β → α → Prop} {write : β → List UInt8}
    (hpart : ∀ k bytes a rest, (part k).run bytes = .ok (a, rest) ↔ ∃ x, stands x a ∧ bytes = write x ++ rest)
    {start count : Nat} {l : List α} :
    (many part start count).run bytes = .ok (l, rest) ↔
      ∃ xs, xs.length = count ∧ List.Forall₂ stands xs l ∧ bytes = xs.flatMap write ++ rest := by
  induction count generalizing start bytes l with
  | zero =>
    constructor
    · intro h
      cases h
      exact ⟨[], rfl, .nil, rfl⟩
    · rintro ⟨xs, hlen, hxs, rfl⟩
      obtain rfl := List.eq_nil_of_length_eq_zero hlen
      cases hxs
      rfl
  | succ count ih =>
    rw [many, run_bind_eq_ok_iff]
    constructor
    · rintro ⟨a, mid, hfirst, h⟩
      obtain ⟨as, mid', hrest, hpure⟩ := run_bind_eq_ok_iff.mp h
      cases hpure
      obtain ⟨x, hx, rfl⟩ := (hpart _ _ _ _).mp hfirst
      obtain ⟨xs, rfl, hxs, rfl⟩ := ih.mp hrest
      exact ⟨x :: xs, rfl, .cons hx hxs, by rw [List.flatMap_cons, List.append_assoc]⟩
    · rintro ⟨_ | ⟨x, xs⟩, hlen, hxs, rfl⟩
      · cases hlen
      · cases hxs with
        | @cons _ a _ as hx hxs =>
          refine ⟨a, _, (hpart _ _ _ _).mpr ⟨x, hx, by rw [List.flatMap_cons, List.append_assoc]⟩, ?_⟩
          exact run_bind_eq_ok_iff.mpr ⟨as, rest, ih.mpr ⟨xs, Nat.succ.inj hlen, hxs, rfl⟩, rfl⟩

theorem run_name_eq_ok_iff {index : Nat} {s : String} :
    (name size index).run bytes = .ok (s, rest) ↔ s.utf8ByteSize < 2 ^ 32 ∧ bytes = nameBytes s ++ rest := by
  constructor
  · intro h
    obtain ⟨length, mid, hlength, hname⟩ := run_bind_eq_ok_iff.mp h
    obtain ⟨taken, mid', htake, hstring⟩ := run_bind_eq_ok_iff.mp hname
    obtain ⟨hlt, rfl⟩ := run_nat_eq_ok_iff.mp hlength
    obtain ⟨rfl, rfl⟩ := run_take_eq_ok_iff.mp htake
    split at hstring
    · rename_i hs
      cases hstring
      obtain rfl := Bytes.toString?_eq_some_iff.mp hs
      exact ⟨Bytes.length_ofString s ▸ hlt, by rw [nameBytes, List.append_assoc]⟩
    · cases hstring
  · rintro ⟨hlt, rfl⟩
    exact reads_name hlt index rest

theorem run_instruction_eq_ok_iff {names : List String} {i : Instruction} :
    (instruction size names).run bytes = .ok (i, rest) ↔
      ∃ w, Instruction.ofWord names w = .ok i ∧ bytes = Word.bytes w ++ rest := by
  constructor
  · intro h
    obtain ⟨taken, mid, htake, hlift⟩ := run_bind_eq_ok_iff.mp h
    obtain ⟨hlen, rfl⟩ := run_take_eq_ok_iff.mp htake
    obtain ⟨hword, rfl⟩ := run_lift_eq_ok_iff.mp hlift
    exact ⟨Word.ofBytes taken, hword, by rw [Word.bytes_ofBytes hlen]⟩
  · rintro ⟨w, hword, rfl⟩
    exact reads_word hword rest

theorem run_code_eq_ok_iff {names : List String} {count : Nat} {code : List Instruction} :
    (many (fun _ => instruction size names) 0 count).run bytes = .ok (code, rest) ↔
      ∃ ws, ws.length = count ∧ List.Forall₂ (fun w i => Instruction.ofWord names w = .ok i) ws code ∧
        bytes = ws.flatMap Word.bytes ++ rest :=
  run_many_eq_ok_iff fun _ _ _ _ => run_instruction_eq_ok_iff

theorem run_method_eq_ok_iff {names : List String} {m : Method} :
    (method size names).run bytes = .ok (m, rest) ↔
      ∃ r, MethodRecord.StandsFor names r m ∧ bytes = r.bytes ++ rest := by
  constructor
  · intro h
    obtain ⟨index, mid, hindex, hnamed⟩ := run_bind_eq_ok_iff.mp h
    cases hname : names[index]? with
    | none =>
      rw [hname] at hnamed
      cases hnamed
    | some name =>
      simp only [hname] at hnamed
      obtain ⟨arity, mid₁, harity, h₁⟩ := run_bind_eq_ok_iff.mp hnamed
      obtain ⟨localCount, mid₂, hlocals, h₂⟩ := run_bind_eq_ok_iff.mp h₁
      obtain ⟨count, mid₃, hcount, h₃⟩ := run_bind_eq_ok_iff.mp h₂
      obtain ⟨code, mid₄, hcode, h₄⟩ := run_bind_eq_ok_iff.mp h₃
      obtain ⟨hload, rfl⟩ := run_lift_eq_ok_iff.mp h₄
      obtain ⟨words, rfl, hwords, rfl⟩ := run_code_eq_ok_iff.mp hcode
      obtain ⟨hlt, rfl⟩ := run_nat_eq_ok_iff.mp hindex
      obtain ⟨hlt₁, rfl⟩ := run_nat_eq_ok_iff.mp harity
      obtain ⟨hlt₂, rfl⟩ := run_nat_eq_ok_iff.mp hlocals
      obtain ⟨hlt₃, rfl⟩ := run_nat_eq_ok_iff.mp hcount
      -- The numbers were read from as many bytes as the fields of a record have.
      refine ⟨⟨UInt32.ofNat index, UInt16.ofNat arity, UInt16.ofNat localCount, words, hlt₃⟩,
        ⟨name, code, ?_, hwords, mapError_eq_ok_iff.mp hload⟩, ?_⟩
      · rw [UInt32.toNat_ofNat_of_lt' hlt, hname]
      · simp only [MethodRecord.bytes, UInt32.toNat_ofNat_of_lt' hlt, UInt16.toNat_ofNat_of_lt' hlt₁,
          UInt16.toNat_ofNat_of_lt' hlt₂, List.append_assoc]
  · rintro ⟨r, ⟨name, code, hname, hwords, hload⟩, rfl⟩
    have hcode : Reads (many (fun _ => instruction size names) 0 r.words.length) (r.words.flatMap Word.bytes) code :=
      fun rest => run_code_eq_ok_iff.mpr ⟨r.words, rfl, hwords, rfl⟩
    exact reads_method_parts r.name.toNat_lt hname r.length_words hcode hload rest

theorem run_names_eq_ok_iff {count : Nat} {names : List String} :
    (many (name size) 0 count).run bytes = .ok (names, rest) ↔
      names.length = count ∧ (∀ s ∈ names, s.utf8ByteSize < 2 ^ 32) ∧ bytes = names.flatMap nameBytes ++ rest := by
  have hname : ∀ k bytes s rest, (name size k).run bytes = .ok (s, rest) ↔
      ∃ x : String, (x.utf8ByteSize < 2 ^ 32 ∧ x = s) ∧ bytes = nameBytes x ++ rest := by
    intro k bytes s rest
    rw [run_name_eq_ok_iff]
    constructor
    · rintro ⟨hlt, rfl⟩
      exact ⟨s, ⟨hlt, rfl⟩, rfl⟩
    · rintro ⟨x, ⟨hlt, rfl⟩, rfl⟩
      exact ⟨hlt, rfl⟩
  rw [run_many_eq_ok_iff hname]
  constructor
  · rintro ⟨xs, hlen, hxs, hbytes⟩
    obtain ⟨hfit, heq⟩ := (List.forall₂_and_left _ _).mp hxs
    rw [List.forall₂_eq_eq_eq] at heq
    subst heq
    exact ⟨hlen, hfit, hbytes⟩
  · rintro ⟨hlen, hfit, hbytes⟩
    exact ⟨names, hlen, (List.forall₂_and_left _ _).mpr ⟨hfit, by rw [List.forall₂_eq_eq_eq]⟩, hbytes⟩

theorem run_methods_eq_ok_iff {ms : List Method} :
    (methods size).run bytes = .ok (ms, rest) ↔ ∃ l : Layout, l.StandsFor ms ∧ bytes = l.bytes ++ rest := by
  have hrecords : ∀ names count bytes rest ms,
      (many (fun _ => method size names) 0 count).run bytes = .ok (ms, rest) ↔
        ∃ rs, rs.length = count ∧ List.Forall₂ (MethodRecord.StandsFor names) rs ms ∧
          bytes = rs.flatMap MethodRecord.bytes ++ rest :=
    fun _ _ _ _ _ => run_many_eq_ok_iff fun _ _ _ _ => run_method_eq_ok_iff
  constructor
  · intro h
    obtain ⟨start, mid₁, hstart, h₁⟩ := run_bind_eq_ok_iff.mp h
    by_cases hmagic : start = magic
    · simp only [hmagic, ne_eq, not_true_eq_false, if_false] at h₁
      obtain ⟨v, mid₂, hv, h₂⟩ := run_bind_eq_ok_iff.mp h₁
      by_cases hversion : v = [version]
      · simp only [hversion, not_true_eq_false, if_false] at h₂
        obtain ⟨count, mid₃, hcount, h₃⟩ := run_bind_eq_ok_iff.mp h₂
        obtain ⟨names, mid₄, hnames, h₄⟩ := run_bind_eq_ok_iff.mp h₃
        obtain ⟨count', mid₅, hcount', h₅⟩ := run_bind_eq_ok_iff.mp h₄
        -- The bytes are put together from the back, as each part names those that follow it.
        obtain ⟨rs, rfl, hrs, rfl⟩ := (hrecords ..).mp h₅
        obtain ⟨hlt', rfl⟩ := run_nat_eq_ok_iff.mp hcount'
        obtain ⟨rfl, hfit, rfl⟩ := run_names_eq_ok_iff.mp hnames
        obtain ⟨hlt, rfl⟩ := run_nat_eq_ok_iff.mp hcount
        obtain ⟨-, rfl⟩ := run_take_eq_ok_iff.mp hv
        obtain ⟨-, rfl⟩ := run_take_eq_ok_iff.mp hstart
        refine ⟨⟨names, rs, hlt, hfit, hlt'⟩, hrs, ?_⟩
        simp only [hmagic, hversion, Layout.bytes, List.append_assoc]
      · simp only [hversion, not_false_eq_true, if_true] at h₂
        cases h₂
    · simp only [hmagic, ne_eq, not_false_eq_true, if_true] at h₁
      cases h₁
  · rintro ⟨l, hl, rfl⟩
    have hnames : Reads (many (name size) 0 l.names.length) (l.names.flatMap nameBytes) l.names :=
      fun rest => run_names_eq_ok_iff.mpr ⟨rfl, l.size_name, rfl⟩
    have hmethods : Reads (many (fun _ => method size l.names) 0 l.records.length)
        (l.records.flatMap MethodRecord.bytes) ms :=
      fun rest => (hrecords ..).mpr ⟨l.records, rfl, hl, rfl⟩
    exact reads_methods_parts l.length_names hnames l.length_records hmethods rest

end

end Module

namespace Program

theorem decode_eq_ok_iff {bytes : List UInt8} {p : Program} :
    decode bytes = .ok p ↔ ∃ l : Module.Layout, l.StandsFor p.methods.toList ∧ bytes = l.bytes := by
  unfold decode
  rw [bind_eq_ok_iff]
  constructor
  · rintro ⟨⟨ms, rest⟩, hread, h⟩
    by_cases hrest : rest = []
    · simp only [hrest, ne_eq, not_true_eq_false, if_false] at h
      obtain ⟨l, hl, rfl⟩ := Module.run_methods_eq_ok_iff.mp hread
      have hp := load_eq_ok_iff.mp (mapError_eq_ok_iff.mp h)
      refine ⟨l, by rwa [hp], by rw [hrest, List.append_nil]⟩
    · simp only [hrest, ne_eq, not_false_eq_true, if_true] at h
      cases h
  · rintro ⟨l, hl, rfl⟩
    refine ⟨(p.methods.toList, []), Module.run_methods_eq_ok_iff.mpr ⟨l, hl, by rw [List.append_nil]⟩, ?_⟩
    exact mapError_eq_ok_iff.mpr (load_eq_ok_iff.mpr rfl)

/-- Exactly the modules of the format are read: the bytes of a layout, and nothing after them, whose records stand for
methods of distinct names. The program has these methods, in their order. Of the names in the table only those count
that the records refer to, so a table with any other names at its end gives the same program. -/
theorem decode_eq_ok_iff_layout (bytes : List UInt8) :
    (∀ p, decode bytes = .ok p ↔ ∃ l : Module.Layout, bytes = l.bytes ∧ l.StandsFor p.methods.toList ∧
      (p.methods.toList.map (·.name)).Nodup) ∧
    ((∃ p, decode bytes = .ok p) ↔ ∃ (l : Module.Layout) (ms : List Method), bytes = l.bytes ∧ l.StandsFor ms ∧
      (ms.map (·.name)).Nodup) ∧
    ∀ (p : Program) (l l' : Module.Layout), l.StandsFor p.methods.toList → l'.records = l.records →
      l.names <+: l'.names → decode l'.bytes = .ok p := by
  refine ⟨fun p => ?_, ?_, ?_⟩
  · rw [decode_eq_ok_iff]
    constructor
    · rintro ⟨l, hl, hbytes⟩
      exact ⟨l, hbytes, hl, p.nodup_names⟩
    · rintro ⟨l, hbytes, hl, -⟩
      exact ⟨l, hl, hbytes⟩
  · constructor
    · rintro ⟨p, hp⟩
      obtain ⟨l, hl, hbytes⟩ := decode_eq_ok_iff.mp hp
      exact ⟨l, p.methods.toList, hbytes, hl, p.nodup_names⟩
    · rintro ⟨l, ms, hbytes, hl, hnodup⟩
      exact ⟨⟨ms.toArray, duplicate?_eq_none_iff.mpr hnodup⟩, decode_eq_ok_iff.mpr ⟨l, hl, hbytes⟩⟩
  · rintro p l l' hl hrecords ⟨extra, hnames⟩
    refine decode_eq_ok_iff.mpr ⟨l', ?_, rfl⟩
    unfold Module.Layout.StandsFor
    rw [hrecords, ← hnames]
    exact hl.imp fun _ _ hr => hr.append extra

/-- A table with one name twice and one that cannot be written down, and a return with unused fields that are set. -/
example : decode ([0x54, 0x56, 0x4D, 0x42, 1, 3, 0, 0, 0, 1, 0, 0, 0, 0x66, 1, 0, 0, 0, 0x66, 2, 0, 0, 0, 0x31, 0x3B] ++
    [1, 0, 0, 0, 1, 0, 0, 0, 0, 0, 1, 0, 2, 0, 0, 0, 2, 0, 0, 0, 0, 0, 0, 0, 0x51, 0, 9, 9, 9, 9, 9, 9]) =
    .ok ⟨#[⟨"f", 0, 1, #[.loadLocal 0, .ret], by decide +kernel⟩], by decide +kernel⟩ := by
  decide +kernel

end Program

end StackMachine
