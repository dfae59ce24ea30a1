import Mathlib.Algebra.Group.Nat.Defs
import StackMachine.Module.Decode
import StackMachine.Proofs.Reading

/-! Reading back the parts of a module: numbers of a fixed width, names, and as many parts as a count says. -/

namespace StackMachine

/-! ### Bytes -/

namespace Bytes

@[simp] theorem length_ofNat (width n : Nat) : (ofNat width n).length = width := by
  induction width generalizing n with
  | zero => rfl
  | succ width ih => simp [ofNat, ih]

theorem toNat_ofNat (width n : Nat) : toNat (ofNat width n) = n % 256 ^ width := by
  induction width generalizing n with
  | zero => simp [ofNat, toNat, Nat.mod_one]
  | succ width ih =>
    have hrec : toNat (ofNat (width + 1) n) = (UInt8.ofNat n).toNat + 256 * toNat (ofNat width (n / 256)) := rfl
    have hpow : 256 ^ (width + 1) = 256 * 256 ^ width := Nat.pow_succ'
    rw [hrec, ih, UInt8.toNat_ofNat', hpow, Nat.mod_mul]

theorem toNat_ofNat_of_lt {width n : Nat} (h : n < 256 ^ width) : toNat (ofNat width n) = n := by
  rw [toNat_ofNat, Nat.mod_eq_of_lt h]

@[simp] theorem length_ofString (s : String) : (ofString s).length = s.utf8ByteSize := by
  simp [ofString]

theorem toString?_ofString (s : String) : toString? (ofString s) = some s := by
  have h : s.toByteArray.IsValidUTF8 := s.isValidUTF8
  simp only [toString?, ofString, String.toUTF8_eq_toByteArray, Array.toArray_toList, String.fromUTF8?]
  rw [dif_pos h]
  rfl

end Bytes

namespace Module

section
variable {size : Nat}

theorem reads_take {n : Nat} {bytes : List UInt8} (h : bytes.length = n) : Reads (take size n) bytes bytes := by
  intro rest
  subst h
  simp [take, StateT.run]

theorem reads_nat {width n : Nat} (h : n < 256 ^ width) : Reads (nat size width) (Bytes.ofNat width n) n := by
  have hread : Reads (nat size width) _ _ := (reads_take (Bytes.length_ofNat width n)).map Bytes.toNat
  rwa [Bytes.toNat_ofNat_of_lt h] at hread

/-- As many parts as are counted are read one after the other. -/
theorem reads_many {α : Type} {part : Nat → Reader α} {write : α → List UInt8} {l : List α}
    (h : ∀ a ∈ l, ∀ k, Reads (part k) (write a) a) (start : Nat) :
    Reads (many part start l.length) (l.flatMap write) l := by
  induction l generalizing start with
  | nil => exact Reads.pure []
  | cons a l ih =>
    have hfirst := h a List.mem_cons_self start
    have hrest := ih (fun b hb => h b (List.mem_cons_of_mem _ hb)) (start + 1)
    exact hfirst.bind (hrest.map (a :: ·))

theorem reads_name {s : String} (h : s.utf8ByteSize < 256 ^ 4) (index : Nat) :
    Reads (name size index) (nameBytes s) s := by
  have hlength : (Bytes.ofString s).length < 256 ^ 4 := by rwa [Bytes.length_ofString]
  refine (reads_nat hlength).bind ((reads_take rfl).bind_nil ?_)
  simp only [Bytes.toString?_ofString]
  exact Reads.pure s

/-- A method is read from its name's position, its counts and its code, if these pass the load checks. -/
theorem reads_method_parts {names : List String} {index count : Nat} {name : String} {arity localCount : UInt16}
    {bytes : List UInt8} {code : List Instruction} {m : Method} (hindex : index < 256 ^ 4)
    (hname : names[index]? = some name) (hcount : count < 256 ^ 4)
    (hcode : Reads (many (fun _ => instruction size names) 0 count) bytes code)
    (hload : Method.load name arity localCount code.toArray = .ok m) :
    Reads (method size names) (Bytes.ofNat 4 index ++ Bytes.ofNat 2 arity.toNat ++ Bytes.ofNat 2 localCount.toNat ++
      Bytes.ofNat 4 count ++ bytes) m := by
  simp only [List.append_assoc]
  refine (reads_nat hindex).bind ?_
  simp only [hname]
  refine (reads_nat arity.toNat_lt).bind ((reads_nat localCount.toNat_lt).bind ((reads_nat hcount).bind ?_))
  refine hcode.bind_nil (Reads.ofOk ?_)
  rw [UInt16.ofNat_toNat, UInt16.ofNat_toNat]
  exact mapError_eq_ok_iff.mpr hload

/-- The methods are read from the counted names and the counted methods after them. -/
theorem reads_methods_parts {count count' : Nat} {bytes bytes' : List UInt8} {names : List String} {ms : List Method}
    (hcount : count < 256 ^ 4) (hnames : Reads (many (name size) 0 count) bytes names) (hcount' : count' < 256 ^ 4)
    (hmethods : Reads (many (fun _ => method size names) 0 count') bytes' ms) :
    Reads (methods size) (magic ++ [version] ++ Bytes.ofNat 4 count ++ bytes ++ Bytes.ofNat 4 count' ++ bytes') ms := by
  simp only [List.append_assoc]
  refine (reads_take rfl).bind ?_
  simp only [ne_eq, not_true_eq_false, if_false]
  refine (show Reads _ [version] _ from reads_take rfl).bind ?_
  simp only [not_true_eq_false, if_false]
  exact (reads_nat hcount).bind (hnames.bind ((reads_nat hcount').bind hmethods))

end

end Module

end StackMachine
