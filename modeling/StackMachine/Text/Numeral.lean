/-! Numerals: digits in a base, signed and unsigned decimal numerals, and the ranges that integers fit. -/

namespace StackMachine.Numeral

/-- The value of a digit in a base up to sixteen; letters count in both cases. -/
def digit? (base : Nat) (c : Char) : Option Nat :=
  let value :=
    if '0' ≤ c ∧ c ≤ '9' then some (c.toNat - '0'.toNat)
    else if 'a' ≤ c ∧ c ≤ 'f' then some (c.toNat - 'a'.toNat + 10)
    else if 'A' ≤ c ∧ c ≤ 'F' then some (c.toNat - 'A'.toNat + 10)
    else none
  value.filter (· < base)

/-- The number that a run of digits denotes, most significant digit first; an empty run denotes none. -/
def ofDigits? (base : Nat) (cs : List Char) : Option Nat :=
  if cs.isEmpty then none
  else cs.foldlM (fun n c => (digit? base c).map (base * n + ·)) 0

/-- Reads a decimal numeral with at most one plus sign in front. -/
def unsigned? : List Char → Option Nat
  | '+' :: digits => ofDigits? 10 digits
  | digits => ofDigits? 10 digits

/-- Reads a decimal numeral with at most one sign in front. -/
def signed? : List Char → Option Int
  | '+' :: digits => (ofDigits? 10 digits).map fun n => (n : Int)
  | '-' :: digits => (ofDigits? 10 digits).map fun n => -(n : Int)
  | digits => (ofDigits? 10 digits).map fun n => (n : Int)

/-- Whether a word starts like a numeral: with a digit, or with a minus sign and then a digit. -/
def startsNumeral : List Char → Bool
  | '-' :: c :: _ => c.isDigit
  | c :: _ => c.isDigit
  | [] => false

/-- The integer as a 32-bit signed value, if it is in range. -/
def toInt32? (n : Int) : Option Int32 :=
  if -0x80000000 ≤ n ∧ n < 0x80000000 then some (Int32.ofInt n) else none

/-- The integer as a 16-bit unsigned value, if it is in range. -/
def toUInt16? (n : Int) : Option UInt16 :=
  if 0 ≤ n ∧ n < 0x10000 then some (UInt16.ofNat n.toNat) else none

/-- The integer as a 32-bit unsigned value, if it is in range. -/
def toUInt32? (n : Int) : Option UInt32 :=
  if 0 ≤ n ∧ n < 0x100000000 then some (UInt32.ofNat n.toNat) else none

/-- Reads a signed decimal numeral within 32 bits. -/
def int32? (text : String) : Option Int32 :=
  (signed? text.toList).bind toInt32?

/-- Reads an unsigned decimal numeral within 64 bits. -/
def nat64? (text : String) : Option Nat :=
  (unsigned? text.toList).filter (· < 0x10000000000000000)

/-- A byte as two hexadecimal digits. -/
def hexByte (b : UInt8) : String :=
  String.ofList [Nat.digitChar (b.toNat / 16), Nat.digitChar (b.toNat % 16)]

end StackMachine.Numeral
