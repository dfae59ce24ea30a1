import StackMachine.Assembly.Error

/-! Tokens: the words of a line of assembly text, up to its comment. -/

namespace StackMachine

/-- What a word of a line is. -/
inductive Token where
  /-- A mnemonic, a method name or a use of a label. -/
  | ident (text : String)
  /-- A number, whatever its spelling. -/
  | number (value : Int)
  /-- A word after a dot, in small letters. -/
  | directive (name : String)
  /-- The definition of a label. -/
  | label (name : String)
deriving DecidableEq

namespace Token

/-- A token as error messages show it. -/
def text : Token → String
  | ident text => text
  | number value => toString value
  | directive name => "." ++ name
  | label name => name ++ ":"

/-- The number that digits denote: hexadecimal after `0x` or `0X`, decimal otherwise. -/
def magnitude? : List Char → Option Nat
  | '0' :: 'x' :: digits => Numeral.ofDigits? 16 digits
  | '0' :: 'X' :: digits => Numeral.ofDigits? 16 digits
  | digits => Numeral.ofDigits? 10 digits

/-- The value of a numeral, which has at most one minus sign and a magnitude below `2 ^ 63`. -/
def literal? : List Char → Option Int
  | '-' :: digits => ((magnitude? digits).filter (· < 0x8000000000000000)).map fun n => -(n : Int)
  | digits => ((magnitude? digits).filter (· < 0x8000000000000000)).map fun n => (n : Int)

/-- The token that a word is. -/
def ofWord (word : List Char) : Except LineError Token :=
  -- A word that starts like a numeral is a number or an error, never a name.
  if Numeral.startsNumeral word then
    match literal? word with
    | some value => .ok (number value)
    | none => .error (.invalidNumber (String.ofList word))
  else if word.head? = some '.' then
    .ok (directive (String.ofList (word.tail.map Char.toLower)))
  else match labelOf? word with
    | some name => .ok (label (String.ofList name))
    | none => .ok (ident (String.ofList word))

/-- The tokens of a line. A semicolon starts a comment. -/
def ofLine (line : List Char) : Except LineError (List Token) :=
  (Text.words (line.takeWhile (· != ';'))).mapM ofWord

end Token

end StackMachine
