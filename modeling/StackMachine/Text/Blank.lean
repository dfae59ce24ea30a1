/-! Blank characters, and the words they separate. -/

namespace StackMachine.Text

/-- The code points with the Unicode property `White_Space`, as inclusive ranges in ascending order. -/
def blankRanges : List (Nat × Nat) :=
  [(0x09, 0x0D), (0x20, 0x20), (0x85, 0x85), (0xA0, 0xA0), (0x1680, 0x1680), (0x2000, 0x200A), (0x2028, 0x2029),
    (0x202F, 0x202F), (0x205F, 0x205F), (0x3000, 0x3000)]

/-- Whether a character is white space. -/
def isBlank (c : Char) : Bool :=
  blankRanges.any fun (low, high) => low ≤ c.toNat && c.toNat ≤ high

/-- The maximal runs of characters that are not blank, in order. -/
def words (cs : List Char) : List (List Char) :=
  (cs.splitOnP isBlank).filter fun w => !w.isEmpty

/-- What is left after the blanks in front. -/
def skipBlanks (cs : List Char) : List Char :=
  cs.dropWhile isBlank

/-- A line without the carriage return that may stand at its end. -/
def stripReturn (line : List Char) : List Char :=
  if line.getLast? = some '\r' then line.dropLast else line

/-- The lines of a text: the pieces that a line feed ends, alone or behind a carriage return, and what follows
the last of them, unless that is empty. -/
def lines (cs : List Char) : List (List Char) :=
  let pieces := cs.splitOn '\n'
  let rest := pieces.getLast?.getD []
  pieces.dropLast.map stripReturn ++ if rest.isEmpty then [] else [rest]

/-- Lines with their numbers, counted from one. -/
def numberedLines (text : String) : List (List Char × Nat) :=
  (lines text.toList).zipIdx 1

end StackMachine.Text
