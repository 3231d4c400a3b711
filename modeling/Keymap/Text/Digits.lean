-- Numbers that are written with ASCII digits.

namespace Keymap.Text

/-- The value of a digit. -/
def digitValue (c : Char) : Nat := c.toNat - '0'.toNat

/-- The number that is written with these digits. -/
def readDigits (digits : List Char) : Nat :=
  digits.foldl (fun n c => n * 10 + digitValue c) 0

/-- Digits alone, and at least one. A zero comes first only on its own. -/
def isNumeral : List Char → Bool
  | [] => false
  | [c] => c.isDigit
  | c :: cs => c ≠ '0' && (c :: cs).all Char.isDigit

end Keymap.Text
