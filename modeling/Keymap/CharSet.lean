-- Sets of characters: ranges with both ends in them, or all that the ranges
-- leave out.
import Keymap.Text.Escape

namespace Keymap

/-- A set of characters. -/
structure CharSet where
  /-- The lowest and the highest character of each range. -/
  ranges : List (Char × Char) := []
  /-- The set holds what the ranges leave out. -/
  negated : Bool := false
deriving DecidableEq

namespace CharSet

/-- All characters from `low` to `high`. -/
def range (low high : Char) : CharSet := { ranges := [(low, high)] }

/-- The one character `c`. -/
def single (c : Char) : CharSet := range c c

/-- Adds the ranges of `t`. -/
def union (s t : CharSet) : CharSet := { s with ranges := s.ranges ++ t.ranges }

/-- What the set leaves out. -/
def complement (s : CharSet) : CharSet := { s with negated := !s.negated }

/-- One of the ranges holds `c`. -/
def covers (s : CharSet) (c : Char) : Bool :=
  s.ranges.any fun (low, high) => low ≤ c && c ≤ high

/-- Whether `c` is in the set. -/
def contains (s : CharSet) (c : Char) : Bool := s.covers c != s.negated

theorem contains_complement (s : CharSet) (c : Char) :
    s.complement.contains c = !s.contains c := by
  simp only [contains, complement, covers]
  cases s.negated <;> simp

theorem contains_union (s t : CharSet) (c : Char) (hs : s.negated = false)
    (ht : t.negated = false) : (s.union t).contains c = (s.contains c || t.contains c) := by
  simp [contains, union, covers, hs, ht, List.any_append]

/-! ## A set as text -/

/-- A character as it is shown in a set. -/
def showChar (c : Char) : List Char := Text.escapeChar ['\'', '"'] c

/-- A range, by its ends if they differ. -/
def showRange : Char × Char → List Char
  | (low, high) => if low = high then showChar low else showChar low ++ '-' :: showChar high

/-- The ranges in brackets, after a caret if they are left out. -/
def toText (s : CharSet) : String :=
  String.ofList
    ('[' :: ((if s.negated then ['^'] else []) ++ s.ranges.flatMap showRange ++ [']']))

end CharSet

end Keymap
