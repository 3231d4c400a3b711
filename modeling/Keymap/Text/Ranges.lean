-- Classes of characters that are given by ranges of code points.

namespace Keymap.Text

/-- The lowest and the highest code point of each range. -/
abbrev Ranges := List (Nat × Nat)

/-- One of the ranges holds `c`. -/
def Ranges.contains (ranges : Ranges) (c : Char) : Bool :=
  ranges.any fun (low, high) => low ≤ c.toNat && c.toNat ≤ high

end Keymap.Text
