-- The events that a program reads, one at a time, from its user.
import Keymap.Key

namespace Keymap

/-- One event of the input. -/
inductive Input where
  | key (press : KeyPress)
  | mouse (action : MouseAction)
  /-- A text that was pasted in one piece. -/
  | paste (text : String)
  /-- The screen has a new size. -/
  | resize (width height : Nat)
deriving DecidableEq

/-- A character typed with nothing held down. -/
def Input.typed (c : Char) : Input := .key (.typed c)

end Keymap
