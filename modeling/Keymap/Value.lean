-- What is kept of an event that was matched.
import Keymap.Input

namespace Keymap

/-- The part of the input that a capture keeps. -/
inductive Value where
  /-- Nothing. -/
  | empty
  /-- A typed character. -/
  | char (c : Char)
  /-- A pasted text, or the joined text of several events. -/
  | text (s : String)
  /-- A key that types nothing. -/
  | key (press : KeyPress)
  | mouse (button : MouseButton) (column row : Nat)
  | size (width height : Nat)
deriving DecidableEq

/-- The text of a value. Only typed characters and pasted text have one. -/
def Value.toText : Value → String
  | .char c => c.toString
  | .text s => s
  | _ => ""

/-- The texts of the values, one after the other. -/
def Value.joinTexts (values : List Value) : String := String.join (values.map Value.toText)

end Keymap
