-- Mouse buttons as text: MouseLeft, Ctrl+MouseWheelUp. The button comes last.
import Keymap.Descriptor.Pieces
import Keymap.Error

namespace Keymap

namespace Descriptor

/-- The mouse buttons. -/
def mouseButtons : List MouseButton :=
  [.left, .right, .middle, .thumbNext, .thumbPrev, .button6, .button7, .button8,
    .wheelUp, .wheelDown, .wheelLeft, .wheelRight, .noButton]

/-- The name of a mouse button. -/
def buttonName : MouseButton → String
  | .left => "MouseLeft"
  | .right => "MouseRight"
  | .middle => "MouseMiddle"
  | .thumbNext => "MouseThumbNext"
  | .thumbPrev => "MouseThumbPrev"
  | .button6 => "MouseButton6"
  | .button7 => "MouseButton7"
  | .button8 => "MouseButton8"
  | .wheelUp => "MouseWheelUp"
  | .wheelDown => "MouseWheelDown"
  | .wheelLeft => "MouseWheelLeft"
  | .wheelRight => "MouseWheelRight"
  | .noButton => "MouseNone"

/-- The mouse button with this name. -/
def readButton (piece : List Char) : Option MouseButton :=
  mouseButtons.find? fun b => sameName piece (buttonName b).toList

/-- Gathers the modifiers of the pieces, up to the button at their end. -/
def gatherMouse : List (List Char) → Modifiers → Option (Modifiers × MouseButton)
  | [], _ => none
  | piece :: rest, mods =>
    match readModifier piece with
    | some m => gatherMouse rest (mods.add m)
    | none => if rest.isEmpty then (readButton piece).map (mods, ·) else none

/-- The button and its modifiers as they stand in the text. -/
def readMouse (text : List Char) : Option (Modifiers × MouseButton) :=
  gatherMouse (pieces text) .empty

end Descriptor

/-- Reads a mouse descriptor. -/
def MouseButton.parse (text : String) : Except Error (Modifiers × MouseButton) :=
  match Descriptor.readMouse text.toList with
  | some found => .ok found
  | none => .error (.invalidKey text)

/-- The canonical descriptor of a mouse button. -/
def MouseButton.format (mods : Modifiers) (button : MouseButton) : String :=
  String.ofList (Descriptor.writeModifiers mods ++ (Descriptor.buttonName button).toList)

end Keymap
