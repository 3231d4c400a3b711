-- The words of a terminal for its events. They are the terminal's own, so the
-- conversion of the events to input does not depend on them.
import Keymap.Terminal.Event
import Keymap.Text.Escape

namespace Keymap.Terminal

/-- The words of a terminal for what is no input. -/
class Wording (Media Modifier : Type) where
  key : Code Media Modifier → String
  /-- The key is let go. -/
  release : Code Media Modifier → Held → String
  focusGained : String
  focusLost : String

/-! ## The words if no others are given -/

/-- The name of a key. -/
def Code.name : Code → String
  | .char c => "Char('" ++ String.ofList (Text.escapeChar ['\''] c) ++ "')"
  | .function n => "F(" ++ toString n ++ ")"
  | .backspace => "Backspace"
  | .enter => "Enter"
  | .left => "Left"
  | .right => "Right"
  | .up => "Up"
  | .down => "Down"
  | .home => "Home"
  | .endKey => "End"
  | .pageUp => "PageUp"
  | .pageDown => "PageDown"
  | .tab => "Tab"
  | .backTab => "BackTab"
  | .delete => "Delete"
  | .insert => "Insert"
  | .null => "Null"
  | .escape => "Esc"
  | .capsLock => "CapsLock"
  | .scrollLock => "ScrollLock"
  | .numLock => "NumLock"
  | .printScreen => "PrintScreen"
  | .pause => "Pause"
  | .menu => "Menu"
  | .keypadBegin => "KeypadBegin"
  | .mediaPlay => "Media(Play)"
  | .leftShift => "Modifier(LeftShift)"

/-- The names of what is held down. -/
def Held.names (h : Held) : List String :=
  [(h.shift, "SHIFT"), (h.control, "CONTROL"), (h.alt, "ALT"), (h.super, "SUPER"),
    (h.hyper, "HYPER"), (h.metaKey, "META")].filterMap fun (held, name) =>
      if held then some name else none

/-- What is held down, with bars between the names. -/
def Held.text (h : Held) : String :=
  match h.names with
  | [] => "0x0"
  | names => String.intercalate " | " names

/-- A key that is let go, as text. -/
def releaseText (code : Code) (held : Held) : String :=
  "KeyEvent \x7b code: " ++ code.name ++ ", modifiers: KeyModifiers(" ++ held.text
    ++ "), kind: Release, state: KeyEventState(0x0) \x7d"

instance : Wording MediaKey ModifierKey where
  key := Code.name
  release := releaseText
  focusGained := "FocusGained"
  focusLost := "FocusLost"

end Keymap.Terminal
