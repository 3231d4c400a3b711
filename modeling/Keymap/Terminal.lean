-- The input that the events of a terminal stand for, and why some stand for
-- none.
import Keymap.Input
import Keymap.Terminal.Wording

namespace Keymap.Terminal

variable {Media Modifier : Type}

/-! ## Events that are no input -/

/-- Why an event stands for no input. -/
inductive Unsupported (Media : Type := MediaKey) (Modifier : Type := ModifierKey) where
  /-- The key is let go. -/
  | release (code : Code Media Modifier) (held : Held)
  /-- The input has no such key. -/
  | key (code : Code Media Modifier)
  | focusGained
  | focusLost
deriving DecidableEq

/-- The terminal's words for an event that is no input. -/
def Unsupported.words [Wording Media Modifier] : Unsupported Media Modifier → String
  | .release code held => Wording.release code held
  | .key code => Wording.key code
  | .focusGained => Wording.focusGained Media Modifier
  | .focusLost => Wording.focusLost Media Modifier

/-- The message for an event that is no input. -/
def Unsupported.message [Wording Media Modifier] (u : Unsupported Media Modifier) : String :=
  "unsupported terminal event: " ++ u.words

/-! ## Input -/

/-- The modifiers of the input. The super key counts as Meta. -/
def Held.modifiers (h : Held) : Modifiers where
  shift := h.shift
  ctrl := h.control
  alt := h.alt
  metaKey := h.metaKey || h.super

/-- The key of the input. -/
def Code.keyCode? : Code Media Modifier → Option KeyCode
  | .char c => some (.char c)
  | .function n => some (.function n)
  | .enter => some (.named .enter)
  | .backspace => some (.named .backspace)
  | .tab => some (.named .tab)
  | .backTab => some (.named .backtab)
  | .escape => some (.named .escape)
  | .delete => some (.named .delete)
  | .insert => some (.named .insert)
  | .up => some (.named .up)
  | .down => some (.named .down)
  | .left => some (.named .left)
  | .right => some (.named .right)
  | .home => some (.named .home)
  | .endKey => some (.named .endKey)
  | .pageUp => some (.named .pageUp)
  | .pageDown => some (.named .pageDown)
  | .keypadBegin => some (.named .center)
  | .pause => some (.named .pause)
  | .printScreen => some (.named .print)
  | .null => none
  | .capsLock => none
  | .scrollLock => none
  | .numLock => none
  | .menu => none
  | .media _ => none
  | .modifier _ => none

/-- Shift is part of the key itself: a character comes in upper case, and
Backtab is Shift and Tab. -/
def impliesShift : KeyCode → Bool
  | .char _ => true
  | .named .backtab => true
  | _ => false

/-- The key press that a key of a terminal stands for. -/
def keyPress (code : Code Media Modifier) (held : Held) (phase : Phase) :
    Except (Unsupported Media Modifier) KeyPress :=
  if phase = .release then .error (.release code held)
  else
    match code.keyCode? with
    | none => .error (.key code)
    | some k =>
      .ok ⟨k, if impliesShift k then held.modifiers.drop .shift else held.modifiers⟩

/-- The button of the input. -/
def Button.mouseButton : Button → MouseButton
  | .left => .left
  | .right => .right
  | .middle => .middle

/-- The button that is held in a motion. -/
def Motion.mouseButton : Motion → MouseButton
  | .down b => b.mouseButton
  | .drag b => b.mouseButton
  | .up _ => .noButton
  | .moved => .noButton
  | .scrollUp => .wheelUp
  | .scrollDown => .wheelDown
  | .scrollLeft => .wheelLeft
  | .scrollRight => .wheelRight

/-- The input that an event of a terminal stands for. -/
def Event.toInput : Event Media Modifier → Except (Unsupported Media Modifier) Input
  | .key code held phase => (keyPress code held phase).map .key
  | .mouse motion held column row =>
    .ok (.mouse ⟨motion.mouseButton, held.modifiers, column, row⟩)
  | .paste text => .ok (.paste text)
  | .resize width height => .ok (.resize width height)
  | .focusGained => .error .focusGained
  | .focusLost => .error .focusLost

end Keymap.Terminal
