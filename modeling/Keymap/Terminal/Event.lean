-- The events of a terminal. A terminal tells more than a program needs: keys
-- that are let go, lock keys, its focus. Which media keys it has, and which
-- modifiers it reports as keys of their own, is up to the terminal.

namespace Keymap.Terminal

/-- What is held down, as a terminal tells it. -/
structure Held where
  shift : Bool := false
  control : Bool := false
  alt : Bool := false
  super : Bool := false
  hyper : Bool := false
  metaKey : Bool := false
deriving DecidableEq

/-- The media keys of a terminal, if no others are named. -/
inductive MediaKey where
  | play
deriving DecidableEq

/-- The modifiers that a terminal reports as keys, if no others are named. -/
inductive ModifierKey where
  | leftShift
deriving DecidableEq

/-- A key of a terminal. -/
inductive Code (Media : Type := MediaKey) (Modifier : Type := ModifierKey) where
  | char (c : Char)
  | function (n : Nat)
  | backspace
  | enter
  | left
  | right
  | up
  | down
  | home
  | endKey
  | pageUp
  | pageDown
  | tab
  | backTab
  | delete
  | insert
  | null
  | escape
  | capsLock
  | scrollLock
  | numLock
  | printScreen
  | pause
  | menu
  | keypadBegin
  | media (key : Media)
  | modifier (key : Modifier)
deriving DecidableEq

@[match_pattern] abbrev Code.mediaPlay : Code := .media .play

@[match_pattern] abbrev Code.leftShift : Code := .modifier .leftShift

/-- What happens to a key. -/
inductive Phase where
  | press
  | again
  | release
deriving DecidableEq

/-- A button of a terminal's mouse. -/
inductive Button where
  | left
  | right
  | middle
deriving DecidableEq

/-- What the mouse does. -/
inductive Motion where
  | down (b : Button)
  | up (b : Button)
  | drag (b : Button)
  | moved
  | scrollUp
  | scrollDown
  | scrollLeft
  | scrollRight
deriving DecidableEq

/-- An event of a terminal. -/
inductive Event (Media : Type := MediaKey) (Modifier : Type := ModifierKey) where
  | key (code : Code Media Modifier) (held : Held) (phase : Phase)
  | mouse (motion : Motion) (held : Held) (column row : Nat)
  | paste (text : String)
  | resize (width height : Nat)
  | focusGained
  | focusLost
deriving DecidableEq

end Keymap.Terminal
