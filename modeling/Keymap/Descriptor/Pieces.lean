-- A descriptor is a text like Ctrl+Alt+x: pieces with a plus between them.
-- The case of ASCII letters plays no part in a name.
import Keymap.Key

namespace Keymap.Descriptor

/-! ## Pieces -/

/-- The pieces of a text. -/
def pieces (text : List Char) : List (List Char) := text.splitOn '+'

/-- The two texts differ at most in the case of ASCII letters. -/
def sameName (a b : List Char) : Bool := a.map Char.toLower == b.map Char.toLower

/-! ## Modifiers -/

/-- The modifiers, in the order in which they are written. -/
def modifierOrder : List Modifier := [.ctrl, .alt, .metaKey, .shift]

/-- The name of a modifier. -/
def modifierName : Modifier → String
  | .ctrl => "Ctrl"
  | .alt => "Alt"
  | .metaKey => "Meta"
  | .shift => "Shift"

/-- The modifier with this name. -/
def readModifier (piece : List Char) : Option Modifier :=
  modifierOrder.find? fun m => sameName piece (modifierName m).toList

/-- Each modifier that is held down, with a plus after it. -/
def writeModifiers (mods : Modifiers) : List Char :=
  (modifierOrder.filter mods.has).flatMap fun m => (modifierName m).toList ++ ['+']

end Keymap.Descriptor
