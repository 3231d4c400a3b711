-- Keys as text: PageDown, Ctrl+Alt+x, Alt++. A key has one canonical
-- descriptor, and may be read from others.
import Keymap.Descriptor.Pieces
import Keymap.Error
import Keymap.Settings
import Keymap.Text.Digits

namespace Keymap

/-! ## Ctrl and Enter -/

/-- With Ctrl, the case of a letter is not told apart. -/
def KeyPress.lowered (k : KeyPress) : KeyPress :=
  match k.code with
  | .char c => if k.mods.ctrl then { k with code := .char c.toLower } else k
  | _ => k

/-- Ctrl+J as Enter, where the two are one key. -/
def KeyPress.unified (codec : Codec) (k : KeyPress) : KeyPress :=
  if codec.unifyEnter && k.mods.ctrl && k.code = .char 'j' then
    ⟨.named .enter, k.mods.drop .ctrl⟩
  else k

/-- The one key press that stands for all those with the same descriptor. -/
def KeyPress.normal (codec : Codec) (k : KeyPress) : KeyPress := k.lowered.unified codec

namespace Descriptor

/-! ## Names of keys -/

/-- The keys that have names. -/
def namedKeys : List NamedKey :=
  [.enter, .backspace, .tab, .backtab, .escape, .delete, .insert, .up, .down, .left, .right,
    .upLeft, .upRight, .downLeft, .downRight, .center, .home, .endKey, .pageUp, .pageDown,
    .clear, .exit, .cancel, .pause, .print]

/-- The name under which a key is written. -/
def keyName : NamedKey → String
  | .enter => "Enter"
  | .backspace => "Backspace"
  | .tab => "Tab"
  | .backtab => "Backtab"
  | .escape => "Escape"
  | .delete => "Delete"
  | .insert => "Insert"
  | .up => "Up"
  | .down => "Down"
  | .left => "Left"
  | .right => "Right"
  | .upLeft => "UpLeft"
  | .upRight => "UpRight"
  | .downLeft => "DownLeft"
  | .downRight => "DownRight"
  | .center => "Center"
  | .home => "Home"
  | .endKey => "End"
  | .pageUp => "PageUp"
  | .pageDown => "PageDown"
  | .clear => "Clear"
  | .exit => "Exit"
  | .cancel => "Cancel"
  | .pause => "Pause"
  | .print => "Print"

/-- The names under which a key is read and never written. -/
def keyAliases : NamedKey → List String
  | .backspace => ["Backspace2"]
  | .escape => ["Esc"]
  | .pageUp => ["PgUp"]
  | .pageDown => ["PgDn"]
  | _ => []

/-- The key with this name. -/
def readNamedKey (piece : List Char) : Option NamedKey :=
  namedKeys.find? fun k => (keyName k :: keyAliases k).any fun name => sameName piece name.toList

/-- The function keys that have a descriptor. -/
def isFunctionNumber (n : Nat) : Bool := 1 ≤ n && n ≤ 64

/-- The number of a function key: F and a numeral. -/
def readFunctionKey : List Char → Option Nat
  | f :: digits =>
    if f.toLower = 'f' && Text.isNumeral digits && isFunctionNumber (Text.readDigits digits) then
      some (Text.readDigits digits)
    else none
  | [] => none

/-- The space key has a name too, and is still a character. -/
def isSpaceName (piece : List Char) : Bool :=
  sameName piece "Space".toList || sameName piece "Spacebar".toList

/-- The key of one piece. A name comes before a character. -/
def readCode (piece : List Char) : Option KeyCode :=
  if isSpaceName piece then some (.char ' ')
  else match readNamedKey piece with
    | some k => some (.named k)
    | none => match readFunctionKey piece with
      | some n => some (.function n)
      | none => match piece with
        | [c] => some (.char c)
        | _ => none

/-! ## Reading -/

/-- Gathers the modifiers of the pieces, and their one key. `code` is the key
if it has been found. -/
def gather : List (List Char) → Modifiers → Option KeyCode → Option KeyPress
  | [], mods, code => code.map (⟨·, mods⟩)
  | piece :: rest, mods, code =>
    match readModifier piece with
    | some m => gather rest (mods.add m) code
    | none =>
      match code with
      | some _ => none
      | none => (readCode piece).bind fun c => gather rest mods (some c)

/-- The head of a text that ends in two pluses. -/
def stripPlusKey (text : List Char) : Option (List Char) :=
  match text.reverse with
  | '+' :: '+' :: front => some front.reverse
  | _ => none

/-- The key as it stands in the text. A plus is the plus key only at the end,
where it is the whole text or has a plus before it. -/
def readPieces (text : List Char) : Option KeyPress :=
  if text = ['+'] then some (.typed '+')
  else match stripPlusKey text with
    | some head => gather (pieces head) .empty (some (.char '+'))
    | none => gather (pieces text) .empty none

end Descriptor

/-- Reads a descriptor. -/
def KeyPress.parse (codec : Codec) (text : String) : Except Error KeyPress :=
  match Descriptor.readPieces text.toList with
  | some k => .ok (k.normal codec)
  | none => .error (.invalidKey text)

/-! ## Writing -/

namespace Descriptor

/-- The last piece of a descriptor. With Ctrl, a letter is written in upper
case. -/
def writeCode (ctrl : Bool) : KeyCode → Except Error (List Char)
  | .char c => .ok (if c = ' ' then "Space".toList else [if ctrl then c.toUpper else c])
  | .named k => .ok (keyName k).toList
  | .function n =>
    if isFunctionNumber n then .ok ('F' :: Nat.toDigits 10 n)
    else .error (.invalidKey ("F" ++ toString n))

end Descriptor

/-- The canonical descriptor of a key. Only a function key may have none. -/
def KeyPress.format (codec : Codec) (k : KeyPress) : Except Error String :=
  let u := k.unified codec
  (Descriptor.writeCode u.mods.ctrl u.code).map fun last =>
    String.ofList (Descriptor.writeModifiers u.mods ++ last)

end Keymap
