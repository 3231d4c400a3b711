-- Matchers for one event. A matcher accepts an event or refuses it, and says
-- what is worth keeping of an event that it accepts.
import Keymap.Descriptor.Key
import Keymap.Descriptor.Mouse
import Keymap.CharSet
import Keymap.Value

namespace Keymap

/-! ## Typed characters -/

/-- The character that a key types: nothing but Shift is held. -/
def KeyPress.typedChar? (k : KeyPress) : Option Char :=
  match k.code with
  | .char c => if k.mods.drop .shift = .empty then some c else none
  | _ => none

/-- The character that a key stands for when Ctrl is not held. -/
def KeyPress.plainChar? (k : KeyPress) : Option Char :=
  match k.code with
  | .char c => if k.mods.ctrl then none else some c
  | _ => none

/-- What is kept of a key: the character that it types, or the key itself. -/
def KeyPress.value (k : KeyPress) : Value :=
  match k.typedChar? with
  | some c => .char c
  | none => .key k

/-! ## Matchers -/

/-- A matcher for one event. -/
inductive Matcher where
  /-- This key with these modifiers. -/
  | key (press : KeyPress) (codec : Codec)
  /-- This mouse button with these modifiers, anywhere. -/
  | mouse (button : MouseButton) (mods : Modifiers)
  /-- A character key from `low` to `high`, without Ctrl. -/
  | range (low high : Char)
  /-- A character key of the set, without Ctrl. -/
  | oneOf (set : CharSet)
  /-- Any paste. -/
  | paste
  /-- Any resize. -/
  | resize
deriving DecidableEq

namespace Matcher

/-- The greatest character. -/
def lastChar : Char := Char.ofNat 0x10ffff

/-- Any character key without Ctrl. -/
def any : Matcher := .range '\x00' lastChar

/-- Where Ctrl+J counts as Enter, it is accepted for Enter with the same
modifiers besides Ctrl, or with Ctrl. -/
def isUnifiedEnter (press : KeyPress) (codec : Codec) (k : KeyPress) : Bool :=
  codec.unifyEnter && press.code = .named .enter && k.code = .char 'j'
    && k.mods = press.mods.add .ctrl

/-- What is kept of an event, if the matcher accepts it. -/
def accept? : Matcher → Input → Option Value
  | .key press codec, .key k =>
    if k = press || isUnifiedEnter press codec k then some k.value else none
  | .mouse button mods, .mouse a =>
    if a.button = button && a.mods = mods then some (.mouse a.button a.column a.row) else none
  | .range low high, .key k =>
    (k.plainChar?.filter fun c => low ≤ c && c ≤ high).map .char
  | .oneOf set, .key k => (k.plainChar?.filter set.contains).map .char
  | .paste, .paste text => some (.text text)
  | .resize, .resize width height => some (.size width height)
  | _, _ => none

/-! ## Matchers as text -/

/-- The names of the matchers that are no key and no mouse button. -/
def named? (text : String) : Option Matcher :=
  if Descriptor.sameName text.toList "paste".toList then some .paste
  else if Descriptor.sameName text.toList "resize".toList then some .resize
  else if Descriptor.sameName text.toList "any".toList then some .any
  else none

/-- Reads a matcher: a name of its own, a mouse button or a key. -/
def parse (codec : Codec) (text : String) : Except Error Matcher :=
  match named? text with
  | some m => .ok m
  | none =>
    match MouseButton.parse text with
    | .ok (mods, button) => .ok (.mouse button mods)
    | .error _ => (KeyPress.parse codec text).map (.key · codec)

/-- The canonical text of a matcher. -/
def toText : Matcher → String
  | .key press codec =>
    match press.format codec with
    | .ok text => text
    | .error e => e.message
  | .mouse button mods => button.format mods
  | .range low high =>
    if low = '\x00' && high = lastChar then "Any"
    else "Any [" ++ String.ofList (CharSet.showChar low) ++ "-"
      ++ String.ofList (CharSet.showChar high) ++ "]"
  | .oneOf set => "Any " ++ set.toText
  | .paste => "Paste"
  | .resize => "Resize"

end Matcher

end Keymap
