-- Characters as they are shown inside brackets or quotes: one that has no
-- shape, or a meaning there, is escaped.
import Keymap.Text.Visible

namespace Keymap.Text

/-- The code point of `c` in hexadecimal, as an escape. -/
def escapeCode (c : Char) : List Char :=
  ['\\', 'u', '\x7b'] ++ Nat.toDigits 16 c.toNat ++ ['\x7d']

/-- `c` as it is shown where the characters of `quotes` have a meaning. -/
def escapeChar (quotes : List Char) (c : Char) : List Char :=
  if c = '\x00' then ['\\', '0']
  else if c = '\t' then ['\\', 't']
  else if c = '\r' then ['\\', 'r']
  else if c = '\n' then ['\\', 'n']
  else if c = '\\' || quotes.contains c then ['\\', c]
  else if isVisible c then [c]
  else escapeCode c

end Keymap.Text
