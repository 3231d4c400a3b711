-- What can be wrong with a descriptor, a grammar text or a grammar. Each error
-- is a cause; `Error.message` has the words.

namespace Keymap

/-- What a grammar text does wrong at one of its places. -/
inductive Problem where
  | expectedDefinition
  | expectedArrow (name : String)
  | expectedIdentifier
  | expectedPattern
  | expectedClosing (c : Char)
  | expectedTemplate
  | unexpected (c : Char)
  | unexpectedEnd
  | unterminatedLiteral
  | emptyLiteral
  | unterminatedClass
  | emptyClass
  | invalidRange (low high : Char)
  | unknownEscape (c : Char)
deriving DecidableEq

/-- The words for a problem. -/
def Problem.message : Problem → String
  | .expectedDefinition => "expected a definition"
  | .expectedArrow name => "expected '<-' after '" ++ name ++ "'"
  | .expectedIdentifier => "expected an identifier"
  | .expectedPattern => "expected a pattern"
  | .expectedClosing c => "expected '" ++ c.toString ++ "'"
  | .expectedTemplate => "expected a template after capture"
  | .unexpected c => "unexpected '" ++ c.toString ++ "'"
  | .unexpectedEnd => "unexpected end of input"
  | .unterminatedLiteral => "unterminated literal"
  | .emptyLiteral => "empty literal"
  | .unterminatedClass => "unterminated character class"
  | .emptyClass => "empty character class"
  | .invalidRange low high =>
    "invalid range '" ++ low.toString ++ "-" ++ high.toString ++ "'"
  | .unknownEscape c => "unknown escape '\\" ++ c.toString ++ "'"

/-- Why a text or a grammar is refused. -/
inductive Error where
  /-- The text names no key and no mouse button. -/
  | invalidKey (text : String)
  /-- A grammar text has a problem `position` bytes after its start. -/
  | malformed (position : Nat) (problem : Problem)
  | unknownRule (name : String)
  | duplicateRule (name : String)
deriving DecidableEq

/-- The words for an error. -/
def Error.message : Error → String
  | .invalidKey text => text ++ ": invalid key event"
  | .malformed position problem =>
    "syntax error at position " ++ toString position ++ ": " ++ problem.message
  | .unknownRule name => "compile error: unknown rule '" ++ name ++ "'"
  | .duplicateRule name =>
    "compile error: rule '" ++ name ++ "' is defined more than once"

end Keymap
