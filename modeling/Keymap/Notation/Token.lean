-- The tokens of a grammar text. Blanks and comments stand between tokens and
-- mean nothing, but for one thing: a name with only blanks between it and an
-- arrow is the head of a definition.
import Keymap.Notation.Literal
import Keymap.Text.Blank

namespace Keymap.Notation

/-- What a pair of brackets is for. -/
inductive Bracket where
  /-- Round brackets hold patterns together. -/
  | group
  /-- Braces capture, by the template that follows them. -/
  | capture
deriving DecidableEq

/-- The bracket that closes. -/
def Bracket.closing : Bracket → Char
  | .group => ')'
  | .capture => '\x7d'

/-- How often the pattern before a mark may match. -/
inductive Mark where
  | star
  | plus
  | opt
deriving DecidableEq

/-- A token. A literal or a class that is not well formed is a token too, and
the last one. -/
inductive Token where
  | opens (b : Bracket)
  | closes (b : Bracket)
  | mark (m : Mark)
  | slash
  /-- Any character. -/
  | dot
  | arrow
  | name (word : String) (headsDefinition : Bool)
  | quoted (content : Except Fault String)
  | oneOf (set : Except Fault CharSet)
  /-- A character that starts no token. -/
  | other (c : Char)

/-- A token, and the text from its first character on. -/
structure Lexeme where
  token : Token
  first : Char
  after : List Char

/-- The place where a token starts. -/
def Lexeme.place (t : Lexeme) : List Char := t.first :: t.after

/-! ## Blanks -/

/-- What follows the blanks and comments in front. A comment starts with a
hash and ends with its line. -/
def skipBlanks (inComment : Bool) : List Char → List Char
  | [] => []
  | c :: rest =>
    if inComment then skipBlanks (c ≠ '\n') rest
    else if Text.isBlank c then skipBlanks false rest
    else if c = '#' then skipBlanks true rest
    else c :: rest

theorem length_skipBlanks_le (inComment : Bool) (text : List Char) :
    (skipBlanks inComment text).length ≤ text.length := by
  fun_induction skipBlanks inComment text <;> simp_all <;> omega

/-! ## Names -/

/-- The first character of a name. -/
def isNameStart (c : Char) : Bool := c.isAlpha || c = '_'

/-- A character of a name. -/
def isNameChar (c : Char) : Bool := c.isAlphanum || c = '_'

/-- Whether an arrow follows, with nothing but blanks before it. -/
def arrowFollows (text : List Char) : Bool :=
  ['<', '-'].isPrefixOf (text.dropWhile Text.isBlank)

/-! ## Tokens -/

/-- A token that may not be well formed, and what follows it. Nothing follows
one that is not. -/
def tokenOf {α : Type} (token : Except Fault α → Token) :
    Except Fault (α × List Char) → Token × List Char
  | .ok (content, rest) => (token (.ok content), rest)
  | .error f => (token (.error f), [])

/-- Reads the token that starts with `c`. Gives it, and what follows. -/
def readToken (c : Char) (rest : List Char) : Token × List Char :=
  match c with
  | '(' => (.opens .group, rest)
  | '\x7b' => (.opens .capture, rest)
  | ')' => (.closes .group, rest)
  | '\x7d' => (.closes .capture, rest)
  | '*' => (.mark .star, rest)
  | '+' => (.mark .plus, rest)
  | '?' => (.mark .opt, rest)
  | '/' => (.slash, rest)
  | '.' => (.dot, rest)
  | '\'' => tokenOf .quoted (readQuoted '\'' rest)
  | '"' => tokenOf .quoted (readQuoted '"' rest)
  | '[' => tokenOf .oneOf (readClass rest)
  | _ =>
    if isNameStart c then
      let after := rest.dropWhile isNameChar
      (.name (String.ofList (c :: rest.takeWhile isNameChar)) (arrowFollows after), after)
    else
      match c, rest with
      | '<', '-' :: after => (.arrow, after)
      | _, _ => (.other c, rest)

theorem length_tokenOf_le {α : Type} {token : Except Fault α → Token} {n : Nat}
    {found : Except Fault (α × List Char)}
    (h : ∀ content rest, found = .ok (content, rest) → rest.length ≤ n) :
    (tokenOf token found).2.length ≤ n := by
  cases found with
  | error f => exact Nat.zero_le _
  | ok p => exact h p.1 p.2 rfl

/-- A token takes up its first character at least. -/
theorem length_readToken_le (c : Char) (rest : List Char) :
    (readToken c rest).2.length ≤ rest.length := by
  unfold readToken
  split
  case h_10 => exact length_tokenOf_le fun _ _ => length_readQuoted_le
  case h_11 => exact length_tokenOf_le fun _ _ => length_readQuoted_le
  case h_12 => exact length_tokenOf_le fun _ _ => length_readClass_le
  case h_13 =>
    split
    · exact (List.dropWhile_suffix isNameChar).length_le
    · split <;> simp
  all_goals exact Nat.le_refl _

/-- The tokens of a text. -/
def lex (text : List Char) : List Lexeme :=
  match h : skipBlanks false text with
  | [] => []
  | c :: rest =>
    have hs : rest.length < text.length := by
      have := length_skipBlanks_le false text
      rw [h] at this
      exact this
    have := Nat.lt_of_le_of_lt (length_readToken_le c rest) hs
    ⟨(readToken c rest).1, c, rest⟩ :: lex (readToken c rest).2
termination_by text.length

end Keymap.Notation
