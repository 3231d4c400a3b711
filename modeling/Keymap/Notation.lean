-- The notation for patterns and grammars.
--
--   grammar    <- definition+
--   definition <- name '<-' pattern
--   pattern    <- sequence ('/' sequence)*
--   sequence   <- marked+
--   marked     <- item ('?' / '*' / '+')*
--   item       <- name / '(' pattern ')' / literal / class / '.'
--               / braces around a pattern, and a literal for the template
--
-- A literal is a descriptor of an event in quotes. A comment runs from a hash
-- to the end of its line.
import Keymap.Notation.Expression

namespace Keymap

namespace Notation

/-! ## Places -/

/-- The length of a text in UTF-8. -/
def byteLength : List Char → Nat
  | [] => 0
  | c :: rest => c.utf8Size + byteLength rest

/-- The number of bytes before a place. -/
def position (text place : List Char) : Nat := byteLength text - byteLength place

/-- An objection as an error. -/
def Objection.toError (text : List Char) (o : Objection) : Error :=
  match o.refusal with
  | .problem p => .malformed (position text o.place) p
  | .fault f => .malformed (position text f.place) f.problem
  | .event e => e

/-! ## Patterns -/

/-- Reads a pattern that takes up all tokens. -/
def readPattern (tokens : List Lexeme) : Except Objection Pattern :=
  match Reader.start.run tokens with
  | .error o => .error o
  | .ok (p, []) => .ok p
  | .ok (_, t :: _) => .error ⟨.problem (.unexpected t.first), t.place⟩

/-! ## Grammars -/

/-- Reads definitions, one after the other. -/
def readDefinitions : List Lexeme → Except Objection (List (String × Pattern))
  | [] => .ok []
  | t :: ts =>
    match t.token with
    | .name word _ =>
      match ts with
      | ⟨.arrow, _, _⟩ :: body =>
        match h : Reader.start.run body with
        | .error o => .error o
        | .ok (p, rest) =>
          have := Reader.length_run_le h
          (readDefinitions rest).map ((word, p) :: ·)
      | _ => .error ⟨.problem (.expectedArrow word), t.place⟩
    | _ => .error ⟨.problem .expectedIdentifier, t.place⟩
termination_by ts => ts.length

/-- Reads a grammar. Its first rule is the root. -/
def readGrammar (tokens : List Lexeme) : Except Objection Grammar :=
  match readDefinitions tokens with
  | .error o => .error o
  | .ok [] => .error ⟨.problem .expectedDefinition, []⟩
  | .ok ((name, body) :: rules) => .ok ⟨name, (name, body) :: rules⟩

end Notation

/-- Reads the notation of a pattern. -/
def Pattern.parse (text : String) : Except Error Pattern :=
  (Notation.readPattern (Notation.lex text.toList)).mapError
    (Notation.Objection.toError text.toList)

/-- Reads the notation of a grammar. -/
def Grammar.parse (text : String) : Except Error Grammar :=
  (Notation.readGrammar (Notation.lex text.toList)).mapError
    (Notation.Objection.toError text.toList)

end Keymap
