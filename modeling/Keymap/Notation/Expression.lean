-- Reading a pattern from tokens. The reader keeps the brackets that are open
-- and takes one token at a time, so that what it does next depends on its
-- state and on that token alone.
import Keymap.Notation.Token
import Keymap.Pattern

namespace Keymap.Notation

/-! ## Patterns in the making -/

/-- A pattern that is read only in part. -/
structure Draft where
  /-- The alternatives before the last slash, newest first. -/
  alternatives : List Pattern := []
  /-- What has been read after it, newest first. -/
  items : List Pattern := []
deriving DecidableEq

namespace Draft

/-- One more pattern. -/
def add (d : Draft) (p : Pattern) : Draft := { d with items := p :: d.items }

/-- Marks the newest pattern. There may be none. -/
def mark (d : Draft) (m : Mark) : Option Draft :=
  match d.items with
  | [] => none
  | p :: ps =>
    let marked :=
      match m with
      | .star => .star p
      | .plus => .plus p
      | .opt => .opt p
    some { d with items := marked :: ps }

/-- Ends an alternative. It may be empty. -/
def slash (d : Draft) : Option Draft :=
  (Pattern.seqAll d.items.reverse).map fun p => ⟨p :: d.alternatives, []⟩

/-- The pattern that was read. The last alternative may be empty. -/
def toPattern? (d : Draft) : Option Pattern :=
  d.slash.bind fun closed => Pattern.altAll closed.alternatives.reverse

end Draft

/-! ## The reader -/

/-- A bracket that is open, and what was read before it. -/
structure Frame where
  bracket : Bracket
  outer : Draft
deriving DecidableEq

/-- The state of the reader. The innermost open bracket comes first. -/
inductive Reader where
  | inside (draft : Draft) (frames : List Frame)
  /-- The braces around `body` are closed, and the template has to follow. -/
  | beforeTemplate (body : Pattern) (outer : Draft) (frames : List Frame)
deriving DecidableEq

/-- Why a token is refused, or the end of the text. -/
inductive Refusal where
  /-- A problem at the place of the token. -/
  | problem (p : Problem)
  /-- A fault inside the token. -/
  | fault (f : Fault)
  /-- A literal that is no event. -/
  | event (e : Error)
deriving DecidableEq

/-- What becomes of the reader with one token. -/
inductive Turn where
  /-- The token belongs to the pattern. -/
  | reads (next : Reader)
  /-- The pattern has ended before the token. -/
  | ends (p : Pattern)
deriving DecidableEq

namespace Reader

/-- Nothing is read. -/
def start : Reader := .inside {} []

/-- Ends the pattern. All brackets have to be closed. -/
def finish : Reader → Except Refusal Pattern
  | .beforeTemplate .. => .error (.problem .expectedTemplate)
  | .inside draft frames =>
    match draft.toPattern?, frames with
    | none, _ => .error (.problem .expectedPattern)
    | some _, f :: _ => .error (.problem (.expectedClosing f.bracket.closing))
    | some p, [] => .ok p

/-- Takes a token that cannot belong to the pattern. -/
def endTurn (r : Reader) : Except Refusal Turn := r.finish.map .ends

/-- Takes a closing bracket. One that was not opened does not belong to the
pattern. -/
def closeTurn (draft : Draft) (frames : List Frame) (b : Bracket) : Except Refusal Turn :=
  match draft.toPattern?, frames with
  | some p, f :: rest =>
    if f.bracket = b then
      match b with
      | .group => .ok (.reads (.inside (f.outer.add p) rest))
      | .capture => .ok (.reads (.beforeTemplate p f.outer rest))
    else endTurn (.inside draft frames)
  | _, _ => endTurn (.inside draft frames)

/-- Goes on with a changed draft, unless the change needs a pattern that is
missing. -/
def changeTurn (changed : Option Draft) (frames : List Frame) : Except Refusal Turn :=
  match changed with
  | some draft => .ok (.reads (.inside draft frames))
  | none => .error (.problem .expectedPattern)

/-- Goes on with one more pattern. -/
def addTurn (draft : Draft) (frames : List Frame) (p : Pattern) : Except Refusal Turn :=
  .ok (.reads (.inside (draft.add p) frames))

/-- Takes a token where a pattern is read. -/
def insideTurn (draft : Draft) (frames : List Frame) : Token → Except Refusal Turn
  | .opens b => .ok (.reads (.inside {} (⟨b, draft⟩ :: frames)))
  | .closes b => closeTurn draft frames b
  | .mark m => changeTurn (draft.mark m) frames
  | .slash => changeTurn draft.slash frames
  | .dot => addTurn draft frames (.event .any)
  | .name word false => addTurn draft frames (.rule word)
  | .name _ true => endTurn (.inside draft frames)
  | .quoted (.ok text) =>
    match Pattern.parseEvent {} text with
    | .ok p => addTurn draft frames p
    | .error e => .error (.event e)
  | .quoted (.error f) => .error (.fault f)
  | .oneOf (.ok set) => addTurn draft frames (.event (.oneOf set))
  | .oneOf (.error f) => .error (.fault f)
  | .arrow => endTurn (.inside draft frames)
  | .other _ => endTurn (.inside draft frames)

/-- Takes a token where a template has to stand. -/
def templateTurn (body : Pattern) (outer : Draft) (frames : List Frame) :
    Token → Except Refusal Turn
  | .quoted (.ok template) => addTurn outer frames (.capture body template)
  | .quoted (.error f) => .error (.fault f)
  | _ => .error (.problem .expectedTemplate)

/-- Takes a token. -/
def turn : Reader → Token → Except Refusal Turn
  | .inside draft frames, t => insideTurn draft frames t
  | .beforeTemplate body outer frames, t => templateTurn body outer frames t

end Reader

/-! ## Reading a list of tokens -/

/-- A refusal, and the place of the token that is refused. -/
structure Objection where
  refusal : Refusal
  place : List Char
deriving DecidableEq

/-- Reads a pattern, and gives the tokens after it. -/
def Reader.run (r : Reader) : List Lexeme → Except Objection (Pattern × List Lexeme)
  | [] =>
    match r.finish with
    | .ok p => .ok (p, [])
    | .error e => .error ⟨e, []⟩
  | t :: ts =>
    match r.turn t.token with
    | .ok (.reads next) => next.run ts
    | .ok (.ends p) => .ok (p, t :: ts)
    | .error e => .error ⟨e, t.place⟩

/-- What follows a pattern is no longer than the tokens that begin with it. -/
theorem Reader.length_run_le {r : Reader} {ts rest : List Lexeme} {p : Pattern}
    (h : r.run ts = .ok (p, rest)) : rest.length ≤ ts.length := by
  fun_induction Reader.run r ts with
  | case1 r q => simp_all
  | case2 r e => exact nomatch h
  | case3 r t ts next ht ih => exact Nat.le_succ_of_le (ih h)
  | case4 r t ts q ht => simp_all
  | case5 r t ts e ht => exact nomatch h

end Keymap.Notation
