-- Patterns over events, and grammars of named patterns.
import Keymap.Matcher

namespace Keymap

/-- What a sequence of events may look like, and what is made of it. -/
inductive Pattern where
  /-- One event. -/
  | event (m : Matcher)
  /-- Both, one after the other. -/
  | seq (a b : Pattern)
  /-- Either of the two. -/
  | alt (a b : Pattern)
  /-- Any number of times. -/
  | star (p : Pattern)
  /-- Once or more. -/
  | plus (p : Pattern)
  /-- Once or not at all. -/
  | opt (p : Pattern)
  /-- The events that `p` matches make a command, by the template. -/
  | capture (p : Pattern) (template : String)
  /-- The match is complete here. -/
  | done
  /-- What the rule with this name matches. -/
  | rule (name : String)
deriving DecidableEq

namespace Pattern

/-- A descriptor of an event. -/
def parseEvent (codec : Codec) (text : String) : Except Error Pattern :=
  (Matcher.parse codec text).map .event

/-- The patterns one after the other. The first two are joined first. -/
def seqAll : List Pattern → Option Pattern
  | [] => none
  | p :: ps => some (ps.foldl .seq p)

/-- Any one of the patterns. The last two are joined first. -/
def altAll : List Pattern → Option Pattern
  | [] => none
  | p :: ps =>
    match altAll ps with
    | none => some p
    | some q => some (.alt p q)

end Pattern

/-- Named rules, which may refer to each other, and the rule to start with. -/
structure Grammar where
  root : String
  rules : List (String × Pattern) := []
deriving DecidableEq

/-- Adds a rule. -/
def Grammar.addRule (g : Grammar) (name : String) (body : Pattern) : Grammar :=
  { g with rules := g.rules ++ [(name, body)] }

end Keymap
