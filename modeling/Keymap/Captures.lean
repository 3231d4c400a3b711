-- What a match has captured so far. A capture that closes makes a command by
-- its template, from the events that it spans and from the commands that are
-- waiting.
import Keymap.Settings
import Keymap.Template
import Keymap.Value

namespace Keymap

/-- The value of a span of events. One event keeps its own value, and several
are joined as text. -/
def Value.ofSpan : List Value → Value
  | [v] => v
  | vs => .text (joinTexts vs)

/-- A command, and the values that it may refer to. -/
structure Action where
  command : String
  vars : List Value
deriving DecidableEq

/-- What a match has captured. The head of each list is the newest entry. -/
structure Captures where
  /-- The values that were captured through `$0`. -/
  vars : List Value := []
  /-- The commands of closed captures that no other capture has taken yet. -/
  results : List String := []
deriving DecidableEq

namespace Captures

/-- What stands for a captured value in the command. A reference counts the
values that were captured before. -/
def token (style : CaptureStyle) (c : Captures) (v : Value) : String :=
  match style with
  | .inline => v.toText
  | .reference => "$" ++ toString c.vars.length

/-- The number of results that a template takes: one for each index from one
on. -/
def taken (template : String) : Nat := Template.argCount template - 1

/-- The arguments of a template after `$0`, the oldest first. There may be
fewer results than it could take. -/
def nested (template : String) (c : Captures) : List String :=
  (c.results.take (taken template)).reverse

/-- Closes a capture over a span of events. -/
def close (style : CaptureStyle) (template : String) (span : List Value) (c : Captures) :
    Captures :=
  let left := c.results.drop (taken template)
  if Template.usesZero template then
    let v := Value.ofSpan span
    ⟨v :: c.vars, Template.expand template (c.token style v :: c.nested template) :: left⟩
  else
    ⟨c.vars, Template.expand template ("" :: c.nested template) :: left⟩

/-- What a complete match asks for: the oldest command that is left, and the
values, the oldest first. -/
def action (c : Captures) : Action := ⟨c.results.getLast?.getD "", c.vars.reverse⟩

end Captures

end Keymap
