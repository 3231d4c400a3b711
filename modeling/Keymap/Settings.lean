-- What a user may choose about reading keys and about matching.

namespace Keymap

/-- How keys are written and compared. -/
structure Codec where
  /-- Ctrl+J counts as Enter. -/
  unifyEnter : Bool := false
deriving DecidableEq

/-- What stands for `$0` in the command of a capture. -/
inductive CaptureStyle where
  /-- The captured text itself. -/
  | inline
  /-- A reference to the captured value, for whoever runs the command. -/
  | reference
deriving DecidableEq

/-- The choices for a session. -/
structure Settings where
  codec : Codec := {}
  style : CaptureStyle := .inline
  /-- A split adds no branch when this many are alive. -/
  maxBranches : Nat := 1024
  /-- A branch dies when it calls a rule inside this many calls. -/
  maxCallDepth : Nat := 256
  /-- A branch dies when it has run this many instructions since it last
  consumed an event. -/
  maxIdleSteps : Nat := 10000
deriving DecidableEq

/-- Allows `n` branches, and one at least: a match starts with one. -/
def Settings.allowBranches (s : Settings) (n : Nat) : Settings :=
  { s with maxBranches := max n 1 }

end Keymap
