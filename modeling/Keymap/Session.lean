-- A session: a program, the branches of the match that is under way, and the
-- events that it has seen. Each event runs the branches until they are
-- finished or wait for the next event.
import Keymap.Session.Pass

namespace Keymap

/-- A match that is under way. -/
structure Session where
  program : Program
  settings : Settings
  branches : Array Branch
  /-- The events since the start, or since the last reset. -/
  events : Array Input
deriving DecidableEq

/-- What comes of one event. -/
structure Reply where
  /-- The command to run now. -/
  action : Option Action
  /-- More events may still complete a command. -/
  mayContinue : Bool
deriving DecidableEq

/-- A branch that waits may go on when an event has come. -/
def Branch.unblock (b : Branch) : Branch := { b with status := .running }

namespace Session

/-- Starts with one branch at address zero. -/
def start (program : Program) (settings : Settings) : Session :=
  { program, settings, branches := #[{}], events := #[] }

/-- Forgets all branches and events, and starts again. -/
def reset (s : Session) : Session := start s.program s.settings

/-- Takes the next event. Of the branches that it completes, the one that is
completed last has its action run. -/
def feed (s : Session) (e : Input) : Session × Reply :=
  let events := s.events.push e
  let left := settle s.program events s.settings s.branches none
  ({ s with branches := left.1.map Branch.unblock, events := events },
    ⟨left.2, !left.1.isEmpty⟩)

end Session

end Keymap
