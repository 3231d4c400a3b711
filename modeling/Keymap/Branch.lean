-- One branch of a match: how far it is in the program and in the input, and
-- what it has captured on its way. A branch runs one instruction at a time.
import Keymap.Captures
import Keymap.Program

namespace Keymap

/-- Whether a branch can go on by itself. -/
inductive Status where
  | running
  /-- It waits for an event that has not come yet. -/
  | blocked
deriving DecidableEq

/-- A branch of a match. The head of each list is the newest entry. -/
structure Branch where
  /-- The address of the next instruction. -/
  pc : Nat := 0
  /-- The number of events that it has consumed. -/
  consumed : Nat := 0
  /-- For each open capture, the number of events consumed before it. -/
  marks : List Nat := []
  captures : Captures := {}
  /-- The addresses to go back to. -/
  returns : List Nat := []
  /-- What is kept of each event that it has consumed. -/
  payloads : List Value := []
  /-- The number of instructions run since it last consumed an event. -/
  idle : Nat := 0
  status : Status := .running
deriving DecidableEq

namespace Branch

/-! ## Captures -/

/-- What is kept of the events from the `start`-th on, the oldest first. -/
def spanFrom (b : Branch) (start : Nat) : List Value :=
  (b.payloads.take (b.consumed - start)).reverse

/-- Closes the innermost capture. Without one the span is empty. -/
def closeCapture (style : CaptureStyle) (template : String) (b : Branch) : Branch :=
  { b with
    marks := b.marks.tail
    captures := b.captures.close style template (b.spanFrom (b.marks.head?.getD b.consumed)) }

/-! ## One step -/

/-- An address that no program has. -/
def outside : Nat := UInt64.size - 1

/-- The address that is `offset` away. Below zero it is outside. -/
def target (pc : Nat) (offset : Int) : Nat :=
  if 0 ≤ pc + offset then (pc + offset).toNat else outside

/-- What becomes of a branch in one step. -/
inductive Outcome where
  /-- It goes on. -/
  | running (b : Branch)
  /-- It goes on, and so does a fork. -/
  | forked (b fork : Branch)
  /-- It waits for the next event. -/
  | blocked (b : Branch)
  /-- It matches nothing. -/
  | failed
  /-- Its match is complete. -/
  | done (b : Branch)
deriving DecidableEq

/-- Consumes the next event. -/
def consume (events : Array Input) (m : Matcher) (b : Branch) : Outcome :=
  match events[b.consumed]? with
  | none => .blocked { b with status := .blocked }
  | some e =>
    match m.accept? e with
    | none => .failed
    | some value =>
      .running { b with
        pc := b.pc + 1
        consumed := b.consumed + 1
        payloads := value :: b.payloads
        idle := 0 }

/-- Goes to a rule, unless that is too deep. -/
def call (maxDepth address : Nat) (b : Branch) : Outcome :=
  if b.returns.length < maxDepth then
    .running { b with pc := address, returns := (b.pc + 1) :: b.returns }
  else .failed

/-- Goes back to the caller. Without one the match is complete. -/
def ret (b : Branch) : Outcome :=
  match b.returns with
  | [] => .done b
  | address :: rest => .running { b with pc := address, returns := rest }

/-- Runs an instruction. -/
def run (events : Array Input) (settings : Settings) (b : Branch) : Inst → Outcome
  | .consume m => b.consume events m
  | .jump offset => .running { b with pc := target b.pc offset }
  | .split first second =>
    .forked { b with pc := target b.pc first } { b with pc := target b.pc second }
  | .capStart => .running { b with pc := b.pc + 1, marks := b.consumed :: b.marks }
  | .capEnd template =>
    .running (closeCapture settings.style template { b with pc := b.pc + 1 })
  | .done => .done b
  | .call address => b.call settings.maxCallDepth address
  | .ret => b.ret

/-- One step of a branch that is running. Past the last instruction the match
is complete. A branch that has been idle for too long fails. -/
def step (program : Program) (events : Array Input) (settings : Settings) (b : Branch) :
    Outcome :=
  match program.get? b.pc with
  | none => .done b
  | some i =>
    if settings.maxIdleSteps ≤ b.idle then .failed
    else run events settings { b with idle := b.idle + 1 } i

end Branch

end Keymap
