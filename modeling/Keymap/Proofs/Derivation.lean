-- Derivations: how a pattern reads a sequence of events, and what it captures
-- on the way. A derivation also says which instructions its code runs, so that
-- the limits of a session can be compared with it.
import Keymap.Captures
import Keymap.Pattern

namespace Keymap

/-! ## Paths -/

/-- What one instruction does, as far as the limits of a session go. -/
inductive Move where
  /-- It consumes an event. The value is what is kept of it. -/
  | take (e : Input) (v : Value)
  /-- It calls a rule. -/
  | enter
  /-- It goes back to the caller. -/
  | leave
  /-- It does none of these. -/
  | quiet

/-- The event that a move consumes. -/
@[simp] def Move.event? : Move → Option Input
  | .take e _ => some e
  | .enter => none
  | .leave => none
  | .quiet => none

/-- What is kept of it. -/
@[simp] def Move.value? : Move → Option Value
  | .take _ v => some v
  | .enter => none
  | .leave => none
  | .quiet => none

/-- The moves of a match, in order. The instruction that ends it is left out. -/
abbrev Path := List Move

namespace Path

/-- The events that a path consumes. -/
def events (path : Path) : List Input := path.filterMap Move.event?

/-- What is kept of them. -/
def values (path : Path) : List Value := path.filterMap Move.value?

@[simp] theorem events_nil : events [] = [] := rfl

@[simp] theorem values_nil : values [] = [] := rfl

@[simp] theorem events_cons (m : Move) (path : Path) :
    events (m :: path) = m.event?.toList ++ events path := by
  cases m <;> rfl

@[simp] theorem values_cons (m : Move) (path : Path) :
    values (m :: path) = m.value?.toList ++ values path := by
  cases m <;> rfl

@[simp] theorem events_append (path path' : Path) :
    events (path ++ path') = events path ++ events path' :=
  List.filterMap_append

@[simp] theorem values_append (path path' : Path) :
    values (path ++ path') = values path ++ values path' :=
  List.filterMap_append

/-- Fewer than `limit` instructions run up to each event that is consumed, the
one that consumes it included, and after the last event. `idle` have run
already. -/
def Brisk (limit idle : Nat) : Path → Prop
  | [] => idle < limit
  | .take _ _ :: rest => idle + 1 < limit ∧ Brisk limit 0 rest
  | .quiet :: rest => Brisk limit (idle + 1) rest
  | .enter :: rest => Brisk limit (idle + 1) rest
  | .leave :: rest => Brisk limit (idle + 1) rest

/-- No more than `limit` calls are open at a time. `depth` are open already. -/
def Shallow (limit depth : Nat) : Path → Prop
  | [] => True
  | .enter :: rest => depth < limit ∧ Shallow limit (depth + 1) rest
  | .leave :: rest => Shallow limit (depth - 1) rest
  | .take _ _ :: rest => Shallow limit depth rest
  | .quiet :: rest => Shallow limit depth rest

end Path

/-! ## Derivations -/

/-- How the reading of a pattern ends. -/
inductive Ending where
  /-- What comes after the pattern is read next. -/
  | goesOn
  /-- The whole match is complete. -/
  | ends

/-- The pattern `p` reads the events of the path, and makes the captures of the
third argument those of the last but one. -/
inductive Derives (style : CaptureStyle) (rules : List (String × Pattern)) :
    Pattern → Captures → Path → Captures → Ending → Prop
  /-- One event that the matcher accepts. -/
  | event {m : Matcher} {c : Captures} {e : Input} {v : Value} (h : m.accept? e = some v) :
    Derives style rules (.event m) c [.take e v] c .goesOn
  | seq {p q : Pattern} {c c' c'' : Captures} {path path' : Path} {k : Ending}
    (hp : Derives style rules p c path c' .goesOn) (hq : Derives style rules q c' path' c'' k) :
    Derives style rules (.seq p q) c (path ++ path') c'' k
  | seqEnds {p q : Pattern} {c c' : Captures} {path : Path}
    (hp : Derives style rules p c path c' .ends) :
    Derives style rules (.seq p q) c path c' .ends
  /-- The first of the two: a split, the pattern, a jump. -/
  | altFirst {p q : Pattern} {c c' : Captures} {path : Path}
    (hp : Derives style rules p c path c' .goesOn) :
    Derives style rules (.alt p q) c (.quiet :: path ++ [.quiet]) c' .goesOn
  | altFirstEnds {p q : Pattern} {c c' : Captures} {path : Path}
    (hp : Derives style rules p c path c' .ends) :
    Derives style rules (.alt p q) c (.quiet :: path) c' .ends
  | altSecond {p q : Pattern} {c c' : Captures} {path : Path} {k : Ending}
    (hq : Derives style rules q c path c' k) :
    Derives style rules (.alt p q) c (.quiet :: path) c' k
  | starNone {p : Pattern} {c : Captures} :
    Derives style rules (.star p) c [.quiet] c .goesOn
  /-- Once, and then any number of times: a split, the pattern, a jump back. -/
  | starMore {p : Pattern} {c c' c'' : Captures} {path path' : Path} {k : Ending}
    (hp : Derives style rules p c path c' .goesOn)
    (hs : Derives style rules (.star p) c' path' c'' k) :
    Derives style rules (.star p) c (.quiet :: path ++ .quiet :: path') c'' k
  | starEnds {p : Pattern} {c c' : Captures} {path : Path}
    (hp : Derives style rules p c path c' .ends) :
    Derives style rules (.star p) c (.quiet :: path) c' .ends
  | plusOnce {p : Pattern} {c c' : Captures} {path : Path}
    (hp : Derives style rules p c path c' .goesOn) :
    Derives style rules (.plus p) c (path ++ [.quiet]) c' .goesOn
  /-- Once, and then once or more: the pattern, a split back. -/
  | plusMore {p : Pattern} {c c' c'' : Captures} {path path' : Path} {k : Ending}
    (hp : Derives style rules p c path c' .goesOn)
    (hs : Derives style rules (.plus p) c' path' c'' k) :
    Derives style rules (.plus p) c (path ++ .quiet :: path') c'' k
  | plusEnds {p : Pattern} {c c' : Captures} {path : Path}
    (hp : Derives style rules p c path c' .ends) :
    Derives style rules (.plus p) c path c' .ends
  | optNone {p : Pattern} {c : Captures} :
    Derives style rules (.opt p) c [.quiet] c .goesOn
  | optSome {p : Pattern} {c c' : Captures} {path : Path} {k : Ending}
    (hp : Derives style rules p c path c' k) :
    Derives style rules (.opt p) c (.quiet :: path) c' k
  /-- The pattern, and then its capture closes over what the pattern read. -/
  | capture {p : Pattern} {template : String} {c c' : Captures} {path : Path}
    (hp : Derives style rules p c path c' .goesOn) :
    Derives style rules (.capture p template) c (.quiet :: path ++ [.quiet])
      (c'.close style template (Path.values path)) .goesOn
  | captureEnds {p : Pattern} {template : String} {c c' : Captures} {path : Path}
    (hp : Derives style rules p c path c' .ends) :
    Derives style rules (.capture p template) c (.quiet :: path) c' .ends
  | done {c : Captures} : Derives style rules .done c [] c .ends
  /-- The body of the rule: a call, the body, the way back. -/
  | rule {name : String} {body : Pattern} {c c' : Captures} {path : Path}
    (hr : (name, body) ∈ rules) (hb : Derives style rules body c path c' .goesOn) :
    Derives style rules (.rule name) c (.enter :: path ++ [.leave]) c' .goesOn
  | ruleEnds {name : String} {body : Pattern} {c c' : Captures} {path : Path}
    (hr : (name, body) ∈ rules) (hb : Derives style rules body c path c' .ends) :
    Derives style rules (.rule name) c (.enter :: path) c' .ends

end Keymap
