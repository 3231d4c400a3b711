-- Settings as they are written down: a document of named fields, or a list of
-- the same values in a fixed order. What is left out has its default.
import Keymap.Settings

namespace Keymap

namespace Settings

/-- A document, such as a settings file holds. -/
inductive Document where
  | null
  | bool (b : Bool)
  /-- A whole number that is not negative. -/
  | natural (n : Nat)
  /-- Any other number. -/
  | otherNumber
  | text (s : String)
  | list (items : List Document)
  | record (fields : List (String × Document))
deriving Inhabited

namespace Document

/-- The values of the named fields, in the order of the names, and none for a
field that is missing. A list gives them in that order, and has no more. -/
def fields? (names : List String) : Document → Option (List (Option Document))
  | .record fields => some (names.map fun name => fields.lookup name)
  | .list items =>
    if items.length ≤ names.length then
      some (names.zipIdx.map fun (_, i) => items[i]?)
    else none
  | _ => none

/-- Reads a field that may be missing. -/
def optional {α : Type} (read : Document → Option α) (default : α) :
    Option Document → Option α
  | none => some default
  | some d => read d

/-- Yes or no. -/
def bool? : Document → Option Bool
  | .bool b => some b
  | _ => none

/-- A limit fits in 64 bits. -/
def limit? : Document → Option Nat
  | .natural n => if n < UInt64.size then some n else none
  | _ => none

end Document

/-- The capture style with this name. -/
def styleNamed? (name : String) : Option CaptureStyle :=
  if name = "inline" then some .inline
  else if name = "reference" then some .reference
  else none

open Document

/-- A capture style: its name, or a record with nothing but an empty field of
that name. -/
def style? : Document → Option CaptureStyle
  | .text s => styleNamed? s
  | .record [(name, .null)] => styleNamed? name
  | _ => none

/-- The choices for keys. -/
def codec? (d : Document) : Option Codec :=
  match d.fields? ["unify_enter_keys"] with
  | some [unify] => (optional bool? false unify).map fun u => ⟨u⟩
  | _ => none

/-- Reads settings. -/
def ofDocument? (d : Document) : Option Settings :=
  match d.fields? ["codec", "capture_style", "max_machines", "max_call_depth",
      "max_idle_steps"] with
  | some [codec, style, branches, depth, idle] => do
    let defaults : Settings := {}
    return {
      codec := ← optional codec? defaults.codec codec
      style := ← optional style? defaults.style style
      maxBranches := ← optional limit? defaults.maxBranches branches
      maxCallDepth := ← optional limit? defaults.maxCallDepth depth
      maxIdleSteps := ← optional limit? defaults.maxIdleSteps idle }
  | _ => none

end Settings

end Keymap
