-- Templates of commands. `$n` stands for an argument and `$$` for a dollar.
-- A dollar before anything else stands for itself, so that a name such as
-- `$file` is left to whoever runs the command. The arguments are counted by
-- one scan of the template and put into it by another.
import Keymap.Text.Digits
import Keymap.Text.Word

namespace Keymap.Template

/-! ## References -/

/-- There is no argument with this index, nor with a greater one. -/
def indexLimit : Nat := 100000000

/-- The index that a word after a dollar stands for: a numeral below the
limit. -/
def readIndex (word : List Char) : Option Nat :=
  if Text.isNumeral word && Text.readDigits word < indexLimit then some (Text.readDigits word)
  else none

/-- The reference that a text begins with: its index, and what comes after it.
The word after the dollar is read as a whole. -/
def reference? : List Char → Option (Nat × List Char)
  | '$' :: body =>
    (readIndex (body.takeWhile Text.isWordChar)).map fun n => (n, body.dropWhile Text.isWordChar)
  | _ => none

theorem lt_of_readIndex {word : List Char} {n : Nat} (h : readIndex word = some n) :
    n < indexLimit := by
  unfold readIndex at h
  split at h
  · next hread =>
    obtain rfl := Option.some.inj h
    simp only [Bool.and_eq_true, decide_eq_true_eq] at hread
    exact hread.2
  · cases h

/-- A reference takes the dollar at least. -/
theorem length_lt_of_reference? {text after : List Char} {n : Nat}
    (h : reference? text = some (n, after)) : after.length < text.length := by
  unfold reference? at h
  split at h
  · next body =>
    obtain ⟨_, -, hafter⟩ := Option.map_eq_some_iff.mp h
    obtain ⟨-, rfl⟩ := Prod.mk.inj hafter
    exact Nat.lt_succ_of_le (List.dropWhile_suffix Text.isWordChar).length_le
  · cases h

/-! ## Scans -/

/-- What comes before the first dollar. -/
def beforeDollar (text : List Char) : List Char := text.takeWhile (· ≠ '$')

/-- The text from its first dollar on. -/
def fromDollar (text : List Char) : List Char := text.dropWhile (· ≠ '$')

theorem length_fromDollar_le (text : List Char) : (fromDollar text).length ≤ text.length :=
  (List.dropWhile_suffix (· ≠ '$')).length_le

/-- Counts the arguments of a text. `n` is one past the highest index so far,
and `zero` tells whether the index zero was met. -/
def countFrom (n : Nat) (zero : Bool) (text : List Char) : Nat × Bool :=
  match _ : fromDollar text with
  | [] => (n, zero)
  | '$' :: '$' :: rest => countFrom n zero rest
  | c :: rest =>
    match _ : reference? (c :: rest) with
    | some (index, after) => countFrom (max n (index + 1)) (zero || index == 0) after
    | none => countFrom n zero rest
termination_by text.length
decreasing_by all_goals grind [length_fromDollar_le, → length_lt_of_reference?]

/-- One past the highest index of a template, and whether it has the argument
with index zero. -/
def counts (template : String) : Nat × Bool := countFrom 0 false template.toList

/-- One past the highest index of a template. -/
def argCount (template : String) : Nat := (counts template).1

/-- A template has the argument with index zero. -/
def usesZero (template : String) : Bool := (counts template).2

/-- Puts the arguments into a text, behind what there is so far. A missing
argument is empty. -/
def expandFrom (args : List String) (out : String) (text : List Char) : String :=
  let out := out ++ String.ofList (beforeDollar text)
  match _ : fromDollar text with
  | [] => out
  | '$' :: '$' :: rest => expandFrom args (out.push '$') rest
  | c :: rest =>
    match _ : reference? (c :: rest) with
    | some (index, after) => expandFrom args (out ++ args[index]?.getD "") after
    | none => expandFrom args (out.push '$') rest
termination_by text.length
decreasing_by all_goals grind [length_fromDollar_le, → length_lt_of_reference?]

/-- Puts the arguments into a template. -/
def expand (template : String) (args : List String) : String :=
  expandFrom args "" template.toList

end Keymap.Template
