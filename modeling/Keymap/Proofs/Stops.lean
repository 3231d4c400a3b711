-- Where the readers of the rules stop. They pass over the blanks behind what they take, and a rule
-- goes on for as long as it can.
import Keymap.Proofs.Descent

namespace Keymap.Notation

/-! ## Behind the blanks -/

/-- No blank and no comment is here. -/
def Bare (place : List Char) : Prop := skipBlanks false place = place

theorem bare_skipBlanks (inComment : Bool) (text : List Char) :
    Bare (skipBlanks inComment text) := by
  fun_induction skipBlanks inComment text with
  | case1 => rfl
  | case2 c rest ih => exact ih
  | case3 inComment c rest _ _ ih => exact ih
  | case4 inComment rest _ _ ih => exact ih
  | case5 inComment c rest hin hblank hhash => simp [Bare, skipBlanks, hblank, hhash]

variable {α γ : Type} {P : List Char → Prop}

/-- The place behind what is read is one of these. -/
inductive Leaves (P : List Char → Prop) : Reading α → Prop
  | read {a : α} {rest : List Char} (h : P rest) : Leaves P (.ok (a, rest))
  | halt (e : Halt) : Leaves P (.error e)

theorem Leaves.rest {x : Reading α} (h : Leaves P x) {a : α} {rest : List Char}
    (hx : x = .ok (a, rest)) : P rest := by
  subst hx
  cases h with
  | read h => exact h

theorem Leaves.andThen {x : Reading α} {next : α → List Char → Reading γ}
    (h : ∀ a rest, x = .ok (a, rest) → Leaves P (next a rest)) : Leaves P (x.andThen next) := by
  cases x with
  | ok found => exact h found.1 found.2 rfl
  | error e => exact .halt e

namespace Descent

variable {place rest : List Char} {inner : List Char → Reading Pattern}

theorem leaves_behind (x : Except Fault (α × List Char)) : Leaves Bare (behind x) := by
  cases x with
  | ok found => exact .read (bare_skipBlanks ..)
  | error f => exact .halt _

theorem bare_of_sign {c : Char} (h : sign? c place = some rest) : Bare rest := by
  obtain ⟨after, -, rfl⟩ := exists_of_sign h
  exact bare_skipBlanks false after

theorem bare_of_arrow (h : arrow? place = some rest) : Bare rest := by
  obtain ⟨after, -, rfl⟩ := exists_of_arrow h
  exact bare_skipBlanks false after

theorem leaves_closing (c : Char) (place : List Char) : Leaves Bare (closing c place) := by
  unfold closing
  split
  · next h => exact .read (bare_of_sign h)
  · exact .halt _

theorem leaves_name (place : List Char) : Leaves Bare (name place) := by
  unfold name
  split
  · exact .halt _
  · split
    · exact .read (bare_skipBlanks ..)
    · exact .halt _

theorem leaves_template (place : List Char) : Leaves Bare (template place) := by
  unfold template
  split
  · exact leaves_behind _
  · exact leaves_behind _
  · exact .halt _

theorem leaves_event (quote : Char) (rest : List Char) : Leaves Bare (event quote rest) := by
  refine .andThen fun text left htext => ?_
  split
  · exact .read ((leaves_behind _).rest htext)
  · exact .halt _

theorem leaves_mark {x : Reading Mark} (h : mark? place = some x) : Leaves Bare x := by
  unfold mark? at h
  split at h <;> cases h
  all_goals exact .read (bare_skipBlanks ..)

theorem leaves_item (place : List Char) : Leaves Bare (item inner place) := by
  unfold item
  split
  · exact .halt _
  · exact .andThen fun p left _ => .andThen fun _ left' hclose =>
      .read ((leaves_closing _ _).rest hclose)
  · exact .andThen fun p left _ => .andThen fun _ left' _ => .andThen fun t left'' ht =>
      .read ((leaves_template _).rest ht)
  · exact .andThen fun s left hs => .read ((leaves_behind _).rest hs)
  · exact .read (bare_skipBlanks ..)
  · exact leaves_event _ _
  · exact leaves_event _ _
  · split
    · exact .andThen fun word left hword => .read ((leaves_name _).rest hword)
    · exact .halt _

/-! ## Where a rule cannot go on -/

/-- No more things begin behind many of them. If there are any, the last one leaves the place. -/
theorem many_stops {next : List Char → Option (Reading α)} {as : List α}
    (h : ∀ p x, next p = some x → Leaves P x) (hmany : many next place = .ok (as, rest)) :
    next rest = none ∧ (as = [] ∧ rest = place ∨ P rest) := by
  fun_induction many next place generalizing as with
  | case1 place hnext =>
    cases hmany
    exact ⟨hnext, .inl ⟨rfl, rfl⟩⟩
  | case2 place e hnext => cases hmany
  | case3 place a left hnext hlt ih =>
    cases hmore : many next left with
    | error e =>
      rw [hmore] at hmany
      cases hmany
    | ok found =>
      obtain ⟨bs, end'⟩ := found
      rw [hmore] at hmany
      cases hmany
      obtain ⟨hend, hrest⟩ := ih hmore
      refine ⟨hend, .inr ?_⟩
      rcases hrest with ⟨-, rfl⟩ | hP
      · exact (h _ _ hnext).rest rfl
      · exact hP
  | case4 => cases hmany

/-- Neither an item nor a mark is here. -/
structure Stops (place : List Char) : Prop where
  bare : Bare place
  item : startsItem place = false
  mark : mark? place = none

theorem leaves_marked (place : List Char) :
    Leaves (fun p => Bare p ∧ mark? p = none) (marked inner place) := by
  refine .andThen fun p rest hitem => .andThen fun ms left hmarks => .read ?_
  obtain ⟨hend, ⟨-, rfl⟩ | hbare⟩ := many_stops (fun _ _ => leaves_mark) hmarks
  · exact ⟨(leaves_item place).rest hitem, hend⟩
  · exact ⟨hbare, hend⟩

theorem leaves_marked? {x : Reading Pattern} (h : marked? inner place = some x) :
    Leaves (fun p => Bare p ∧ mark? p = none) x := by
  unfold marked? at h
  split at h
  · cases h
    exact leaves_marked place
  · cases h

theorem startsItem_of_marked? (h : marked? inner place = none) : startsItem place = false := by
  unfold marked? at h
  split at h
  · cases h
  · next hstart => exact Bool.eq_false_iff.mpr hstart

theorem leaves_sequence (place : List Char) : Leaves Stops (sequence inner place) := by
  refine .andThen fun ps rest hitems => ?_
  obtain ⟨hend, hrest⟩ := many_stops (fun _ _ => leaves_marked?) hitems
  split
  · next q hseq =>
    rcases hrest with ⟨rfl, -⟩ | ⟨hbare, hmark⟩
    · cases hseq
    · exact .read ⟨hbare, startsItem_of_marked? hend, hmark⟩
  · exact .halt _

theorem leaves_alternatives (place : List Char) :
    Leaves (fun p => Stops p ∧ sign? '/' p = none) (alternatives inner place) := by
  refine .andThen fun p rest hp => .andThen fun ps left hmore => ?_
  have hmany := many_stops (P := Stops) (fun p x hx => ?_) hmore
  · obtain ⟨hend, hrest⟩ := hmany
    have hslash : sign? '/' left = none := Option.map_eq_none_iff.mp hend
    split
    · rcases hrest with ⟨-, rfl⟩ | hstops
      · exact .read ⟨(leaves_sequence place).rest hp, hslash⟩
      · exact .read ⟨hstops, hslash⟩
    · exact .halt _
  · obtain ⟨begin', -, rfl⟩ := Option.map_eq_some_iff.mp hx
    exact leaves_sequence begin'

theorem leaves_pattern (depth : Nat) (place : List Char) :
    Leaves (fun p => Stops p ∧ sign? '/' p = none) (pattern depth place) := by
  cases depth with
  | zero => exact .halt _
  | succ depth => exact leaves_alternatives place

theorem leaves_definition (depth : Nat) (place : List Char) :
    Leaves Bare (definition depth place) := by
  refine .andThen fun word rest _ => ?_
  split
  · exact .andThen fun p left hp => .read ((leaves_pattern _ _).rest hp).1.bare
  · exact .halt _

theorem leaves_definition? {depth : Nat} {x : Reading (String × Pattern)}
    (h : definition? depth place = some x) : Leaves Bare x := by
  obtain ⟨c, rest, -, rfl⟩ := definition?_eq_some h
  exact leaves_definition depth place

end Descent

end Keymap.Notation
