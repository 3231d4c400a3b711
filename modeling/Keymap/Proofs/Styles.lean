-- The style in which captured values are put into commands shows in the commands only. All else
-- that can be seen of a session is the same in both styles.
import Keymap.Proofs.Lockstep

namespace Keymap

namespace Captures

/-- The same values have been captured, and as many commands wait. -/
structure SameShape (c c' : Captures) : Prop where
  vars : c'.vars = c.vars
  length : c'.results.length = c.results.length

/-- A capture that closes takes as many commands in both styles, and it keeps the same value. -/
theorem SameShape.close {c c' : Captures} (h : SameShape c c') (style style' : CaptureStyle)
    (template : String) (span : List Value) :
    SameShape (c.close style template span) (c'.close style' template span) := by
  unfold Captures.close
  split
  · exact ⟨by simp [h.vars], by simp [h.length]⟩
  · exact ⟨h.vars, by simp [h.length]⟩

end Captures

/-- What can be seen of a branch between two calls. -/
structure Branch.Snapshot where
  pc : Nat
  consumed : Nat
  status : Status
deriving DecidableEq

def Branch.snapshot (b : Branch) : Branch.Snapshot := ⟨b.pc, b.consumed, b.status⟩

namespace Session

/-- What can be seen of a session between two calls. -/
structure Snapshot where
  /-- The number of events since the last reset. -/
  buffered : Nat
  branches : List Branch.Snapshot
deriving DecidableEq

def snapshot (s : Session) : Snapshot := ⟨s.events.size, s.branches.toList.map Branch.snapshot⟩

variable {R : Captures → Captures → Prop} {style : CaptureStyle} {s s' : Session}

theorem Alike.snapshot_eq (h : Alike R style s s') : s'.snapshot = s.snapshot := by
  have hbranches : s'.branches.toList.map Branch.snapshot
      = s.branches.toList.map Branch.snapshot := by
    apply List.ext_getElem
    · simp [h.branches.size]
    · intro i hi' hi
      simp only [List.length_map, Array.length_toList] at hi hi'
      obtain ⟨c, -, heq⟩ := (h.branches.alike i hi hi').exists_eq
      simp only [List.getElem_map, Array.getElem_toList, heq]
      rfl
  unfold snapshot
  rw [h.events, hbranches]

theorem closesAlike_sameShape (program : Program) (style style' : CaptureStyle) :
    program.ClosesAlike style style' Captures.SameShape :=
  fun template _ span _ _ h => h.close style style' template span

theorem map_vars_eq {action action' : Option Action}
    (h : Option.Rel (ActionsAlike Captures.SameShape) action action') :
    action'.map Action.vars = action.map Action.vars := by
  cases h with
  | none => rfl
  | some h =>
    obtain ⟨c, c', hc, rfl, rfl⟩ := h
    simp [Captures.action, hc.vars]

/-- Two sessions whose settings differ only in the style do the same with all calls: between two
calls they look the same, and each event completes a match in both or in neither, with the same
values. -/
theorem a_style_shows_in_commands_only (program : Program) (settings : Settings)
    (style : CaptureStyle) (calls : List Call) :
    let s := (start program settings).after calls
    let s' := (start program { settings with style := style }).after calls
    s'.snapshot = s.snapshot
      ∧ ∀ e, (s'.feed e).2.mayContinue = (s.feed e).2.mayContinue
        ∧ (s'.feed e).2.action.isSome = (s.feed e).2.action.isSome
        ∧ (s'.feed e).2.action.map Action.vars = (s.feed e).2.action.map Action.vars := by
  intro s s'
  have hnew : Captures.SameShape {} {} := ⟨rfl, rfl⟩
  have halike : Alike Captures.SameShape style s s' :=
    (alike_start hnew program settings style).after (closesAlike_sameShape _ _ _) hnew calls
  refine ⟨halike.snapshot_eq, ?_⟩
  intro e
  obtain ⟨-, hmay, haction⟩ := halike.feed (closesAlike_sameShape _ _ _) e
  have hvars := map_vars_eq haction
  refine ⟨hmay, ?_, hvars⟩
  rw [← Option.isSome_map, hvars, Option.isSome_map]

/-- The commands do differ: the digit itself, and a reference to it. -/
example :
    let program := Program.ofList [.capStart, .consume (.range '0' '9'), .capEnd "$0"]
    ((start program { style := .inline }).feed (.typed '4')).2.action = some ⟨"4", [.char '4']⟩
      ∧ ((start program { style := .reference }).feed (.typed '4')).2.action
        = some ⟨"$0", [.char '4']⟩ := by
  decide +kernel

end Session

end Keymap
