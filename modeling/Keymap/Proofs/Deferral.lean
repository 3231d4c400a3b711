-- References in place of values. A command with references is the inline command before the values
-- have been put in, so that they may as well be put in at the end.
import Keymap.Proofs.Lockstep
import Keymap.Proofs.References

namespace Keymap

namespace Captures

/-- The texts of the captured values, the oldest first. -/
def texts (c : Captures) : List String := c.vars.reverse.map Value.toText

/-- The same values have been captured, and each command that waits is the inline one before the
values have been put in. -/
structure Deferred (c c' : Captures) : Prop where
  vars : c'.vars = c.vars
  results : List.Forall₂ (Template.Defers c.texts) c'.results c.results

variable {c c' : Captures} {template : String}

theorem deferred_new : Deferred {} {} := ⟨rfl, .nil⟩

theorem Deferred.nested (h : Deferred c c') :
    List.Forall₂ (Template.Defers c.texts) (c'.nested template) (c.nested template) :=
  List.rel_reverse (List.forall₂_take _ h.results)

/-- The new value is the last one. Those before it keep their numbers. -/
theorem Deferred.capture (h : Deferred c c') (v : Value) :
    Deferred { c with vars := v :: c.vars } { c' with vars := v :: c'.vars } := by
  refine ⟨by rw [h.vars], h.results.imp fun text filled hd => ?_⟩
  simpa [texts] using hd.append [v.toText]

/-- The token of a new value refers to it. -/
theorem Deferred.token (h : Deferred c c') (v : Value) :
    Template.Defers ({ c with vars := v :: c.vars } : Captures).texts (c'.token .reference v)
      (c.token .inline v) := by
  have hlength : c'.vars.length = c.texts.length := by simp [h.vars, texts]
  have href := Template.defers_reference c.texts v.toText
  rw [← hlength] at href
  simpa [texts, Captures.token] using href

/-- A capture that closes makes a command that defers the inline one. -/
theorem Deferred.push (h : Deferred c c') (ht : Template.Regular template) {token token' : String}
    (htoken : Template.Defers c.texts token' token) :
    List.Forall₂ (Template.Defers c.texts)
      (Template.expand template (token' :: c'.nested template) :: c'.results.drop (taken template))
      (Template.expand template (token :: c.nested template) :: c.results.drop (taken template)) :=
  .cons (.expand ht (.cons htoken h.nested)) (List.forall₂_drop _ h.results)

theorem Deferred.close (h : Deferred c c') (ht : Template.Regular template) (span : List Value) :
    Deferred (c.close .inline template span) (c'.close .reference template span) := by
  unfold Captures.close
  split
  · exact ⟨(h.capture _).vars, (h.capture _).push ht (h.token _)⟩
  · exact ⟨h.vars, h.push ht (.empty _)⟩

/-- Putting the values into the command in the end gives the inline command. -/
theorem Deferred.expand_action (h : Deferred c c') (hlt : c.vars.length < Template.indexLimit) :
    Template.expand c'.action.command (c.action.vars.map Value.toText) = c.action.command := by
  have hlast : Template.Defers c.texts c'.action.command c.action.command := by
    simp only [action, List.getLast?_eq_getElem?, h.results.length_eq]
    exact Template.defers_getD h.results _
  exact hlast.expand_eq (by simpa [texts] using hlt.le)

end Captures

/-- Each dollar in a template of the program begins a reference that ends where it should. -/
def Program.Regular (program : Program) : Prop :=
  ∀ template, .capEnd template ∈ program.toList → Template.Regular template

theorem Program.Regular.closesAlike {program : Program} (h : program.Regular) :
    program.ClosesAlike .inline .reference Captures.Deferred :=
  fun template ht span _ _ hc => hc.close (h template ht) span

namespace Session

/-- Of two sessions that differ in their styles only, both reply with an action or neither does,
with the same values, and the values make the inline command of the one with references. -/
theorem putting_values_into_references_gives_the_inline_command {program : Program}
    (h : program.Regular) (settings : Settings) (calls : List Call) (e : Input) :
    let s := (start program { settings with style := .inline }).after calls
    let s' := (start program { settings with style := .reference }).after calls
    Option.Rel (fun a a' => a'.vars = a.vars ∧ (a.vars.length < Template.indexLimit →
        Template.expand a'.command (a'.vars.map Value.toText) = a.command))
      (s.feed e).2.action (s'.feed e).2.action := by
  intro s s'
  have halike : Alike Captures.Deferred .reference s s' :=
    (alike_start Captures.deferred_new program { settings with style := .inline } .reference).after
      h.closesAlike Captures.deferred_new calls
  obtain ⟨hprogram, hsettings⟩ :=
    (start program { settings with style := .inline }).after_keeps calls
  have hk : s.program.ClosesAlike s.settings.style .reference Captures.Deferred := by
    rw [hprogram, hsettings]
    exact h.closesAlike
  obtain ⟨-, -, haction⟩ := halike.feed hk e
  generalize (s.feed e).2.action = action at haction
  generalize (s'.feed e).2.action = action' at haction
  cases haction with
  | none => exact .none
  | some ha =>
    obtain ⟨c, c', hc, rfl, rfl⟩ := ha
    have hvars : c'.action.vars = c.action.vars := by simp [Captures.action, hc.vars]
    refine .some ⟨hvars, fun hlt => ?_⟩
    rw [hvars]
    exact hc.expand_action (by simpa [Captures.action] using hlt)

/-- A count and a letter. The count makes a command of its own, and the letter takes it. -/
def countedGotoProgram : Program := .ofList
  [.capStart, .capStart, .consume (.range '0' '9'), .capEnd "<$0>", .consume (.range 'a' 'z'),
    .capEnd "goto $1, then $0"]

theorem regular_countedGotoProgram : countedGotoProgram.Regular := by
  intro template ht
  obtain rfl | rfl : template = "<$0>" ∨ template = "goto $1, then $0" := by
    simpa [countedGotoProgram] using ht
  · decide +kernel
  · decide +kernel

theorem values_fill_the_references_of_a_goto :
    countedGotoProgram.Regular
      ∧ Option.Rel (fun a a' => a'.vars = a.vars ∧ (a.vars.length < Template.indexLimit →
          Template.expand a'.command (a'.vars.map Value.toText) = a.command))
        (((start countedGotoProgram { style := .inline }).after [.feed (.typed '4')]).feed
          (.typed 'x')).2.action
        (((start countedGotoProgram { style := .reference }).after [.feed (.typed '4')]).feed
          (.typed 'x')).2.action
      ∧ (((start countedGotoProgram { style := .reference }).after [.feed (.typed '4')]).feed
          (.typed 'x')).2.action
        = some ⟨"goto <$0>, then $1", [.char '4', .text "4x"]⟩ :=
  ⟨regular_countedGotoProgram,
    putting_values_into_references_gives_the_inline_command regular_countedGotoProgram {}
      [.feed (.typed '4')] (.typed 'x'),
    by decide +kernel⟩

end Session

end Keymap
