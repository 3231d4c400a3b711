-- Two sessions in lock step. They run the same program on the same events, and put captured
-- values into their commands in different styles. No step looks at a command, so that their
-- branches differ in the captures only, and in those as little as closing a capture lets them.
import Keymap.Proofs.Moments

namespace Keymap

/-! ## Branches -/

namespace Branch

variable {R : Captures → Captures → Prop} {b b' : Branch}

/-- The two branches differ in their captures only, and `R` relates these. -/
structure Alike (R : Captures → Captures → Prop) (b b' : Branch) : Prop where
  captures : R b.captures b'.captures
  rest : { b with captures := b'.captures } = b'

theorem Alike.exists_eq (h : Alike R b b') :
    ∃ c, R b.captures c ∧ b' = { b with captures := c } :=
  ⟨b'.captures, h.captures, h.rest.symm⟩

theorem Alike.status_eq (h : Alike R b b') : b'.status = b.status := by
  rw [← h.rest]

/-- The two steps have outcomes of the same kind. -/
inductive Outcome.Alike (R : Captures → Captures → Prop) : Outcome → Outcome → Prop
  | running {b b' : Branch} (h : b.Alike R b') : Alike R (.running b) (.running b')
  | forked {b b' fork fork' : Branch} (h : b.Alike R b') (hf : fork.Alike R fork') :
    Alike R (.forked b fork) (.forked b' fork')
  | blocked {b b' : Branch} (h : b.Alike R b') : Alike R (.blocked b) (.blocked b')
  | failed : Alike R .failed .failed
  | done {b b' : Branch} (h : b.Alike R b') : Alike R (.done b) (.done b')

end Branch

/-- Captures that `R` relates are related again when a capture of the program closes over the
same span, in one style and in the other. -/
def Program.ClosesAlike (program : Program) (style style' : CaptureStyle)
    (R : Captures → Captures → Prop) : Prop :=
  ∀ template, .capEnd template ∈ program.toList → ∀ span c c', R c c' →
    R (c.close style template span) (c'.close style' template span)

theorem Program.mem_of_get? {program : Program} {address : Nat} {i : Inst}
    (h : program.get? address = some i) : i ∈ program.toList :=
  Array.mem_toList_iff.mpr (Array.mem_of_getElem? h)

namespace Branch

variable {R : Captures → Captures → Prop} {program : Program} {events : Array Input}
  {settings : Settings} {style : CaptureStyle} {b b' : Branch}

/-- An instruction does the same, whatever has been captured. -/
theorem alike_run (hk : program.ClosesAlike settings.style style R) {i : Inst}
    (hi : i ∈ program.toList) {c : Captures} (hc : R b.captures c) :
    Outcome.Alike R (run events settings b i)
      (run events { settings with style := style } { b with captures := c } i) := by
  cases i with
  | consume m =>
    simp only [run, consume]
    cases events[b.consumed]? with
    | none => exact .blocked ⟨hc, rfl⟩
    | some e =>
      simp only
      cases m.accept? e with
      | none => exact .failed
      | some v => exact .running ⟨hc, rfl⟩
  | jump offset => exact .running ⟨hc, rfl⟩
  | split first second => exact .forked ⟨hc, rfl⟩ ⟨hc, rfl⟩
  | capStart => exact .running ⟨hc, rfl⟩
  | capEnd template => exact .running ⟨hk template hi _ _ _ hc, rfl⟩
  | done => exact .done ⟨hc, rfl⟩
  | call address =>
    simp only [run, call]
    split
    · exact .running ⟨hc, rfl⟩
    · exact .failed
  | ret =>
    simp only [run, ret]
    cases hr : b.returns with
    | nil => exact .done ⟨hc, by simp only [hr]⟩
    | cons address rest => exact .running ⟨hc, rfl⟩

/-- And so does a step. -/
theorem Alike.step (hk : program.ClosesAlike settings.style style R) (h : Alike R b b') :
    Outcome.Alike R (b.step program events settings)
      (b'.step program events { settings with style := style }) := by
  obtain ⟨c, hc, rfl⟩ := h.exists_eq
  unfold Branch.step
  cases hi : program.get? b.pc with
  | none => exact .done ⟨hc, rfl⟩
  | some i =>
    simp only
    split
    · exact .failed
    · exact alike_run (b := { b with idle := b.idle + 1 }) hk (Program.mem_of_get? hi) hc

end Branch

namespace Session

variable {R : Captures → Captures → Prop} {bs bs' : Array Branch} {b b' : Branch} {i : Nat}

/-! ## Passes -/

/-- The branches at the same places are alike. -/
structure AllAlike (R : Captures → Captures → Prop) (bs bs' : Array Branch) : Prop where
  size : bs'.size = bs.size
  alike : ∀ i (h : i < bs.size) (h' : i < bs'.size), bs[i].Alike R bs'[i]

theorem AllAlike.set (h : AllAlike R bs bs') (hb : b.Alike R b') (hi : i < bs.size)
    (hi' : i < bs'.size) : AllAlike R (bs.set i b) (bs'.set i b') := by
  refine ⟨by simp [h.size], ?_⟩
  intro j hj hj'
  simp only [Array.size_set] at hj hj'
  simp only [Array.getElem_set]
  split
  · exact hb
  · exact h.alike j hj hj'

theorem AllAlike.push (h : AllAlike R bs bs') (hb : b.Alike R b') :
    AllAlike R (bs.push b) (bs'.push b') := by
  refine ⟨by simp [h.size], ?_⟩
  intro j hj hj'
  simp only [Array.getElem_push, h.size]
  split
  · exact h.alike j _ _
  · exact hb

theorem AllAlike.addFork (h : AllAlike R bs bs') (hb : b.Alike R b') (settings : Settings)
    (style : CaptureStyle) :
    AllAlike R (addFork settings bs b)
      (addFork { settings with style := style } bs' b') := by
  unfold Session.addFork
  rw [h.size]
  split
  · exact h.push hb
  · exact h

theorem AllAlike.removeAt (h : AllAlike R bs bs') (hi : i < bs.size) (hi' : i < bs'.size) :
    AllAlike R (removeAt bs i hi) (removeAt bs' i hi') := by
  have hback : (bs.back (Nat.zero_lt_of_lt hi)).Alike R (bs'.back (Nat.zero_lt_of_lt hi')) := by
    simp only [Array.back, h.size]
    exact h.alike _ _ _
  have hset := h.set hback hi hi'
  refine ⟨by simp [h.size], ?_⟩
  intro j hj hj'
  simp only [Keymap.removeAt, Array.getElem_pop]
  exact hset.alike j _ _

theorem AllAlike.settled_iff (h : AllAlike R bs bs') :
    settled bs' = true ↔ settled bs = true := by
  simp only [Session.settled_iff, Array.mem_toList_iff, Array.forall_mem_iff_forall_getElem]
  constructor
  · intro hs j hj
    have hj' : j < bs'.size := h.size ▸ hj
    rw [← (h.alike j hj hj').status_eq, hs j hj']
  · intro hs j hj'
    have hj : j < bs.size := h.size ▸ hj'
    rw [(h.alike j hj hj').status_eq, hs j hj]

/-- Two actions of captures that `R` relates. -/
def ActionsAlike (R : Captures → Captures → Prop) (a a' : Action) : Prop :=
  ∃ c c', R c c' ∧ c.action = a ∧ c'.action = a'

section

variable {program : Program} {events : Array Input} {settings : Settings} {style : CaptureStyle}
  {action action' : Option Action}

/-- Where a branch has a turn, so has the branch at the same place, and the two turns are of the
same kind. -/
theorem AllAlike.exists_step (hk : program.ClosesAlike settings.style style R)
    (h : AllAlike R bs bs') (hi : i < bs.size) (hb : bs[i].status ≠ .blocked)
    {o : Branch.Outcome} (hs : bs[i].step program events settings = o) :
    ∃ hi' : i < bs'.size, bs'[i].status ≠ .blocked
      ∧ ∃ o', bs'[i].step program events { settings with style := style } = o'
        ∧ Branch.Outcome.Alike R o o' := by
  have hi' : i < bs'.size := h.size ▸ hi
  refine ⟨hi', (h.alike i hi hi').status_eq ▸ hb, _, rfl, ?_⟩
  rw [← hs]
  exact (h.alike i hi hi').step hk

/-- A pass over branches that are alike gives each of them the same kind of turn. -/
theorem alike_pass (events : Array Input) (i : Nat)
    (hk : program.ClosesAlike settings.style style R) (h : AllAlike R bs bs')
    (ha : Option.Rel (ActionsAlike R) action action') :
    AllAlike R (pass program events settings bs i action).1
        (pass program events { settings with style := style } bs' i action').1
      ∧ Option.Rel (ActionsAlike R) (pass program events settings bs i action).2
        (pass program events { settings with style := style } bs' i action').2 := by
  fun_induction pass program events settings bs i action generalizing bs' action' with
  | case1 bs i action hi hb ih =>
    have hi' : i < bs'.size := h.size ▸ hi
    rw [pass_of_waits hi' ((h.alike i hi hi').status_eq.trans hb)]
    exact ih h ha
  | case2 bs i action hi hb b hs ih =>
    obtain ⟨hi', hb', o', ho, hstep⟩ := h.exists_step hk hi hb hs
    rw [pass_eq hi' hb', ho]
    cases hstep with
    | running hr => exact ih (h.set hr hi hi') ha
  | case3 bs i action hi hb b hs ih =>
    obtain ⟨hi', hb', o', ho, hstep⟩ := h.exists_step hk hi hb hs
    rw [pass_eq hi' hb', ho]
    cases hstep with
    | blocked hw => exact ih (h.set hw hi hi') ha
  | case4 bs i action hi hb b fork hs ih =>
    obtain ⟨hi', hb', o', ho, hstep⟩ := h.exists_step hk hi hb hs
    rw [pass_eq hi' hb', ho]
    cases hstep with
    | forked hr hf => exact ih ((h.set hr hi hi').addFork hf settings style) ha
  | case5 bs i action hi hb hs ih =>
    obtain ⟨hi', hb', o', ho, hstep⟩ := h.exists_step hk hi hb hs
    rw [pass_eq hi' hb', ho]
    cases hstep with
    | failed => exact ih (h.removeAt hi hi') ha
  | case6 bs i action hi hb b hs ih =>
    obtain ⟨hi', hb', o', ho, hstep⟩ := h.exists_step hk hi hb hs
    rw [pass_eq hi' hb', ho]
    cases hstep with
    | done hd => exact ih (h.removeAt hi hi') (.some ⟨_, _, hd.captures, rfl, rfl⟩)
  | case7 bs i action hi =>
    rw [pass_of_le (h.size ▸ hi)]
    exact ⟨h, ha⟩

theorem settle_of_settled (h : settled (pass program events settings bs 0 action).1 = true) :
    settle program events settings bs action = pass program events settings bs 0 action := by
  rw [settle, if_pos h]

theorem settle_of_not_settled (h : ¬ settled (pass program events settings bs 0 action).1 = true) :
    settle program events settings bs action
      = settle program events settings (pass program events settings bs 0 action).1
        (pass program events settings bs 0 action).2 := by
  rw [settle, if_neg h]

/-- So do all passes together, and there are as many of them. -/
theorem alike_settle (events : Array Input) (hk : program.ClosesAlike settings.style style R)
    (h : AllAlike R bs bs') (ha : Option.Rel (ActionsAlike R) action action') :
    AllAlike R (settle program events settings bs action).1
        (settle program events { settings with style := style } bs' action').1
      ∧ Option.Rel (ActionsAlike R) (settle program events settings bs action).2
        (settle program events { settings with style := style } bs' action').2 := by
  fun_induction settle program events settings bs action generalizing bs' action'
  case case1 bs action left hs =>
    have hleft := alike_pass events 0 hk h ha
    rw [settle_of_settled (hleft.1.settled_iff.mpr hs)]
    exact hleft
  case case2 bs action left hs ih =>
    have hleft := alike_pass events 0 hk h ha
    rw [settle_of_not_settled (mt hleft.1.settled_iff.mp hs)]
    exact ih hleft.1 hleft.2

end

/-! ## Sessions -/

/-- What is asked of a session: to take an event, or to start again. -/
inductive Call where
  | feed (e : Input)
  | reset

/-- The session after a call. -/
def call (s : Session) : Call → Session
  | .feed e => (s.feed e).1
  | .reset => s.reset

/-- The session after some calls. -/
def after (s : Session) (calls : List Call) : Session := calls.foldl call s

/-- No call changes what runs, nor the settings. -/
theorem after_keeps (s : Session) (calls : List Call) :
    (s.after calls).program = s.program ∧ (s.after calls).settings = s.settings := by
  induction calls generalizing s with
  | nil => exact ⟨rfl, rfl⟩
  | cons c calls ih =>
    obtain ⟨hprogram, hsettings⟩ := ih (s.call c)
    cases c <;> exact ⟨hprogram, hsettings⟩

/-- The two sessions differ in their styles, and in the captures of their branches. -/
structure Alike (R : Captures → Captures → Prop) (style : CaptureStyle) (s s' : Session) :
    Prop where
  program : s'.program = s.program
  settings : s'.settings = { s.settings with style := style }
  events : s'.events = s.events
  branches : AllAlike R s.branches s'.branches

variable {s s' : Session} {style : CaptureStyle}

theorem alike_start (hnew : R {} {}) (program : Program) (settings : Settings)
    (style : CaptureStyle) :
    Alike R style (start program settings) (start program { settings with style := style }) := by
  refine ⟨rfl, rfl, rfl, rfl, ?_⟩
  intro i hi hi'
  obtain rfl : i = 0 := by simpa [start] using hi
  exact ⟨hnew, rfl⟩

theorem AllAlike.unblock (h : AllAlike R bs bs') :
    AllAlike R (bs.map Branch.unblock) (bs'.map Branch.unblock) := by
  refine ⟨by simp [h.size], ?_⟩
  intro i hi hi'
  simp only [Array.size_map] at hi hi'
  simp only [Array.getElem_map]
  obtain ⟨c, hc, heq⟩ := (h.alike i hi hi').exists_eq
  rw [heq]
  exact ⟨hc, rfl⟩

theorem Alike.exists_eq (h : Alike R style s s') : ∃ bs', AllAlike R s.branches bs'
    ∧ s' = { s with settings := { s.settings with style := style }, branches := bs' } := by
  refine ⟨s'.branches, h.branches, ?_⟩
  rw [← h.settings, ← h.program, ← h.events]

/-- With an event two sessions remain alike, and their replies are of the same kind. -/
theorem Alike.feed (hk : s.program.ClosesAlike s.settings.style style R) (h : Alike R style s s')
    (e : Input) :
    Alike R style (s.feed e).1 (s'.feed e).1
      ∧ (s'.feed e).2.mayContinue = (s.feed e).2.mayContinue
      ∧ Option.Rel (ActionsAlike R) (s.feed e).2.action (s'.feed e).2.action := by
  obtain ⟨bs', hb, rfl⟩ := h.exists_eq
  obtain ⟨hleft, haction⟩ := alike_settle (s.events.push e) hk hb .none
  refine ⟨⟨rfl, rfl, rfl, hleft.unblock⟩, ?_, haction⟩
  simp only [Session.feed, Array.isEmpty, hleft.size]

theorem Alike.call (hk : s.program.ClosesAlike s.settings.style style R) (hnew : R {} {})
    (h : Alike R style s s') (c : Call) : Alike R style (s.call c) (s'.call c) := by
  cases c with
  | feed e => exact (h.feed hk e).1
  | reset =>
    obtain ⟨bs', -, rfl⟩ := h.exists_eq
    exact alike_start hnew s.program s.settings style

/-- Nor do any calls set them apart. -/
theorem Alike.after (hk : s.program.ClosesAlike s.settings.style style R) (hnew : R {} {})
    (h : Alike R style s s') (calls : List Call) :
    Alike R style (s.after calls) (s'.after calls) := by
  induction calls generalizing s s' with
  | nil => exact h
  | cons c calls ih =>
    obtain ⟨hprogram, hsettings⟩ := s.after_keeps [c]
    exact ih (by rwa [← hprogram, ← hsettings] at hk) (h.call hk hnew c)

end Session

end Keymap
