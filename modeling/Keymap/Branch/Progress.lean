-- A branch makes progress: each step leaves it fewer steps to run. It may be
-- idle for so long only, and each event it consumes is one less to come.
import Keymap.Branch

namespace Keymap.Branch

/-- The number of steps that a branch may run at most, while no more events
come than the `events` first ones. -/
def stepsLeft (events : Nat) (settings : Settings) (b : Branch) : Nat :=
  (events - b.consumed) * settings.maxIdleSteps + (settings.maxIdleSteps - b.idle)

variable {program : Program} {events : Array Input} {settings : Settings} {b b' fork : Branch}

theorem stepsLeft_idle_lt {n : Nat} (h : b.idle < settings.maxIdleSteps)
    (hc : b'.consumed = b.consumed) (hi : b'.idle = b.idle + 1) :
    b'.stepsLeft n settings < b.stepsLeft n settings := by
  simp only [stepsLeft, hc, hi]
  omega

/-- A branch that consumes an event may be idle again, with one event less to
come. -/
theorem stepsLeft_consumed_lt {n : Nat} (h : b.idle < settings.maxIdleSteps)
    (hn : b.consumed < n) (hc : b'.consumed = b.consumed + 1) (hi : b'.idle = 0) :
    b'.stepsLeft n settings < b.stepsLeft n settings := by
  have hs : n - b.consumed = (n - (b.consumed + 1)) + 1 := by omega
  simp only [stepsLeft, hc, hi, hs, Nat.succ_mul]
  omega

/-! ## What a step leaves -/

/-- The step leaves `b'`, running as `b` was, with fewer steps to run. -/
structure Follows (events : Nat) (settings : Settings) (b b' : Branch) : Prop where
  status : b'.status = b.status
  steps : b'.stepsLeft events settings < b.stepsLeft events settings

/-- An instruction that consumes nothing and is not the last one of `b`. -/
theorem follows_of_idle (h : b.idle < settings.maxIdleSteps) (hs : b'.status = b.status)
    (hc : b'.consumed = b.consumed) (hi : b'.idle = b.idle + 1) {n : Nat} :
    Follows n settings b b' :=
  ⟨hs, stepsLeft_idle_lt h hc hi⟩

/-- What the outcome of a step of `b` promises. -/
def Outcome.Fits (events : Nat) (settings : Settings) (b : Branch) : Outcome → Prop
  | .running b' => Follows events settings b b'
  | .forked b' fork => Follows events settings b b' ∧ Follows events settings b fork
  | .blocked b' => b'.status = .blocked
  | .failed => True
  | .done _ => True

theorem run_fits (i : Inst) (h : b.idle < settings.maxIdleSteps) :
    (run events settings { b with idle := b.idle + 1 } i).Fits events.size settings b := by
  cases i with
  | consume m =>
    simp only [run, consume]
    split
    · rfl
    · next e he =>
      split
      · trivial
      · have hn : b.consumed < events.size := (Array.getElem?_eq_some_iff.mp he).1
        exact ⟨rfl, stepsLeft_consumed_lt h hn rfl rfl⟩
  | jump offset => apply follows_of_idle h <;> rfl
  | split first second => constructor <;> apply follows_of_idle h <;> rfl
  | capStart => apply follows_of_idle h <;> rfl
  | capEnd template => apply follows_of_idle h <;> rfl
  | done => trivial
  | call address =>
    simp only [run, call]
    split
    · apply follows_of_idle h <;> rfl
    · trivial
  | ret =>
    simp only [run, ret]
    split
    · trivial
    · apply follows_of_idle h <;> rfl

theorem step_fits (program : Program) (events : Array Input) (settings : Settings) (b : Branch) :
    (b.step program events settings).Fits events.size settings b := by
  unfold step
  split
  · trivial
  · split
    · trivial
    · exact run_fits _ (by omega)

/-- A branch that goes on has fewer steps to run. -/
theorem follows_of_running (h : b.step program events settings = .running b') :
    Follows events.size settings b b' := by
  simpa only [h, Outcome.Fits] using step_fits program events settings b

/-- A branch that forks has fewer steps to run, and so has the fork. -/
theorem follows_of_forked (h : b.step program events settings = .forked b' fork) :
    Follows events.size settings b b' ∧ Follows events.size settings b fork := by
  simpa only [h, Outcome.Fits] using step_fits program events settings b

theorem status_of_blocked (h : b.step program events settings = .blocked b') :
    b'.status = .blocked := by
  simpa only [h, Outcome.Fits] using step_fits program events settings b

end Keymap.Branch
