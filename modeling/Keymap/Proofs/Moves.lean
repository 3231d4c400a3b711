-- The moves of a branch: what an instruction makes of it, whatever the limits
-- are and whichever events have come. A step is a move that these allow.
import Keymap.Proofs.BranchTree
import Keymap.Proofs.Derivation

namespace Keymap

namespace Branch

/-- The branch with another address. -/
def goto (b : Branch) (pc : Nat) : Branch := { b with pc }

/-- The branch without what only the limits and the session look at. -/
def still (b : Branch) : Branch := { b with idle := 0, status := .running }

/-- One instruction of a branch, and what it makes of the branch. -/
inductive Moves (program : Program) (style : CaptureStyle) : Branch → Move → Branch → Prop
  | consume {b : Branch} {m : Matcher} {e : Input} {v : Value}
    (hi : program.get? b.pc = some (.consume m)) (hv : m.accept? e = some v) :
    Moves program style b (.take e v)
      { b with pc := b.pc + 1, consumed := b.consumed + 1, payloads := v :: b.payloads }
  | jump {b : Branch} {offset : Int} (hi : program.get? b.pc = some (.jump offset)) :
    Moves program style b .quiet (b.goto (target b.pc offset))
  | splitFirst {b : Branch} {first second : Int}
    (hi : program.get? b.pc = some (.split first second)) :
    Moves program style b .quiet (b.goto (target b.pc first))
  | splitSecond {b : Branch} {first second : Int}
    (hi : program.get? b.pc = some (.split first second)) :
    Moves program style b .quiet (b.goto (target b.pc second))
  | capStart {b : Branch} (hi : program.get? b.pc = some .capStart) :
    Moves program style b .quiet { b with pc := b.pc + 1, marks := b.consumed :: b.marks }
  | capEnd {b : Branch} {template : String}
    (hi : program.get? b.pc = some (.capEnd template)) :
    Moves program style b .quiet (closeCapture style template (b.goto (b.pc + 1)))
  | call {b : Branch} {address : Nat} (hi : program.get? b.pc = some (.call address)) :
    Moves program style b .enter { b with pc := address, returns := (b.pc + 1) :: b.returns }
  | ret {b : Branch} {address : Nat} {rest : List Nat}
    (hi : program.get? b.pc = some .ret) (hr : b.returns = address :: rest) :
    Moves program style b .leave { b with pc := address, returns := rest }

end Branch

/-- The input and the depth of calls allow a branch the move. -/
def Move.Allowed (events : Array Input) (settings : Settings) (b : Branch) : Move → Prop
  | .take e _ => events[b.consumed]? = some e
  | .enter => b.returns.length < settings.maxCallDepth
  | .leave => True
  | .quiet => True

/-- The idle instructions after a move. -/
def Move.idle (idle : Nat) : Move → Nat
  | .take _ _ => 0
  | .enter => idle + 1
  | .leave => idle + 1
  | .quiet => idle + 1

namespace Branch

variable {program : Program} {events : Array Input} {settings : Settings} {b b' : Branch}

/-- The branch that has become `t`, with the idle instructions that a move
leaves. -/
def after (b : Branch) (m : Move) (t : Branch) : Branch :=
  { t with idle := m.idle b.idle, status := b.status }

/-- A branch that can run an instruction is not at the end and not idle for
too long. -/
theorem step_eq_run {i : Inst} (hi : program.get? b.pc = some i)
    (hl : b.idle < settings.maxIdleSteps) :
    b.step program events settings = run events settings { b with idle := b.idle + 1 } i := by
  rw [step, hi]
  exact if_neg (Nat.not_le.mpr hl)

/-- A move that the input and the limits allow is a step. -/
theorem stepsTo_of_moves {m : Move} {t : Branch} (hm : Moves program settings.style b.still m t)
    (ha : m.Allowed events settings b) (hl : b.idle < settings.maxIdleSteps) :
    StepsTo program events settings b (b.after m t) := by
  cases hm with
  | consume hi hv =>
    refine .goesOn ((step_eq_run (b := b) hi hl).trans ?_)
    simp only [Move.Allowed] at ha
    simp [run, Branch.consume, ha, hv, after, still, Move.idle]
  | jump hi => exact .goesOn (step_eq_run (b := b) hi hl)
  | splitFirst hi => exact .splits _ (step_eq_run (b := b) hi hl)
  | splitSecond hi => exact .forks _ (step_eq_run (b := b) hi hl)
  | capStart hi => exact .goesOn (step_eq_run (b := b) hi hl)
  | capEnd hi => exact .goesOn (step_eq_run (b := b) hi hl)
  | call hi => exact .goesOn ((step_eq_run (b := b) hi hl).trans (if_pos ha))
  | @ret address rest hi hr =>
    have hr : b.returns = address :: rest := hr
    refine .goesOn ((step_eq_run (b := b) hi hl).trans ?_)
    simp [run, Branch.ret, hr, after, still, Move.idle]

/-- A step that goes on runs an instruction. -/
theorem StepsTo.exists_run (h : StepsTo program events settings b b') :
    ∃ i, program.get? b.pc = some i ∧ b.idle < settings.maxIdleSteps
      ∧ b.step program events settings
        = run events settings { b with idle := b.idle + 1 } i := by
  have hs := h.running_or_forked
  unfold step at *
  cases hi : program.get? b.pc with
  | none => simp [hi] at hs
  | some i =>
    by_cases hl : settings.maxIdleSteps ≤ b.idle
    · simp [hi, hl] at hs
    · exact ⟨i, rfl, Nat.not_le.mp hl, by simp [hl]⟩

/-- A step is a move that the input and the limits allow. -/
theorem StepsTo.moves (h : StepsTo program events settings b b') :
    ∃ m t, Moves program settings.style b.still m t ∧ m.Allowed events settings b
      ∧ b.idle < settings.maxIdleSteps ∧ b' = b.after m t := by
  obtain ⟨i, hi, hl, hs⟩ := h.exists_run
  have hgo := h.running_or_forked
  rw [hs] at hgo
  cases i with
  | consume m =>
    simp only [run, Branch.consume] at hs hgo
    split at hs
    · simp_all
    · next e he =>
      split at hs
      · simp_all
      · next v hv => exact ⟨.take e v, _, .consume hi hv, he, hl, h.eq_of_running hs⟩
  | jump offset => exact ⟨.quiet, _, .jump hi, trivial, hl, h.eq_of_running hs⟩
  | split first second =>
    rcases h.eq_of_forked hs with ht | ht
    · exact ⟨.quiet, _, .splitFirst hi, trivial, hl, ht⟩
    · exact ⟨.quiet, _, .splitSecond hi, trivial, hl, ht⟩
  | capStart => exact ⟨.quiet, _, .capStart hi, trivial, hl, h.eq_of_running hs⟩
  | capEnd template => exact ⟨.quiet, _, .capEnd hi, trivial, hl, h.eq_of_running hs⟩
  | done => simp [run] at hgo
  | call address =>
    simp only [run, Branch.call] at hs hgo
    split at hs
    · next hd => exact ⟨.enter, _, .call hi, hd, hl, h.eq_of_running hs⟩
    · simp_all
  | ret =>
    simp only [run, Branch.ret] at hs hgo
    split at hs
    · simp_all
    · next address rest hr => exact ⟨.leave, _, .ret hi hr, trivial, hl, h.eq_of_running hs⟩

/-- A move changes neither the idle instructions nor the status. -/
theorem Moves.still_eq {style : CaptureStyle} {m : Move} {t : Branch}
    (hm : Moves program style b.still m t) : t.still = t := by
  cases hm <;> rfl

theorem Moves.still_after {style : CaptureStyle} {m : Move} {t : Branch}
    (hm : Moves program style b.still m t) : (b.after m t).still = t :=
  hm.still_eq

theorem Moves.consumed_eq {style : CaptureStyle} {m : Move} {t : Branch}
    (hm : Moves program style b m t) : t.consumed = b.consumed + m.event?.toList.length := by
  cases hm <;> rfl

/-! ## What an instruction does -/

section

variable {style : CaptureStyle} {m : Move}

theorem Moves.of_consume {matcher : Matcher} (hm : Moves program style b m b')
    (hi : program.get? b.pc = some (.consume matcher)) :
    ∃ e v, matcher.accept? e = some v ∧ m = .take e v
      ∧ b' = { b with
          pc := b.pc + 1, consumed := b.consumed + 1, payloads := v :: b.payloads } := by
  cases hm <;> simp_all

theorem Moves.of_jump {offset : Int} (hm : Moves program style b m b')
    (hi : program.get? b.pc = some (.jump offset)) :
    m = .quiet ∧ b' = b.goto (target b.pc offset) := by
  cases hm <;> simp_all

theorem Moves.of_split {first second : Int} (hm : Moves program style b m b')
    (hi : program.get? b.pc = some (.split first second)) :
    m = .quiet ∧ (b' = b.goto (target b.pc first) ∨ b' = b.goto (target b.pc second)) := by
  cases hm <;> simp_all

theorem Moves.of_capStart (hm : Moves program style b m b')
    (hi : program.get? b.pc = some .capStart) :
    m = .quiet ∧ b' = { b with pc := b.pc + 1, marks := b.consumed :: b.marks } := by
  cases hm <;> simp_all

theorem Moves.of_capEnd {template : String} (hm : Moves program style b m b')
    (hi : program.get? b.pc = some (.capEnd template)) :
    m = .quiet ∧ b' = closeCapture style template (b.goto (b.pc + 1)) := by
  cases hm <;> simp_all

theorem Moves.of_done (hi : program.get? b.pc = some .done) : ¬ Moves program style b m b' := by
  intro hm
  cases hm <;> simp_all

theorem Moves.of_call {address : Nat} (hm : Moves program style b m b')
    (hi : program.get? b.pc = some (.call address)) :
    m = .enter ∧ b' = { b with pc := address, returns := (b.pc + 1) :: b.returns } := by
  cases hm <;> simp_all

theorem Moves.of_ret (hm : Moves program style b m b') (hi : program.get? b.pc = some .ret) :
    m = .leave ∧ ∃ address rest, b.returns = address :: rest
      ∧ b' = { b with pc := address, returns := rest } := by
  cases hm <;> simp_all

end

/-! ## Where a branch stops -/

/-- A branch begins to wait where it would consume an event that has not come. -/
theorem step_blocked_iff {w : Branch} :
    b.step program events settings = .blocked w ↔
      (∃ m, program.get? b.pc = some (.consume m)) ∧ events[b.consumed]? = none
        ∧ b.idle < settings.maxIdleSteps
        ∧ w = { b with idle := b.idle + 1, status := .blocked } := by
  constructor
  · intro h
    unfold step at h
    split at h
    · simp at h
    · next i hi =>
      split at h
      · simp at h
      · next hl =>
        cases i with
        | consume m =>
          simp only [run, Branch.consume] at h
          split at h
          · next he =>
            simp only [Outcome.blocked.injEq] at h
            exact ⟨⟨m, hi⟩, he, Nat.not_le.mp hl, h.symm⟩
          · split at h <;> simp at h
        | call address =>
          simp only [run, Branch.call] at h
          split at h <;> simp at h
        | ret =>
          simp only [run, Branch.ret] at h
          split at h <;> simp at h
        | _ => simp [run] at h
  · rintro ⟨⟨m, hi⟩, he, hl, rfl⟩
    rw [step_eq_run hi hl]
    simp [run, Branch.consume, he]

/-- The match is complete: past the last instruction, at the instruction that
says so, or where a rule has no caller to go back to. -/
def Complete (program : Program) (b : Branch) : Prop :=
  program.get? b.pc = none ∨ program.get? b.pc = some .done
    ∨ program.get? b.pc = some .ret ∧ b.returns = []

theorem Complete.exists_step (h : Complete program b) (hl : b.idle < settings.maxIdleSteps) :
    ∃ d, b.step program events settings = .done d := by
  rcases h with hi | hi | ⟨hi, hr⟩
  · exact ⟨b, by rw [step, hi]⟩
  · exact ⟨_, step_eq_run hi hl⟩
  · refine ⟨{ b with idle := b.idle + 1 }, (step_eq_run hi hl).trans ?_⟩
    simp [run, Branch.ret, hr]

theorem consumed_of_still_eq {d : Branch} (h : d.still = b.still) : d.consumed = b.consumed := by
  have hc : d.still.consumed = b.still.consumed := congrArg Branch.consumed h
  exact hc

theorem of_step_done {d : Branch} (h : b.step program events settings = .done d) :
    d.still = b.still ∧ Complete program b := by
  unfold step at h
  split at h
  · next hi =>
    simp only [Outcome.done.injEq] at h
    exact ⟨by rw [h], .inl hi⟩
  · next i hi =>
    split at h
    · simp at h
    · cases i with
      | consume m =>
        simp only [run, Branch.consume] at h
        split at h
        · simp at h
        · split at h <;> simp at h
      | call address =>
        simp only [run, Branch.call] at h
        split at h <;> simp at h
      | ret =>
        simp only [run, Branch.ret] at h
        split at h
        · next hr =>
          simp only [Outcome.done.injEq] at h
          exact ⟨by rw [← h]; rfl, .inr (.inr ⟨hi, hr⟩)⟩
        · simp at h
      | done =>
        simp only [run, Outcome.done.injEq] at h
        exact ⟨by rw [← h]; rfl, .inr (.inl hi)⟩
      | _ => simp [run] at h

end Branch

end Keymap
