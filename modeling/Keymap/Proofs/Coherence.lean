-- A branch is coherent whatever the program is, also one that no pattern is compiled to, which
-- may close captures that were never opened and jump anywhere. Its stacks fit the events that it
-- has consumed and the limits, so that nothing that a step subtracts, adds or looks up is missing.
import Keymap.Proofs.Moments
import Keymap.Proofs.Nesting

namespace Keymap

/-- An instruction of the program that consumes events keeps the value of this event. -/
def Program.Takes (program : Program) (e : Input) (v : Value) : Prop :=
  ∃ address m, program.get? address = some (.consume m) ∧ m.accept? e = some v

namespace Branch

/-! ## Coherent branches -/

/-- What the fields of a branch have to do with the program, the events and the limits. -/
structure Coherent (program : Program) (events : Array Input) (settings : Settings)
    (b : Branch) : Prop where
  consumed_le : b.consumed ≤ events.size
  payloads_length : b.payloads.length = b.consumed
  /-- The oldest payload is that of the first event. -/
  payload : ∀ (i : Nat) (v : Value), b.payloads.reverse[i]? = some v →
    ∃ e, events[i]? = some e ∧ program.Takes e v
  /-- A capture that is opened later has consumed as much or more before it. -/
  marks_sorted : b.marks.Pairwise (· ≥ ·)
  marks_le : ∀ n ∈ b.marks, n ≤ b.consumed
  returns_length_le : b.returns.length ≤ settings.maxCallDepth
  returns_le : ∀ address ∈ b.returns, address ≤ program.size
  idle_le : b.idle ≤ settings.maxIdleSteps

variable {program : Program} {events : Array Input} {settings : Settings} {b b' : Branch}

theorem coherent_start : Coherent program events settings {} where
  consumed_le := Nat.zero_le _
  payloads_length := rfl
  payload i v h := by simp at h
  marks_sorted := .nil
  marks_le n hn := by simp at hn
  returns_length_le := Nat.zero_le _
  returns_le address ha := by simp at ha
  idle_le := Nat.zero_le _

/-- A branch does not look at events that it has not consumed. -/
theorem Coherent.push (h : Coherent program events settings b) (e : Input) :
    Coherent program (events.push e) settings b where
  __ := h
  consumed_le := by
    rw [Array.size_push]
    exact Nat.le_succ_of_le h.consumed_le
  payload i v hv := by
    obtain ⟨e', he, ht⟩ := h.payload i v hv
    refine ⟨e', ?_, ht⟩
    rw [Array.getElem?_push_lt (Array.getElem?_eq_some_iff.mp he).1]
    exact congrArg some (Array.getElem?_eq_some_iff.mp he).2

/-! ## What an instruction keeps -/

/-- One more idle instruction, and another address. -/
theorem Coherent.idles (h : Coherent program events settings b)
    (hl : b.idle < settings.maxIdleSteps) (pc : Nat) (status : Status) :
    Coherent program events settings { b with pc, idle := b.idle + 1, status } where
  __ := h
  idle_le := hl

theorem Coherent.unblock (h : Coherent program events settings b) :
    Coherent program events settings b.unblock :=
  ⟨h.consumed_le, h.payloads_length, h.payload, h.marks_sorted, h.marks_le,
    h.returns_length_le, h.returns_le, h.idle_le⟩

/-- The new mark is not before any other. -/
theorem Coherent.opens (h : Coherent program events settings b) :
    Coherent program events settings { b with marks := b.consumed :: b.marks } where
  __ := h
  marks_sorted := List.pairwise_cons.mpr ⟨h.marks_le, h.marks_sorted⟩
  marks_le := List.forall_mem_cons.mpr ⟨Nat.le_refl _, h.marks_le⟩

theorem Coherent.closes (h : Coherent program events settings b) (style : CaptureStyle)
    (template : String) : Coherent program events settings (b.closeCapture style template) where
  consumed_le := h.consumed_le
  payloads_length := h.payloads_length
  payload := h.payload
  marks_sorted := h.marks_sorted.tail
  marks_le n hn := h.marks_le n (List.mem_of_mem_tail hn)
  returns_length_le := h.returns_length_le
  returns_le := h.returns_le
  idle_le := h.idle_le

theorem Coherent.calls (h : Coherent program events settings b)
    (hd : b.returns.length < settings.maxCallDepth) {address : Nat}
    (ha : address ≤ program.size) :
    Coherent program events settings { b with returns := address :: b.returns } where
  __ := h
  returns_length_le := hd
  returns_le := List.forall_mem_cons.mpr ⟨ha, h.returns_le⟩

theorem Coherent.goesBack (h : Coherent program events settings b) {address : Nat}
    {rest : List Nat} (hr : b.returns = address :: rest) :
    Coherent program events settings { b with returns := rest } where
  __ := h
  returns_length_le := by
    have hle := h.returns_length_le
    rw [hr, List.length_cons] at hle
    exact Nat.le_of_succ_le hle
  returns_le a ha := h.returns_le a (hr ▸ List.mem_cons_of_mem _ ha)

/-- The new payload is on top, and is that of the next event. -/
theorem Coherent.takes (h : Coherent program events settings b) {e : Input} {v : Value}
    (he : events[b.consumed]? = some e) (ht : program.Takes e v) (pc : Nat) :
    Coherent program events settings
      { b with pc, consumed := b.consumed + 1, payloads := v :: b.payloads, idle := 0 } where
  __ := h
  consumed_le := (Array.getElem?_eq_some_iff.mp he).1
  payloads_length := by rw [List.length_cons, h.payloads_length]
  payload i w hw := by
    have hlen : b.payloads.reverse.length = b.consumed := by
      rw [List.length_reverse, h.payloads_length]
    rw [List.reverse_cons, List.getElem?_append] at hw
    split at hw
    · exact h.payload i w hw
    · next hge =>
      rw [hlen] at hw hge
      -- There is nothing above the new payload.
      obtain ⟨hzero, rfl⟩ : i - b.consumed = 0 ∧ v = w := by
        rw [List.getElem?_singleton] at hw
        split at hw <;> simp_all
      obtain rfl : i = b.consumed := by omega
      exact ⟨e, he, ht⟩
  marks_le n hn := Nat.le_succ_of_le (h.marks_le n hn)
  idle_le := Nat.zero_le _

/-! ## Steps -/

/-- Each step that goes on leaves a coherent branch: one case for each instruction. -/
theorem Coherent.stepsTo (h : Coherent program events settings b)
    (hs : StepsTo program events settings b b') : Coherent program events settings b' := by
  obtain ⟨m, t, hm, ha, hl, rfl⟩ := hs.moves
  cases hm with
  | consume hi hv => exact h.takes ha ⟨_, _, hi, hv⟩ _
  | jump hi | splitFirst hi | splitSecond hi => exact h.idles hl _ _
  | capStart hi => exact (h.idles hl _ _).opens
  | capEnd hi => exact (h.idles hl _ _).closes _ _
  | call hi => exact (h.idles hl _ _).calls ha (Program.lt_size hi)
  | ret hi hr => exact (h.idles hl _ _).goesBack hr

theorem kept_coherent : Kept program events settings (Coherent program events settings) where
  steps _ _ := Coherent.stepsTo
  waits b w h hw := by
    obtain ⟨-, -, hl, rfl⟩ := step_blocked_iff.mp hw
    exact h.idles hl _ _

/-- The branches that a step leaves, also one that is complete. -/
def Outcome.branches : Outcome → List Branch
  | .running b => [b]
  | .forked b fork => [b, fork]
  | .blocked b => [b]
  | .failed => []
  | .done b => [b]

/-- A branch that completes its match runs an idle instruction at most. -/
theorem eq_of_step_done {d : Branch} (h : b.step program events settings = .done d) :
    d = b ∨ b.idle < settings.maxIdleSteps ∧ d = { b with idle := b.idle + 1 } := by
  obtain ⟨-, hi | hend⟩ := of_step_done h
  · rw [step, hi] at h
    exact .inl (Outcome.done.inj h).symm
  · right
    -- There is an instruction, and it has not been refused for the idle ones before.
    have hl : b.idle < settings.maxIdleSteps := by
      by_contra hl
      rcases hend with hi | ⟨hi, -⟩ <;> simp [step, hi, Nat.not_lt.mp hl] at h
    refine ⟨hl, ?_⟩
    rcases hend with hi | ⟨hi, hr⟩
    · rw [step_eq_run hi hl] at h
      exact (Outcome.done.inj h).symm
    · rw [step_eq_run hi hl] at h
      simp only [run, Branch.ret, hr, Outcome.done.injEq] at h
      rw [hr, h]

/-- Whatever a step leaves is coherent. -/
theorem Coherent.step (h : Coherent program events settings b) :
    ∀ b' ∈ (b.step program events settings).branches, Coherent program events settings b' := by
  cases hs : b.step program events settings with
  | running b' => exact List.forall_mem_singleton.mpr (h.stepsTo (.goesOn hs))
  | forked b' fork =>
    have hfork := List.forall_mem_singleton.mpr (h.stepsTo (.forks b' hs))
    exact List.forall_mem_cons.mpr ⟨h.stepsTo (.splits fork hs), hfork⟩
  | blocked w => exact List.forall_mem_singleton.mpr (kept_coherent.waits b w h hs)
  | failed => exact List.forall_mem_nil _
  | done d =>
    refine List.forall_mem_singleton.mpr ?_
    rcases eq_of_step_done hs with rfl | ⟨hl, rfl⟩
    · exact h
    · exact h.idles hl _ _

/-! ## What a step reads and counts -/

/-- The number of events before the span of the capture that would close now. -/
def spanStart (b : Branch) : Nat := b.marks.head?.getD b.consumed

/-- A capture can close: its span is what is kept of the events from its start on. -/
structure Closable (b : Branch) : Prop where
  /-- The events of the span can be counted. -/
  start_le : b.spanStart ≤ b.consumed
  /-- Each of them has its payload. -/
  span_eq : b.spanFrom b.spanStart = b.payloads.reverse.drop b.spanStart
  span_length : (b.spanFrom b.spanStart).length = b.consumed - b.spanStart
  /-- The payload of a single event is the one on top. -/
  one : b.consumed - b.spanStart = 1 →
    ∃ v, b.payloads.head? = some v ∧ b.spanFrom b.spanStart = [v]

/-- What an instruction adds one to is not above the limit afterwards. -/
structure Within (program : Program) (events : Array Input) (settings : Settings) (limit : Nat)
    (b : Branch) : Prop where
  pc : ∀ i, program.get? b.pc = some i → b.pc + 1 ≤ limit
  consumed : ∀ e, events[b.consumed]? = some e → b.consumed + 1 ≤ limit
  idle : b.idle < settings.maxIdleSteps → b.idle + 1 ≤ limit

theorem Coherent.closable (h : Coherent program events settings b) : b.Closable := by
  have hstart : b.spanStart ≤ b.consumed := by
    unfold spanStart
    cases hm : b.marks with
    | nil => exact Nat.le_refl _
    | cons n rest => exact h.marks_le n (hm ▸ List.mem_cons_self ..)
  have hspan : b.spanFrom b.spanStart = b.payloads.reverse.drop b.spanStart := by
    rw [spanFrom, ← h.payloads_length, List.drop_reverse]
  have hlen : (b.spanFrom b.spanStart).length = b.consumed - b.spanStart := by
    rw [hspan, List.length_drop, List.length_reverse, h.payloads_length]
  refine ⟨hstart, hspan, hlen, ?_⟩
  intro hone
  have hpos : 0 < b.payloads.length := by
    rw [h.payloads_length]
    omega
  obtain ⟨v, rest, hv⟩ := List.exists_cons_of_length_pos hpos
  refine ⟨v, by rw [hv]; rfl, ?_⟩
  rw [spanFrom, hone, hv]
  rfl

/-- A step goes to the next address behind an instruction, counts an event that has come, and
counts idle instructions as long as there may be more. -/
theorem within {limit : Nat} (hp : program.size ≤ limit) (he : events.size ≤ limit)
    (hs : settings.maxIdleSteps ≤ limit) (b : Branch) :
    b.Within program events settings limit where
  pc _ hi := Nat.le_trans (Program.lt_size hi) hp
  consumed _ h := Nat.le_trans (Array.getElem?_eq_some_iff.mp h).1 he
  idle hl := Nat.le_trans hl hs

end Branch

namespace Session

variable {program : Program} {events : Array Input} {settings : Settings}
  {branches : Array Branch} {i n : Nat} {action : Option Action}

/-! ## The number of branches -/

theorem size_addFork_le (hm : settings.maxBranches ≤ n) (hs : branches.size ≤ n)
    (fork : Branch) : (addFork settings branches fork).size ≤ n := by
  unfold addFork
  split
  · rw [Array.size_push]
    omega
  · exact hs

theorem size_passMoments_le (hm : settings.maxBranches ≤ n) (hs : branches.size ≤ n) :
    ∀ bs ∈ passMoments program events settings branches i, bs.size ≤ n := by
  fun_induction passMoments program events settings branches i with
  | case1 branches i h hi ih => exact ih hs
  | case2 branches i h hi b hb ih =>
    exact List.forall_mem_cons.mpr ⟨hs, ih (Array.size_set h ▸ hs)⟩
  | case3 branches i h hi b hb ih =>
    exact List.forall_mem_cons.mpr ⟨hs, ih (Array.size_set h ▸ hs)⟩
  | case4 branches i h hi b fork hb ih =>
    exact List.forall_mem_cons.mpr ⟨hs, ih (size_addFork_le hm (Array.size_set h ▸ hs) fork)⟩
  | case5 branches i h hi hb ih =>
    refine List.forall_mem_cons.mpr ⟨hs, ih ?_⟩
    rw [size_removeAt]
    omega
  | case6 branches i h hi b hb ih =>
    refine List.forall_mem_cons.mpr ⟨hs, ih ?_⟩
    rw [size_removeAt]
    omega
  | case7 branches i h => exact List.forall_mem_singleton.mpr hs

theorem size_settleMoments_le (hm : settings.maxBranches ≤ n) (hs : branches.size ≤ n) :
    ∀ bs ∈ settleMoments program events settings branches action, bs.size ≤ n := by
  fun_induction settleMoments program events settings branches action with
  | case1 branches action left ih =>
    have hpass : ∀ bs ∈ passMoments program events settings branches 0, bs.size ≤ n :=
      size_passMoments_le hm hs
    intro bs hbs
    rcases List.mem_append.mp hbs with hbs | hbs
    · exact hpass bs hbs
    · split at hbs
      · simp at hbs
      · next hsettled =>
        -- The next pass begins with what this one leaves, which is its last moment.
        have hlast : left.1 ∈ passMoments program events settings branches 0 :=
          List.mem_of_getLast? (getLast?_passMoments action)
        exact ih hsettled (hpass left.1 hlast) bs hbs

/-! ## Coherent sessions -/

/-- The branches are coherent, and no more than a session may have. It has one at least, for it
starts with one. -/
structure Coherent (program : Program) (events : Array Input) (settings : Settings)
    (branches : Array Branch) : Prop where
  size_le : branches.size ≤ max 1 settings.maxBranches
  branch : ∀ b ∈ branches.toList, b.Coherent program events settings

variable {s : Session} {e : Input}

theorem coherent_start (program : Program) (settings : Settings) :
    Coherent program #[] settings (start program settings).branches := by
  refine ⟨Nat.le_max_left .., ?_⟩
  intro b hb
  obtain rfl : b = {} := by simpa [start] using hb
  exact Branch.coherent_start

theorem Coherent.moments (h : Coherent s.program s.events s.settings s.branches) (e : Input) :
    ∀ bs ∈ s.moments e, Coherent s.program (s.events.push e) s.settings bs := by
  intro bs hbs
  refine ⟨size_settleMoments_le (Nat.le_max_right ..) h.size_le bs hbs, ?_⟩
  exact forall_mem_moments Branch.kept_coherent (fun b hb => (h.branch b hb).push e) bs hbs

/-- What is left of the last moment may go on when the next event has come. -/
theorem exists_last_moment (s : Session) (e : Input) :
    ∃ bs ∈ s.moments e, (s.feed e).1.branches = bs.map Branch.unblock :=
  ⟨_, List.mem_of_getLast? getLast?_settleMoments, rfl⟩

theorem Coherent.feed (h : Coherent s.program s.events s.settings s.branches) (e : Input) :
    Coherent s.program (s.events.push e) s.settings (s.feed e).1.branches := by
  obtain ⟨bs, hbs, heq⟩ := exists_last_moment s e
  have hlast := h.moments e bs hbs
  rw [heq]
  refine ⟨by simpa using hlast.size_le, ?_⟩
  intro b hb
  rw [Array.toList_map] at hb
  obtain ⟨w, hw, rfl⟩ := List.mem_map.mp hb
  exact (hlast.branch w hw).unblock

theorem Reachable.coherent (h : s.Reachable) :
    Coherent s.program s.events s.settings s.branches := by
  induction h with
  | start program settings => exact coherent_start program settings
  | feed _ e ih => exact ih.feed e
  | reset _ _ => exact coherent_start _ _

/-- Whatever the program and the settings are, between two events and at each moment while an
event is taken there are no more branches than may be, and each of them is coherent. So is what
its next step leaves. A capture of it can close, and nothing is counted beyond the length of the
program, the number of events and the limit of idle instructions. -/
theorem every_branch_is_coherent (hs : s.Reachable) :
    Coherent s.program s.events s.settings s.branches
      ∧ ∀ e, ∀ bs ∈ s.moments e,
        let events := s.events.push e
        Coherent s.program events s.settings bs
          ∧ ∀ b ∈ bs.toList,
            (∀ b' ∈ (b.step s.program events s.settings).branches,
              b'.Coherent s.program events s.settings)
            ∧ b.Closable
            ∧ ∀ limit, s.program.size ≤ limit → events.size ≤ limit →
              s.settings.maxIdleSteps ≤ limit → b.Within s.program events s.settings limit := by
  refine ⟨hs.coherent, ?_⟩
  intro e bs hbs events
  have hcoherent := hs.coherent.moments e bs hbs
  refine ⟨hcoherent, ?_⟩
  intro b hb
  have hbranch := hcoherent.branch b hb
  refine ⟨hbranch.step, hbranch.closable, ?_⟩
  intro limit hp he hidle
  exact Branch.within hp he hidle b

/-- A program that closes a capture before it has opened one, opens one and closes it twice, and
then jumps to nowhere. -/
def unbalancedProgram : Program :=
  .ofList [.capEnd "$0", .capStart, .consume .any, .capEnd "$0", .capEnd "$0", .jump (-7)]

/-- The capture that closes again has nothing to subtract from. Its span is empty. -/
theorem an_unbalanced_program_has_coherent_branches :
    let s := start unbalancedProgram {}
    (∃ bs ∈ s.moments (.typed 'x'), ∃ b ∈ bs.toList, b.pc = 4 ∧ b.marks = [] ∧ b.consumed = 1)
      ∧ ∀ bs ∈ s.moments (.typed 'x'), bs.size ≤ 1024
        ∧ ∀ b ∈ bs.toList, b.consumed ≤ 1 ∧ b.spanStart ≤ b.consumed ∧ b.idle ≤ 10000
          ∧ b.Within s.program (s.events.push (.typed 'x')) s.settings Branch.outside := by
  intro s
  obtain ⟨-, hall⟩ := every_branch_is_coherent (.start unbalancedProgram {})
  refine ⟨by decide +kernel, ?_⟩
  intro bs hbs
  obtain ⟨hcoherent, hbranches⟩ := hall (.typed 'x') bs hbs
  refine ⟨hcoherent.size_le, ?_⟩
  intro b hb
  obtain ⟨-, hclosable, hwithin⟩ := hbranches b hb
  have hbranch := hcoherent.branch b hb
  refine ⟨hbranch.consumed_le, hclosable.start_le, hbranch.idle_le, ?_⟩
  exact hwithin _ (by decide) (by decide) (by decide)

end Session

end Keymap
