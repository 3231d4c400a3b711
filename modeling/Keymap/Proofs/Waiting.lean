-- What waiting costs a branch. The instruction that finds no event and waits for one is counted
-- once when the branch begins to wait, and once more when the event has come.
import Keymap.Proofs.Moments
import Mathlib.Logic.Relation

namespace Keymap

namespace Branch

variable {program : Program} {events : Array Input} {settings : Settings} {b b' : Branch}

/-- The branch after it has consumed an event, with what is kept of it. -/
def took (b : Branch) (v : Value) : Branch :=
  { b with pc := b.pc + 1, consumed := b.consumed + 1, payloads := v :: b.payloads, idle := 0 }

/-- A branch that is where it consumes an event, and has one that is accepted, takes it unless
it has been idle for too long. -/
theorem step_of_consume (settings : Settings) {m : Matcher} {e : Input} {v : Value}
    (hm : program.get? b.pc = some (.consume m)) (he : events[b.consumed]? = some e)
    (hv : m.accept? e = some v) :
    b.step program events settings
      = if b.idle < settings.maxIdleSteps then .running (b.took v) else .failed := by
  by_cases hl : b.idle < settings.maxIdleSteps
  · rw [step_eq_run hm hl, if_pos hl]
    simp [run, Branch.consume, he, hv, took]
  · rw [step, hm, if_neg hl]
    exact if_pos (Nat.not_lt.mp hl)

end Branch

namespace Session

/-! ## The turn of a branch -/

section

variable {program : Program} {events : Array Input} {settings : Settings}
  {branches : Array Branch} {i : Nat} {b b' : Branch}

/-- A pass begins with the branches that it is given. -/
theorem mem_passMoments_self : branches ∈ passMoments program events settings branches i := by
  fun_induction passMoments program events settings branches i with
  | case1 branches i h hi ih => exact ih
  | _ => exact List.mem_cons_self ..

theorem mem_drop_addFork_of_mem {fork : Branch} (h : b ∈ branches.toList.drop i) :
    b ∈ (addFork settings branches fork).toList.drop i := by
  unfold addFork
  split
  · rw [Array.toList_push, List.drop_append]
    exact List.mem_append_left _ h
  · exact h

/-- A running branch that a pass has not visited has its turn in the pass. What it becomes is
among the branches then. -/
theorem exists_moment_of_step (hb : b ∈ branches.toList.drop i) (hr : b.status = .running)
    (hs : b.step program events settings = .running b') :
    ∃ bs ∈ passMoments program events settings branches i, b' ∈ bs.toList := by
  fun_induction passMoments program events settings branches i with
  | case1 branches i h hi ih =>
    rw [drop_eq_cons h] at hb
    rcases List.mem_cons.mp hb with rfl | hb
    · simp [hr] at hi
    · exact ih hb
  | case2 branches i h hi c hc ih =>
    rw [drop_eq_cons h] at hb
    rcases List.mem_cons.mp hb with rfl | hb
    · obtain rfl : c = b' := Branch.Outcome.running.inj (hc.symm.trans hs)
      have hmem : c ∈ (branches.set i c).toList := by
        rw [Array.toList_set]
        exact List.mem_set (by simpa using h) c
      exact ⟨_, List.mem_cons_of_mem _ mem_passMoments_self, hmem⟩
    · obtain ⟨bs, hbs, hm⟩ := ih (by rwa [drop_set h])
      exact ⟨bs, List.mem_cons_of_mem _ hbs, hm⟩
  | case3 branches i h hi c hc ih =>
    rw [drop_eq_cons h] at hb
    rcases List.mem_cons.mp hb with rfl | hb
    · simp [hc] at hs
    · obtain ⟨bs, hbs, hm⟩ := ih (by rwa [drop_set h])
      exact ⟨bs, List.mem_cons_of_mem _ hbs, hm⟩
  | case4 branches i h hi c fork hc ih =>
    rw [drop_eq_cons h] at hb
    rcases List.mem_cons.mp hb with rfl | hb
    · simp [hc] at hs
    · obtain ⟨bs, hbs, hm⟩ := ih (mem_drop_addFork_of_mem (by rwa [drop_set h]))
      exact ⟨bs, List.mem_cons_of_mem _ hbs, hm⟩
  | case5 branches i h hi hc ih =>
    rw [drop_eq_cons h] at hb
    rcases List.mem_cons.mp hb with rfl | hb
    · simp [hc] at hs
    · obtain ⟨bs, hbs, hm⟩ := ih ((take_drop_removeAt h).2.mem_iff.mpr hb)
      exact ⟨bs, List.mem_cons_of_mem _ hbs, hm⟩
  | case6 branches i h hi c hc ih =>
    rw [drop_eq_cons h] at hb
    rcases List.mem_cons.mp hb with rfl | hb
    · simp [hc] at hs
    · obtain ⟨bs, hbs, hm⟩ := ih ((take_drop_removeAt h).2.mem_iff.mpr hb)
      exact ⟨bs, List.mem_cons_of_mem _ hbs, hm⟩
  | case7 branches i h =>
    rw [List.drop_eq_nil_of_le (by simpa using h)] at hb
    cases hb

end

variable {s : Session} {e : Input} {b b' : Branch}

/-- A session gives each of its branches a turn. -/
theorem Quiet.exists_moment_of_step (h : s.Quiet) (hb : b ∈ s.branches.toList)
    (hs : b.step s.program (s.events.push e) s.settings = .running b') :
    ∃ bs ∈ s.moments e, b' ∈ bs.toList := by
  obtain ⟨bs, hbs, hm⟩ := Session.exists_moment_of_step (i := 0) hb (h.running b hb) hs
  refine ⟨bs, ?_, hm⟩
  rw [moments, settleMoments]
  exact List.mem_append_left _ hbs

/-! ## Where a branch has begun to wait -/

/-- The branch has come by steps from one of the branches of the session, while the event was
taken. -/
def Comes (s : Session) (e : Input) (u : Branch) : Prop :=
  ∃ b ∈ s.branches.toList,
    Relation.ReflTransGen (Branch.StepsTo s.program (s.events.push e) s.settings) b u

/-- Each branch after an event has come to where it found no other event. Since then it has been
idle for one step more. -/
theorem Quiet.exists_comes (h : s.Quiet) (hb : b ∈ (s.feed e).1.branches.toList) :
    ∃ u, s.Comes e u ∧ u.idle < s.settings.maxIdleSteps ∧ b = { u with idle := u.idle + 1 }
      ∧ u.step s.program (s.events.push e) s.settings = .blocked { b with status := .blocked } := by
  obtain ⟨w, hw, rfl⟩ := exists_wait_of_feed h.running hb
  have hstart : ∀ b ∈ s.branches.toList, s.Comes e b ∧ b.status = .running := by
    intro b hb
    exact ⟨⟨b, hb, .refl⟩, h.running b hb⟩
  have hsteps : ∀ u u', s.Comes e u ∧ u.status = .running →
      Branch.StepsTo s.program (s.events.push e) s.settings u u' →
        s.Comes e u' ∧ u'.status = .running := by
    rintro u u' ⟨⟨b, hb, hu⟩, hr⟩ hs
    refine ⟨⟨b, hb, hu.tail hs⟩, ?_⟩
    obtain ⟨m, t, -, -, -, rfl⟩ := hs.moves
    exact hr
  obtain ⟨u, ⟨hu, hr⟩, hs⟩ := exists_of_mem_waits hsteps hstart hw
  obtain ⟨-, -, hl, rfl⟩ := Branch.step_blocked_iff.mp hs
  refine ⟨u, hu, hl, ?_, hs⟩
  rw [Branch.unblock, hr]

/-! ## The cost of waiting -/

/-- The instruction at which a branch waits is counted as idle twice: when the branch comes to
it, and again when the event has come. A branch that comes to it after the event consumes the
event. One that has waited there consumes it only if the wait has not made it idle for too
long. -/
theorem waiting_counts_as_an_idle_step (hs : s.Reachable) {earlier : Input}
    (hb : b ∈ (s.feed earlier).1.branches.toList) {m : Matcher} {v : Value}
    (hm : s.program.get? b.pc = some (.consume m)) (hv : m.accept? e = some v) :
    ∃ u, s.Comes earlier u ∧ u.idle < s.settings.maxIdleSteps ∧ b = { u with idle := u.idle + 1 }
      ∧ u.step s.program (s.events.push earlier) s.settings
        = .blocked { b with status := .blocked }
      ∧ u.step s.program ((s.events.push earlier).push e) s.settings = .running (b.took v)
      ∧ b.step s.program ((s.events.push earlier).push e) s.settings
        = (if u.idle + 1 < s.settings.maxIdleSteps then .running (b.took v) else .failed)
      ∧ (u.idle + 1 < s.settings.maxIdleSteps →
        ∃ bs ∈ (s.feed earlier).1.moments e, b.took v ∈ bs.toList) := by
  have hq : (s.feed earlier).1.Quiet := (hs.feed earlier).quiet
  have he : ((s.events.push earlier).push e)[b.consumed]? = some e := by
    have hc : b.consumed = (s.events.push earlier).size := hq.consumed b hb
    rw [hc, Array.getElem?_push_size]
  have hstep := Branch.step_of_consume s.settings hm he hv
  obtain ⟨u, hu, hl, rfl, hwait⟩ := hs.quiet.exists_comes hb
  refine ⟨u, hu, hl, rfl, hwait, ?_, hstep, ?_⟩
  · have hbefore := Branch.step_of_consume (b := u) s.settings hm he hv
    rw [if_pos hl] at hbefore
    exact hbefore
  · intro hidle
    rw [if_pos hidle] at hstep
    exact hq.exists_moment_of_step hb hstep

/-- Two keys, one after the other. -/
def bothKeys : Program :=
  .ofList [.consume (.key (.typed 'a') {}), .consume (.key (.typed 'b') {})]

/-- With two instructions allowed, the branch that waits for the second key consumes it. -/
theorem a_key_is_waited_for_at_a_cost :
    let s := start bothKeys { maxIdleSteps := 2 }
    let b : Branch := { pc := 1, consumed := 1, payloads := [.char 'a'], idle := 1 }
    b ∈ (s.feed (.typed 'a')).1.branches.toList
      ∧ ∃ bs ∈ (s.feed (.typed 'a')).1.moments (.typed 'b'), b.took (.char 'b') ∈ bs.toList := by
  intro s b
  have hs : s.Reachable := .start _ _
  have hb : b ∈ (s.feed (.typed 'a')).1.branches.toList := by decide +kernel
  have hv : (Matcher.key (.typed 'b') {}).accept? (.typed 'b') = some (.char 'b') := by
    decide +kernel
  obtain ⟨u, -, -, heq, -, -, -, hmoment⟩ := waiting_counts_as_an_idle_step hs hb rfl hv
  have hidle : 1 = u.idle + 1 := congrArg Branch.idle heq
  refine ⟨hb, hmoment ?_⟩
  rw [← hidle]
  decide

/-- With one instruction allowed, the branch that waits for the second key is lost when the key
comes. No instruction has run between the two keys. -/
theorem a_branch_that_waits_may_be_lost :
    let s := ((start bothKeys { maxIdleSteps := 1 }).feed (.typed 'a')).1
    (∃ b ∈ s.branches.toList, b.consumed = 1
        ∧ s.program.get? b.pc = some (.consume (.key (.typed 'b') {})))
      ∧ (Matcher.key (.typed 'b') {}).accept? (.typed 'b') = some (.char 'b')
      ∧ (∀ bs ∈ s.moments (.typed 'b'), ∀ b ∈ bs.toList, b.consumed ≠ 2)
      ∧ (s.feed (.typed 'b')).2 = ⟨none, false⟩ := by
  decide +kernel

end Session

end Keymap
