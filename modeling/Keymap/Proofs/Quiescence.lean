-- Between two events a session rests: it has nothing left to do, and it never looks at
-- the events again that it has taken.
import Keymap.Proofs.Moments

namespace Keymap

namespace Branch

variable {program : Program} {events events' : Array Input} {settings : Settings} {b : Branch}

/-- A step looks at no event but the next one of its branch. -/
theorem step_congr (h : events[b.consumed]? = events'[b.consumed]?) :
    b.step program events settings = b.step program events' settings := by
  have hrun : ∀ i, run events settings { b with idle := b.idle + 1 } i
      = run events' settings { b with idle := b.idle + 1 } i := by
    intro i
    cases i with
    | consume m => simp only [run, consume, h]
    | _ => rfl
  unfold step
  simp only [hrun]

/-- No branch gives back an event that it has consumed. -/
theorem kept_le_consumed (n : Nat) : Kept program events settings fun b => n ≤ b.consumed := by
  constructor
  · intro b b' hb hs
    obtain ⟨m, t, hm, -, -, rfl⟩ := hs.moves
    have hc : (b.after m t).consumed = b.consumed + m.event?.toList.length := hm.consumed_eq
    omega
  · intro b w hb hw
    obtain ⟨-, -, -, rfl⟩ := step_blocked_iff.mp hw
    exact hb

end Branch

namespace Session

variable {program : Program} {events events' : Array Input} {settings : Settings}
  {branches : Array Branch} {i n : Nat} {action : Option Action}

/-! ## Events that are past -/

/-- A pass looks at no event that all its branches have consumed. -/
theorem pass_congr (he : ∀ k, n ≤ k → events[k]? = events'[k]?)
    (hb : ∀ b ∈ branches.toList, n ≤ b.consumed) :
    pass program events settings branches i action
      = pass program events' settings branches i action := by
  have hk : Branch.Kept program events settings fun b => n ≤ b.consumed :=
    Branch.kept_le_consumed n
  fun_induction pass program events settings branches i action with
  | case1 branches i action h hi ih => rw [ih hb, pass_of_waits h hi]
  | case2 branches i action h hi b hs ih =>
    have hm := hb _ (Array.getElem_mem_toList h)
    have hrun := hk.steps _ _ hm (.goesOn hs)
    rw [ih (forall_mem_set hb hrun), pass_eq h hi, ← Branch.step_congr (he _ hm), hs]
  | case3 branches i action h hi b hs ih =>
    have hm := hb _ (Array.getElem_mem_toList h)
    have hwait := hk.waits _ _ hm hs
    rw [ih (forall_mem_set hb hwait), pass_eq h hi, ← Branch.step_congr (he _ hm), hs]
  | case4 branches i action h hi b fork hs ih =>
    have hm := hb _ (Array.getElem_mem_toList h)
    have hrun := hk.steps _ _ hm (.splits _ hs)
    have hfork := hk.steps _ _ hm (.forks _ hs)
    rw [ih (forall_mem_addFork (forall_mem_set hb hrun) hfork), pass_eq h hi,
      ← Branch.step_congr (he _ hm), hs]
  | case5 branches i action h hi hs ih =>
    have hm := hb _ (Array.getElem_mem_toList h)
    rw [ih (forall_mem_removeAt hb), pass_eq h hi, ← Branch.step_congr (he _ hm), hs]
  | case6 branches i action h hi b hs ih =>
    have hm := hb _ (Array.getElem_mem_toList h)
    rw [ih (forall_mem_removeAt hb), pass_eq h hi, ← Branch.step_congr (he _ hm), hs]
  | case7 branches i action h => rw [pass_of_le h]

/-- Nor do all passes together. -/
theorem settle_congr (he : ∀ k, n ≤ k → events[k]? = events'[k]?)
    (hb : ∀ b ∈ branches.toList, n ≤ b.consumed) :
    settle program events settings branches action
      = settle program events' settings branches action := by
  have hk : Branch.Kept program events settings fun b => n ≤ b.consumed :=
    Branch.kept_le_consumed n
  fun_induction settle program events settings branches action with
  | case1 branches action left h =>
    rw [settle, ← pass_congr he hb, if_pos h]
  | case2 branches action left h ih =>
    rw [ih (forall_mem_pass hb hk)]
    conv => rhs; rw [settle, ← pass_congr he hb, if_neg h]

/-! ## Sessions at rest -/

variable {s : Session}

/-- With other events in the place of those that all branches have consumed, all goes on as
before. -/
theorem Quiet.settle_eq (h : s.Quiet) {events : Array Input}
    (hb : ∀ b ∈ s.branches.toList, b.consumed = events.size) (e : Input) :
    settle s.program (events.push e) s.settings s.branches none
      = settle s.program (s.events.push e) s.settings s.branches none := by
  by_cases hsize : events.size = s.events.size
  · apply settle_congr (n := events.size)
    · intro k hk
      rw [Array.getElem?_push, Array.getElem?_push, hsize, Array.getElem?_eq_none hk,
        Array.getElem?_eq_none (hsize ▸ hk)]
    · intro b hm
      exact Nat.le_of_eq (hb b hm).symm
  · -- The two sizes differ only if there is no branch that has consumed all events.
    apply settle_congr (n := events.size + s.events.size + 1)
    · intro k hk
      rw [Array.getElem?_eq_none (by simp; omega), Array.getElem?_eq_none (by simp; omega)]
    · intro b hm
      exact absurd ((hb b hm).symm.trans (h.consumed b hm)) hsize

/-- Between two events each branch is ready to run, and has consumed all events. After an
event it is where it consumes the next one. What the next event does depends on the
branches alone: with any other events of the same number it does the same. -/
theorem a_session_rests_between_events (h : s.Reachable) :
    (∀ b ∈ s.branches.toList, b.status = .running ∧ b.consumed = s.events.size)
      ∧ (∀ e, ∀ b ∈ (s.feed e).1.branches.toList,
        ∃ m, s.program.get? b.pc = some (.consume m))
      ∧ ∀ (events : Array Input) (e : Input),
        (∀ b ∈ s.branches.toList, b.consumed = events.size) →
          ({ s with events := events }.feed e).2 = (s.feed e).2
            ∧ ({ s with events := events }.feed e).1.branches = (s.feed e).1.branches := by
  have hq := h.quiet
  refine ⟨?_, ?_, ?_⟩
  · intro b hb
    exact ⟨hq.running b hb, hq.consumed b hb⟩
  · intro e b hb
    have hsize : (s.feed e).1.events.size ≠ 0 := by simp [feed]
    exact (hq.feed e).consumes hsize b hb
  · intro events e hb
    have hsettle := hq.settle_eq hb e
    constructor
    · simp only [feed, hsettle]
    · simp only [feed, hsettle]

/-- After `x` has come, two branches wait, and all goes on as if it had been `y`. -/
theorem a_loop_rests_between_events :
    let s := ((start (.ofList [.split 1 3, .consume .any, .jump (-2), .consume .any]) {}).feed
      (.typed 'x')).1
    s.branches.size = 2 ∧ (∀ b ∈ s.branches.toList, b.status = .running ∧ b.consumed = 1)
      ∧ ({ s with events := #[.typed 'y'] }.feed (.typed 'z')).2 = (s.feed (.typed 'z')).2 := by
  intro s
  have hs : s.Reachable := .feed (.start _ _) _
  obtain ⟨hready, -, hpast⟩ := a_session_rests_between_events hs
  have hb : ∀ b ∈ s.branches.toList, b.consumed = (#[.typed 'y'] : Array Input).size :=
    fun b hm => (hready b hm).2
  exact ⟨by decide +kernel, hready, (hpast #[.typed 'y'] (.typed 'z') hb).1⟩

end Session

end Keymap
