-- The laws of a session: an event runs each branch as if it were alone, and it
-- takes few passes to do so.
import Keymap.Proofs.Quiet
import Mathlib.Logic.Function.Iterate

namespace Keymap.Session

variable {s : Session}

/-! ## Branch by branch -/

/-- An event runs each branch by itself. The branches after it are the leaves of
the trees at which branches wait, and its action is that of a leaf at which a
match is complete, if there is one. A pass gives each branch and each new fork
one turn. Where forks are dropped, some of the leaves are missing. -/
theorem an_event_runs_each_branch_by_itself (h : s.Reachable) (e : Input) :
    (s.feed e).1.branches.toList.Subperm ((s.waits e).map Branch.unblock)
      ∧ (∀ a, (s.feed e).2.action = some a → ∃ d ∈ s.completes e, d.captures.action = a)
      ∧ (s.drops e = [] →
        (s.feed e).1.branches.toList.Perm ((s.waits e).map Branch.unblock)
          ∧ ((s.feed e).2.action.isSome ↔ s.completes e ≠ []))
      ∧ ∀ branches action,
        let left := pass s.program (s.events.push e) s.settings branches 0 action
        let turns := branches.toList.flatMap
          (Branch.turn s.program (s.events.push e) s.settings)
        left.1.toList.Subperm turns
          ∧ (passDrops s.program (s.events.push e) s.settings branches 0 = [] →
            left.1.toList.Perm turns) := by
  have hr := h.quiet.running
  refine ⟨?_, ?_, ?_, ?_⟩
  · exact (List.sublist_append_left ..).subperm.trans (branches_feed hr e).subperm
  · intro a ha
    exact exists_complete_of_action hr ha
  · intro hn
    exact ⟨branches_feed_of_keeps hr hn, isSome_action_iff hr hn⟩
  · intro branches action
    have ht := turns_pass s.program (s.events.push e) s.settings branches 0 action
    refine ⟨(List.sublist_append_left ..).subperm.trans ht.subperm, ?_⟩
    intro hn
    simpa [hn] using ht

/-- After each character the branches are the two that wait for the next one. -/
theorem a_typed_character_runs_each_branch_by_itself :
    let s := start (.ofList [.split 1 3, .consume .any, .jump (-2), .consume .any]) {}
    (s.feed (.typed 'x')).1.branches.toList.Perm ((s.waits (.typed 'x')).map Branch.unblock)
      ∧ ((s.feed (.typed 'x')).2.action.isSome ↔ s.completes (.typed 'x') ≠ []) := by
  intro s
  have hn : s.drops (.typed 'x') = [] := by decide +kernel
  have hr : s.Reachable := .start _ _
  exact (an_event_runs_each_branch_by_itself hr (.typed 'x')).2.2.1 hn

/-! ## Few passes -/

/-- What some passes leave of the branches of a session, after an event. -/
def passes (s : Session) (e : Input) (n : Nat) : Array Branch × Option Action :=
  (fun left => pass s.program (s.events.push e) s.settings left.1 0 left.2)^[n] (s.branches, none)

/-- There are as many passes as the branches have steps to run, or fewer. -/
theorem exists_passes (program : Program) (events : Array Input) (settings : Settings)
    (branches : Array Branch) (action : Option Action) :
    ∃ n, 0 < n ∧ n ≤ max 1 (peak events.size settings branches.toList)
      ∧ (∀ m, 0 < m → m < n →
        ¬ settled ((fun left => pass program events settings left.1 0 left.2)^[m]
          (branches, action)).1)
      ∧ (fun left => pass program events settings left.1 0 left.2)^[n] (branches, action)
        = settle program events settings branches action := by
  fun_induction settle program events settings branches action with
  | case1 branches action left h =>
    exact ⟨1, Nat.one_pos, Nat.le_max_left .., fun m hm hm' => by omega, rfl⟩
  | case2 branches action left h ih =>
    obtain ⟨n, hn, hle, hbefore, heq⟩ := ih
    have hlt : peak events.size settings left.1.toList
        < peak events.size settings branches.toList := peak_pass_lt h
    have hpos : peak events.size settings left.1.toList ≠ 0 :=
      mt blocked_of_peak_eq_zero (mt settled_iff.mpr h)
    refine ⟨n + 1, Nat.succ_pos n, by omega, ?_, heq⟩
    intro m hm hm'
    obtain ⟨k, rfl⟩ := Nat.exists_eq_succ_of_ne_zero (Nat.ne_of_gt hm)
    rw [Function.iterate_succ_apply]
    rcases Nat.eq_zero_or_pos k with rfl | hk
    · exact h
    · exact hbefore k hk (by omega)

/-- A quiet session has one event more than its branches have consumed. -/
theorem Quiet.peak_le (h : s.Quiet) (e : Input) :
    peak (s.events.push e).size s.settings s.branches.toList
      ≤ 2 * s.settings.maxIdleSteps + 1 := by
  rw [← stepsBelow_iff_peak_le]
  intro b hb _
  have hc := h.consumed b hb
  simp only [Branch.stepsLeft, Array.size_push, hc, Nat.add_sub_cancel_left, Nat.one_mul]
  omega

/-- An event takes at least one pass, and at most two for each instruction that
a branch may run without an event, and one more. After the last pass, and not
before, no branch is running. -/
theorem an_event_takes_few_passes (h : s.Reachable) (e : Input) :
    ∃ n, 0 < n ∧ n ≤ 2 * s.settings.maxIdleSteps + 1
      ∧ (∀ b ∈ (s.passes e n).1.toList, b.status = .blocked)
      ∧ (∀ m, 0 < m → m < n → ∃ b ∈ (s.passes e m).1.toList, b.status = .running)
      ∧ (s.feed e).1.branches = (s.passes e n).1.map Branch.unblock
      ∧ (s.feed e).2 = ⟨(s.passes e n).2, !(s.passes e n).1.isEmpty⟩ := by
  obtain ⟨n, hn, hle, hbefore, heq⟩ :=
    exists_passes s.program (s.events.push e) s.settings s.branches none
  have hp := h.quiet.peak_le e
  have hpass : s.passes e n
      = settle s.program (s.events.push e) s.settings s.branches none := heq
  refine ⟨n, hn, by omega, ?_, ?_, ?_, ?_⟩
  · rw [hpass]
    exact blocked_settle
  · intro m hm hm'
    have hs : ¬ ∀ b ∈ (s.passes e m).1.toList, b.status = .blocked :=
      mt settled_iff.mpr (hbefore m hm hm')
    simp only [not_forall] at hs
    obtain ⟨b, hb, hr⟩ := hs
    exact ⟨b, hb, Branch.running_of_ne_blocked hr⟩
  · rw [hpass]
    rfl
  · rw [hpass]
    rfl

/-- A program that only jumps on the spot. -/
theorem a_loop_takes_few_passes :
    let s := start (.ofList [.jump 0]) { maxIdleSteps := 5 }
    ∃ n, 0 < n ∧ n ≤ 11 ∧ (∀ b ∈ (s.passes (.typed 'x') n).1.toList, b.status = .blocked)
      ∧ (∀ m, 0 < m → m < n →
        ∃ b ∈ (s.passes (.typed 'x') m).1.toList, b.status = .running) := by
  intro s
  have hr : s.Reachable := .start _ _
  obtain ⟨n, hn, hle, hblocked, hrunning, -⟩ := an_event_takes_few_passes hr (.typed 'x')
  exact ⟨n, hn, hle, hblocked, hrunning⟩

end Keymap.Session
