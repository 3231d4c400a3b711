-- The tree of a branch: what becomes of it, and of its forks, while no more
-- events come. Its leaves are the branches that wait, fail or complete.
import Keymap.Branch.Progress

namespace Keymap.Branch

/-- What becomes of a branch and of its forks. -/
inductive Tree where
  /-- It waits for the next event. -/
  | waiting (b : Branch)
  /-- It matches nothing. -/
  | failed
  /-- Its match is complete. -/
  | done (b : Branch)
  /-- It goes on. -/
  | next (rest : Tree)
  /-- It goes on, and so does a fork. -/
  | split (rest fork : Tree)

namespace Tree

/-- The branches that wait at the leaves. -/
def waitingLeaves : Tree → List Branch
  | .waiting b => [b]
  | .failed => []
  | .done _ => []
  | .next rest => rest.waitingLeaves
  | .split rest fork => rest.waitingLeaves ++ fork.waitingLeaves

/-- The branches that are complete at the leaves. -/
def doneLeaves : Tree → List Branch
  | .waiting _ => []
  | .failed => []
  | .done b => [b]
  | .next rest => rest.doneLeaves
  | .split rest fork => rest.doneLeaves ++ fork.doneLeaves

end Tree

/-- The tree of a branch: one step after the other. -/
def tree (program : Program) (events : Array Input) (settings : Settings) (b : Branch) : Tree :=
  match _ : b.step program events settings with
  | .running b' => .next (b'.tree program events settings)
  | .forked b' fork =>
    .split (b'.tree program events settings) (fork.tree program events settings)
  | .blocked b' => .waiting b'
  | .failed => .failed
  | .done b' => .done b'
termination_by b.stepsLeft events.size settings
decreasing_by
  · exact (follows_of_running ‹_›).steps
  · exact (follows_of_forked ‹_›).1.steps
  · exact (follows_of_forked ‹_›).2.steps

variable {program : Program} {events : Array Input} {settings : Settings} {b b' : Branch}

theorem tree_eq :
    b.tree program events settings =
      match b.step program events settings with
      | .running b' => .next (b'.tree program events settings)
      | .forked b' fork =>
        .split (b'.tree program events settings) (fork.tree program events settings)
      | .blocked b' => .waiting b'
      | .failed => .failed
      | .done b' => .done b' := by
  rw [tree]
  split <;> simp [*]

theorem waitingLeaves_of_blocked {w : Branch} (h : b.step program events settings = .blocked w) :
    (b.tree program events settings).waitingLeaves = [w] := by
  rw [tree_eq, h]
  rfl

theorem doneLeaves_of_done {d : Branch} (h : b.step program events settings = .done d) :
    (b.tree program events settings).doneLeaves = [d] := by
  rw [tree_eq, h]
  rfl

/-! ## From the root to the leaves -/

/-- One step makes `b'` of `b`, or adds it as a fork. -/
inductive StepsTo (program : Program) (events : Array Input) (settings : Settings)
    (b : Branch) : Branch → Prop
  | goesOn {b' : Branch} (h : b.step program events settings = .running b') :
    StepsTo program events settings b b'
  | splits {b' : Branch} (fork : Branch) (h : b.step program events settings = .forked b' fork) :
    StepsTo program events settings b b'
  | forks (b' : Branch) {fork : Branch} (h : b.step program events settings = .forked b' fork) :
    StepsTo program events settings b fork

theorem StepsTo.eq_of_running {t : Branch} (h : StepsTo program events settings b b')
    (hs : b.step program events settings = .running t) : b' = t := by
  cases h <;> simp_all

theorem StepsTo.eq_of_forked {t fork : Branch} (h : StepsTo program events settings b b')
    (hs : b.step program events settings = .forked t fork) : b' = t ∨ b' = fork := by
  cases h <;> simp_all

/-- A branch that waits, fails or completes has no step that goes on. -/
theorem StepsTo.running_or_forked (h : StepsTo program events settings b b') :
    (∃ t, b.step program events settings = .running t)
      ∨ ∃ t fork, b.step program events settings = .forked t fork := by
  cases h with
  | goesOn h => exact .inl ⟨_, h⟩
  | splits _ h => exact .inr ⟨_, _, h⟩
  | forks _ h => exact .inr ⟨_, _, h⟩

/-- The leaves after a step are leaves before it. -/
theorem StepsTo.waitingLeaves_subset (h : StepsTo program events settings b b') :
    (b'.tree program events settings).waitingLeaves
      ⊆ (b.tree program events settings).waitingLeaves := by
  cases h with
  | goesOn h => simp [tree_eq (b := b), h, Tree.waitingLeaves]
  | splits _ h => simp [tree_eq (b := b), h, Tree.waitingLeaves]
  | forks _ h => simp [tree_eq (b := b), h, Tree.waitingLeaves]

theorem StepsTo.doneLeaves_subset (h : StepsTo program events settings b b') :
    (b'.tree program events settings).doneLeaves
      ⊆ (b.tree program events settings).doneLeaves := by
  cases h with
  | goesOn h => simp [tree_eq (b := b), h, Tree.doneLeaves]
  | splits _ h => simp [tree_eq (b := b), h, Tree.doneLeaves]
  | forks _ h => simp [tree_eq (b := b), h, Tree.doneLeaves]

/-- What every step keeps holds where a branch begins to wait. -/
theorem exists_of_mem_waitingLeaves {P : Branch → Prop}
    (hP : ∀ b b', P b → StepsTo program events settings b b' → P b') (hb : P b) {w : Branch}
    (hw : w ∈ (b.tree program events settings).waitingLeaves) :
    ∃ b', P b' ∧ b'.step program events settings = .blocked w := by
  fun_induction tree program events settings b with
  | case1 b b' hs ih => exact ih (hP b b' hb (.goesOn hs)) hw
  | case2 b b' fork hs ih ih' =>
    rcases List.mem_append.mp hw with hw | hw
    · exact ih (hP b b' hb (.splits _ hs)) hw
    · exact ih' (hP b fork hb (.forks _ hs)) hw
  | case3 b b' hs =>
    obtain rfl : w = b' := by simpa [Tree.waitingLeaves] using hw
    exact ⟨b, hb, hs⟩
  | case4 b hs => simp [Tree.waitingLeaves] at hw
  | case5 b b' hs => simp [Tree.waitingLeaves] at hw

/-- What every step keeps holds where a branch is complete. -/
theorem exists_of_mem_doneLeaves {P : Branch → Prop}
    (hP : ∀ b b', P b → StepsTo program events settings b b' → P b') (hb : P b) {d : Branch}
    (hd : d ∈ (b.tree program events settings).doneLeaves) :
    ∃ b', P b' ∧ b'.step program events settings = .done d := by
  fun_induction tree program events settings b with
  | case1 b b' hs ih => exact ih (hP b b' hb (.goesOn hs)) hd
  | case2 b b' fork hs ih ih' =>
    rcases List.mem_append.mp hd with hd | hd
    · exact ih (hP b b' hb (.splits _ hs)) hd
    · exact ih' (hP b fork hb (.forks _ hs)) hd
  | case3 b b' hs => simp [Tree.doneLeaves] at hd
  | case4 b hs => simp [Tree.doneLeaves] at hd
  | case5 b b' hs =>
    obtain rfl : d = b' := by simpa [Tree.doneLeaves] using hd
    exact ⟨b, hb, hs⟩

end Keymap.Branch
