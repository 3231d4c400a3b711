-- Branches that count, while an event is taken, their steps and the splits at which they were the
-- fork. Passes that count do what passes do, and say in addition what was completed, and when.
import Keymap.Proofs.Moments

namespace Keymap

/-! ## Branches that count -/

/-- A branch while an event is taken, with what is counted on its way. What was counted for the
branch that it was forked from counts for it as well. -/
structure Runner where
  branch : Branch
  /-- The steps on its way. -/
  steps : Nat := 0
  /-- The splits on its way at which it was the fork. -/
  forks : Nat := 0
deriving DecidableEq

namespace Runner

/-- The branch after a step. -/
def goesOn (r : Runner) (b : Branch) : Runner := ⟨b, r.steps + 1, r.forks⟩

/-- The fork of the branch after a split. -/
def forksOff (r : Runner) (fork : Branch) : Runner := ⟨fork, r.steps + 1, r.forks + 1⟩

end Runner

/-- A complete match, and the pass in which it was completed. -/
structure Finish extends Runner where
  pass : Nat
deriving DecidableEq

namespace Session

/-! ## Passes that count -/

/-- The branches without what they count. -/
def branchesOf (runners : Array Runner) : Array Branch := runners.map Runner.branch

/-- Adds a fork as a pass does. -/
def addRunner (settings : Settings) (runners : Array Runner) (fork : Runner) : Array Runner :=
  if runners.size < settings.maxBranches then runners.push fork else runners

section

variable {settings : Settings} {runners : Array Runner} {i : Nat}

@[simp] theorem size_branchesOf : (branchesOf runners).size = runners.size := by
  simp [branchesOf]

theorem lt_size_branchesOf (h : i < runners.size) : i < (branchesOf runners).size := by
  rwa [size_branchesOf]

theorem getElem_branchesOf (h : i < runners.size) (h' : i < (branchesOf runners).size) :
    (branchesOf runners)[i] = runners[i].branch := by
  simp [branchesOf]

theorem branchesOf_set (h : i < runners.size) (r : Runner) :
    branchesOf (runners.set i r) = (branchesOf runners).set i r.branch (lt_size_branchesOf h) := by
  simp [branchesOf]

theorem branchesOf_addRunner (fork : Runner) :
    branchesOf (addRunner settings runners fork)
      = addFork settings (branchesOf runners) fork.branch := by
  unfold addRunner addFork
  rw [size_branchesOf]
  split
  · simp [branchesOf]
  · rfl

theorem branchesOf_removeAt (h : i < runners.size) :
    branchesOf (removeAt runners i h)
      = removeAt (branchesOf runners) i (lt_size_branchesOf h) := by
  simp [branchesOf, removeAt, Array.back]

end

/-- What comes of branches that count. -/
structure Log where
  left : Array Runner
  /-- The complete matches, in the order in which they were completed. -/
  finished : List Finish := []
  /-- The forks that there was no place for. -/
  dropped : List Runner := []

/-- A pass after `n` others, from place `i` on. -/
def passLog (program : Program) (events : Array Input) (settings : Settings) (n : Nat)
    (runners : Array Runner) (i : Nat) : Log :=
  if h : i < runners.size then
    if runners[i].branch.status = .blocked then
      passLog program events settings n runners (i + 1)
    else
      match hs : runners[i].branch.step program events settings with
      | .running b =>
        passLog program events settings n (runners.set i (runners[i].goesOn b)) (i + 1)
      | .blocked b =>
        passLog program events settings n (runners.set i (runners[i].goesOn b)) (i + 1)
      | .forked b fork =>
        let later := passLog program events settings n
          (addRunner settings (runners.set i (runners[i].goesOn b)) (runners[i].forksOff fork))
          (i + 1)
        if runners.size < settings.maxBranches then later
        else { later with dropped := runners[i].forksOff fork :: later.dropped }
      | .failed => passLog program events settings n (removeAt runners i h) i
      | .done b =>
        let later := passLog program events settings n (removeAt runners i h) i
        { later with finished := ⟨runners[i].goesOn b, n + 1⟩ :: later.finished }
  else { left := runners }
termination_by unvisited events.size settings (branchesOf runners) i
decreasing_by
  · exact unvisited_next_lt (lt_size_branchesOf h)
  · rw [branchesOf_set, unvisited_set]
    exact unvisited_next_lt (lt_size_branchesOf h)
  · rw [branchesOf_set, unvisited_set]
    exact unvisited_next_lt (lt_size_branchesOf h)
  · have h' := lt_size_branchesOf h
    rw [branchesOf_addRunner, branchesOf_set]
    rw [← getElem_branchesOf h h'] at hs
    exact unvisited_forked_lt h' hs
  · rw [branchesOf_removeAt, unvisited_removeAt]
    exact unvisited_next_lt (lt_size_branchesOf h)
  · rw [branchesOf_removeAt, unvisited_removeAt]
    exact unvisited_next_lt (lt_size_branchesOf h)

variable {program : Program} {events : Array Input} {settings : Settings} {n i : Nat}
  {runners : Array Runner}

/-! ## Without the counts -/

/-- A pass that counts does what a pass does. -/
theorem pass_branchesOf (n : Nat) (action : Option Action) :
    pass program events settings (branchesOf runners) i action
      = (branchesOf (passLog program events settings n runners i).left,
        lastAction action
          ((passLog program events settings n runners i).finished.map fun f => f.branch)) := by
  -- The two have the same branch in each place, and so they take the same turns.
  fun_induction passLog program events settings n runners i generalizing action with
  | case1 runners i h hb ih =>
    have h' := lt_size_branchesOf h
    rw [pass_of_waits h' (by rwa [getElem_branchesOf h]), ih]
  | case2 runners i h hb b hs ih
  | case3 runners i h hb b hs ih =>
    have h' := lt_size_branchesOf h
    rw [← getElem_branchesOf h h'] at hb hs
    rw [pass_eq h' hb, hs, ← ih, branchesOf_set h]
    rfl
  | case4 runners i h hb b fork hs later hroom ih
  | case5 runners i h hb b fork hs later hroom ih =>
    have h' := lt_size_branchesOf h
    rw [← getElem_branchesOf h h'] at hb hs
    rw [pass_eq h' hb, hs, ← ih, branchesOf_addRunner, branchesOf_set h]
    rfl
  | case6 runners i h hb hs ih =>
    have h' := lt_size_branchesOf h
    rw [← getElem_branchesOf h h'] at hb hs
    rw [pass_eq h' hb, hs, ← ih, branchesOf_removeAt h]
  | case7 runners i h hb b hs later ih =>
    have h' := lt_size_branchesOf h
    rw [← getElem_branchesOf h h'] at hb hs
    rw [pass_eq h' hb, hs]
    rw [branchesOf_removeAt h] at ih
    exact ih (some b.captures.action)
  | case8 runners i h =>
    rw [pass_of_le (by rwa [size_branchesOf])]
    rfl

/-- It drops the forks that a pass drops. -/
theorem passDrops_branchesOf (n : Nat) :
    passDrops program events settings (branchesOf runners) i
      = (passLog program events settings n runners i).dropped.map Runner.branch := by
  fun_induction passLog program events settings n runners i with
  | case1 runners i h hb ih =>
    have h' := lt_size_branchesOf h
    rw [passDrops_of_waits h' (by rwa [getElem_branchesOf h]), ih]
  | case2 runners i h hb b hs ih
  | case3 runners i h hb b hs ih =>
    have h' := lt_size_branchesOf h
    rw [← getElem_branchesOf h h'] at hb hs
    rw [passDrops_eq h' hb, hs, ← ih, branchesOf_set h]
    rfl
  | case4 runners i h hb b fork hs later hroom ih =>
    have h' := lt_size_branchesOf h
    rw [← getElem_branchesOf h h'] at hb hs
    rw [passDrops_eq h' hb, hs, ← ih, branchesOf_addRunner, branchesOf_set h]
    exact if_pos (by rwa [size_branchesOf])
  | case5 runners i h hb b fork hs later hroom ih =>
    have h' := lt_size_branchesOf h
    rw [← getElem_branchesOf h h'] at hb hs
    rw [passDrops_eq h' hb, hs, List.map_cons, ← ih, branchesOf_addRunner, branchesOf_set h]
    exact if_neg (by rwa [size_branchesOf])
  | case6 runners i h hb hs ih =>
    have h' := lt_size_branchesOf h
    rw [← getElem_branchesOf h h'] at hb hs
    rw [passDrops_eq h' hb, hs, ← ih, branchesOf_removeAt h]
  | case7 runners i h hb b hs later ih =>
    have h' := lt_size_branchesOf h
    rw [← getElem_branchesOf h h'] at hb hs
    rw [passDrops_eq h' hb, hs]
    rw [branchesOf_removeAt h] at ih
    exact ih
  | case8 runners i h =>
    rw [passDrops_of_le (by rwa [size_branchesOf])]
    rfl

/-! ## All passes -/

/-- A pass leaves less work to the branches that are still running. -/
theorem peak_passLog_lt
    (h : settled (branchesOf (passLog program events settings n runners 0).left) ≠ true) :
    peak events.size settings
        (branchesOf (passLog program events settings n runners 0).left).toList
      < peak events.size settings (branchesOf runners).toList := by
  have hp : (pass program events settings (branchesOf runners) 0 none).1
      = branchesOf (passLog program events settings n runners 0).left := by
    rw [pass_branchesOf n]
  rw [← hp] at h ⊢
  exact peak_pass_lt h

/-- The passes after `n` others, until no branch is running. -/
def settleLog (program : Program) (events : Array Input) (settings : Settings) (n : Nat)
    (runners : Array Runner) : Log :=
  let first := passLog program events settings n runners 0
  if settled (branchesOf first.left) then first
  else
    let later := settleLog program events settings (n + 1) first.left
    { left := later.left
      finished := first.finished ++ later.finished
      dropped := first.dropped ++ later.dropped }
termination_by peak events.size settings (branchesOf runners).toList
decreasing_by exact peak_passLog_lt ‹_›

/-- Passes that count do what passes do. -/
theorem settle_branchesOf (n : Nat) (action : Option Action) :
    settle program events settings (branchesOf runners) action
      = (branchesOf (settleLog program events settings n runners).left,
        lastAction action
          ((settleLog program events settings n runners).finished.map fun f => f.branch)) := by
  fun_induction settleLog program events settings n runners generalizing action with
  | case1 n runners first h =>
    rw [settle, pass_branchesOf n, if_pos h]
  | case2 n runners first h later ih =>
    rw [settle, pass_branchesOf n, if_neg h, ih, List.map_append, lastAction_append]

theorem settleDrops_branchesOf (n : Nat) (action : Option Action) :
    settleDrops program events settings (branchesOf runners) action
      = (settleLog program events settings n runners).dropped.map Runner.branch := by
  fun_induction settleLog program events settings n runners generalizing action with
  | case1 n runners first h =>
    rw [settleDrops, passDrops_branchesOf n, pass_branchesOf n, if_pos h, List.append_nil]
  | case2 n runners first h later ih =>
    rw [settleDrops, passDrops_branchesOf n, pass_branchesOf n, if_neg h, ih, List.map_append]

end Session

end Keymap
