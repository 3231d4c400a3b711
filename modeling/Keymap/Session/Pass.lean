-- Passes over the branches of a session. A pass gives one step to each branch
-- that is running, forks included; passes go on until no branch is running.
import Keymap.Session.Work

namespace Keymap.Session

/-! ## One pass -/

/-- Adds a fork, unless there are as many branches as may be. -/
def addFork (settings : Settings) (branches : Array Branch) (fork : Branch) : Array Branch :=
  if branches.size < settings.maxBranches then branches.push fork else branches

theorem unvisited_addFork_le {events : Nat} {settings : Settings} {branches : Array Branch}
    {i : Nat} (h : i ≤ branches.size) (fork : Branch) :
    unvisited events settings (addFork settings branches fork) i
      ≤ unvisited events settings branches i + (fork.stepsLeft events settings + 1) := by
  unfold addFork
  split
  · exact Nat.le_of_eq (unvisited_push h fork)
  · exact Nat.le_add_right ..

/-- A branch that forks leaves less work, also when its fork is still to come. -/
theorem unvisited_forked_lt {program : Program} {events : Array Input} {settings : Settings}
    {branches : Array Branch} {i : Nat} {b fork : Branch} (h : i < branches.size)
    (hs : branches[i].step program events settings = .forked b fork) :
    unvisited events.size settings (addFork settings (branches.set i b) fork) (i + 1)
      < unvisited events.size settings branches i := by
  have hf := (Branch.follows_of_forked hs).2.steps
  have ha : unvisited events.size settings (addFork settings (branches.set i b) fork) (i + 1)
      ≤ unvisited events.size settings (branches.set i b) (i + 1)
        + (fork.stepsLeft events.size settings + 1) :=
    unvisited_addFork_le (by simp; omega) fork
  rw [unvisited_set h] at ha
  rw [unvisited_eq h]
  omega

/-- Gives a step to each running branch from place `i` on. A fork comes last,
and has its turn in the same pass. A branch that is finished goes away, and
the last branch takes its place. The action is that of the branch completed
last. -/
def pass (program : Program) (events : Array Input) (settings : Settings)
    (branches : Array Branch) (i : Nat) (action : Option Action) :
    Array Branch × Option Action :=
  if h : i < branches.size then
    if branches[i].status = .blocked then
      pass program events settings branches (i + 1) action
    else
      match hs : branches[i].step program events settings with
      | .running b => pass program events settings (branches.set i b) (i + 1) action
      | .blocked b => pass program events settings (branches.set i b) (i + 1) action
      | .forked b fork =>
        pass program events settings (addFork settings (branches.set i b) fork) (i + 1) action
      | .failed => pass program events settings (removeAt branches i h) i action
      | .done b => pass program events settings (removeAt branches i h) i (some b.captures.action)
  else (branches, action)
termination_by unvisited events.size settings branches i
decreasing_by
  · exact unvisited_next_lt h
  · rw [unvisited_set h]
    exact unvisited_next_lt h
  · rw [unvisited_set h]
    exact unvisited_next_lt h
  · exact unvisited_forked_lt h hs
  · rw [unvisited_removeAt h]
    exact unvisited_next_lt h
  · rw [unvisited_removeAt h]
    exact unvisited_next_lt h

/-! ## What a pass leaves -/

variable {program : Program} {events : Array Input} {settings : Settings} {n : Nat}

theorem take_addFork {branches : Array Branch} {i : Nat} (h : i ≤ branches.size) (fork : Branch) :
    (addFork settings branches fork).toList.take i = branches.toList.take i := by
  unfold addFork
  split
  · rw [Array.toList_push, List.take_append_of_le_length (by simpa using h)]
  · rfl

theorem mem_drop_addFork {branches : Array Branch} {i : Nat} (h : i ≤ branches.size)
    {fork b : Branch} (hb : b ∈ (addFork settings branches fork).toList.drop i) :
    b ∈ branches.toList.drop i ∨ b = fork := by
  unfold addFork at hb
  split at hb
  · rw [Array.toList_push, List.drop_append_of_le_length (by simpa using h)] at hb
    simpa using hb
  · exact .inl hb

/-- The turn of a running branch leaves it, and what it follows from, fewer
steps. -/
theorem lt_of_follows {b b' : Branch} {k : Nat} (hr : b.status ≠ .blocked)
    (hu : b.status = .running → b.stepsLeft k settings < n + 1)
    (hf : Branch.Follows k settings b b') : b'.stepsLeft k settings < n := by
  have hs : b.status = .running := by
    cases h : b.status <;> simp_all
  have := hu hs
  have := hf.steps
  omega

/-- Each branch that is visited has fewer steps left after its turn. -/
theorem stepsBelow_pass {branches : Array Branch} {i : Nat} {action : Option Action}
    (hv : StepsBelow events.size settings n (branches.toList.take i))
    (hu : StepsBelow events.size settings (n + 1) (branches.toList.drop i)) :
    StepsBelow events.size settings n
      (pass program events settings branches i action).1.toList := by
  fun_induction pass program events settings branches i action with
  | case1 branches i action h hb ih =>
    rw [List.drop_eq_getElem_cons (by simpa using h)] at hu
    refine ih ?_ (hu.subset (List.subset_cons_self ..))
    rw [List.take_succ_eq_append_getElem (by simpa using h)]
    exact hv.concat fun hr => by simp_all
  | case2 branches i action h hb b hs ih =>
    rw [List.drop_eq_getElem_cons (by simpa using h)] at hu
    refine ih ?_ ?_
    · rw [take_set h]
      exact hv.concat fun _ =>
        lt_of_follows hb (hu _ (List.mem_cons_self ..)) (Branch.follows_of_running hs)
    · rw [Array.toList_set, List.drop_set_of_lt (Nat.lt_succ_self i)]
      exact hu.subset (List.subset_cons_self ..)
  | case3 branches i action h hb b hs ih =>
    rw [List.drop_eq_getElem_cons (by simpa using h)] at hu
    refine ih ?_ ?_
    · rw [take_set h]
      exact hv.concat fun hr => by simp_all [Branch.status_of_blocked hs]
    · rw [Array.toList_set, List.drop_set_of_lt (Nat.lt_succ_self i)]
      exact hu.subset (List.subset_cons_self ..)
  | case4 branches i action h hb b fork hs ih =>
    rw [List.drop_eq_getElem_cons (by simpa using h)] at hu
    have hsize : i + 1 ≤ (branches.set i b).size := by simp; omega
    have hf := Branch.follows_of_forked hs
    refine ih ?_ ?_
    · rw [take_addFork hsize, take_set h]
      exact hv.concat fun _ => lt_of_follows hb (hu _ (List.mem_cons_self ..)) hf.1
    · intro c hc hr
      rcases mem_drop_addFork hsize hc with hm | rfl
      · rw [Array.toList_set, List.drop_set_of_lt (Nat.lt_succ_self i)] at hm
        exact hu c (List.mem_cons_of_mem _ hm) hr
      · exact Nat.lt_succ_of_lt (lt_of_follows hb (hu _ (List.mem_cons_self ..)) hf.2)
  | case5 branches i action h hb hs ih =>
    rw [List.drop_eq_getElem_cons (by simpa using h)] at hu
    obtain ⟨ht, hd⟩ := take_drop_removeAt h
    refine ih (ht ▸ hv) fun c hc => hu c (List.mem_cons_of_mem _ ?_)
    simpa using hd.mem_iff.mp hc
  | case6 branches i action h hb b hs ih =>
    rw [List.drop_eq_getElem_cons (by simpa using h)] at hu
    obtain ⟨ht, hd⟩ := take_drop_removeAt h
    refine ih (ht ▸ hv) fun c hc => hu c (List.mem_cons_of_mem _ ?_)
    simpa using hd.mem_iff.mp hc
  | case7 branches i action h =>
    rwa [List.take_of_length_le (by simpa using h)] at hv

/-! ## All passes -/

/-- No branch is running. -/
def settled (branches : Array Branch) : Bool := branches.all fun b => b.status = .blocked

theorem settled_iff {branches : Array Branch} :
    settled branches = true ↔ ∀ b ∈ branches.toList, b.status = .blocked := by
  simp [settled, Array.forall_mem_iff_forall_getElem]

/-- A pass leaves less work to the branches that are still running. -/
theorem peak_pass_lt {branches : Array Branch} {action : Option Action}
    (h : settled (pass program events settings branches 0 action).1 ≠ true) :
    peak events.size settings (pass program events settings branches 0 action).1.toList
      < peak events.size settings branches.toList := by
  have hpos : peak events.size settings
      (pass program events settings branches 0 action).1.toList ≠ 0 :=
    mt blocked_of_peak_eq_zero (mt settled_iff.mpr h)
  have hu : StepsBelow events.size settings (peak events.size settings branches.toList - 1 + 1)
      branches.toList :=
    (stepsBelow_iff_peak_le.mpr (Nat.le_refl _)).mono (by omega)
  have hle : StepsBelow events.size settings (peak events.size settings branches.toList - 1)
      (pass program events settings branches 0 action).1.toList :=
    stepsBelow_pass (by simp [StepsBelow]) hu
  have := stepsBelow_iff_peak_le.mp hle
  omega

/-- Runs the branches until none is running: at least one pass. -/
def settle (program : Program) (events : Array Input) (settings : Settings)
    (branches : Array Branch) (action : Option Action) : Array Branch × Option Action :=
  let left := pass program events settings branches 0 action
  if settled left.1 then left else settle program events settings left.1 left.2
termination_by peak events.size settings branches.toList
decreasing_by exact peak_pass_lt ‹_›

end Keymap.Session
