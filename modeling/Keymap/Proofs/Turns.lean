-- What one pass does: each branch has one turn, and so has each fork that the
-- pass adds, however the array is rearranged meanwhile.
import Keymap.Proofs.BranchTree
import Keymap.Session.Pass
import Mathlib.Data.List.Perm.Basic

namespace Keymap

namespace Branch

/-! ## A turn -/

/-- What a turn leaves of a branch and of the forks that it adds. A branch that
waits has no turn. -/
def turn (program : Program) (events : Array Input) (settings : Settings) (b : Branch) :
    List Branch :=
  if b.status = .blocked then [b]
  else
    match _ : b.step program events settings with
    | .running b' => [b']
    | .forked b' fork => b' :: fork.turn program events settings
    | .blocked b' => [b']
    | .failed => []
    | .done _ => []
termination_by b.stepsLeft events.size settings
decreasing_by exact (follows_of_forked ‹_›).2.steps

/-- The branches that a turn completes: the branch, or forks that it adds. -/
def completed (program : Program) (events : Array Input) (settings : Settings) (b : Branch) :
    List Branch :=
  if b.status = .blocked then []
  else
    match _ : b.step program events settings with
    | .running _ => []
    | .forked _ fork => fork.completed program events settings
    | .blocked _ => []
    | .failed => []
    | .done b' => [b']
termination_by b.stepsLeft events.size settings
decreasing_by exact (follows_of_forked ‹_›).2.steps

variable {program : Program} {events : Array Input} {settings : Settings} {b : Branch}

theorem turn_of_waits (h : b.status = .blocked) : b.turn program events settings = [b] := by
  rw [turn, if_pos h]

theorem turn_eq (h : b.status ≠ .blocked) :
    b.turn program events settings =
      match b.step program events settings with
      | .running b' => [b']
      | .forked b' fork => b' :: fork.turn program events settings
      | .blocked b' => [b']
      | .failed => []
      | .done _ => [] := by
  rw [turn, if_neg h]
  split <;> simp [*]

theorem completed_of_waits (h : b.status = .blocked) :
    b.completed program events settings = [] := by
  rw [completed, if_pos h]

theorem completed_eq (h : b.status ≠ .blocked) :
    b.completed program events settings =
      match b.step program events settings with
      | .running _ => []
      | .forked _ fork => fork.completed program events settings
      | .blocked _ => []
      | .failed => []
      | .done b' => [b'] := by
  rw [completed, if_neg h]
  split <;> simp [*]

end Branch

namespace Session

/-! ## Dropped forks -/

/-- The forks that a pass drops, because there are as many branches as may be. -/
def passDrops (program : Program) (events : Array Input) (settings : Settings)
    (branches : Array Branch) (i : Nat) : List Branch :=
  if h : i < branches.size then
    if branches[i].status = .blocked then
      passDrops program events settings branches (i + 1)
    else
      match hs : branches[i].step program events settings with
      | .running b => passDrops program events settings (branches.set i b) (i + 1)
      | .blocked b => passDrops program events settings (branches.set i b) (i + 1)
      | .forked b fork =>
        let later := passDrops program events settings
          (addFork settings (branches.set i b) fork) (i + 1)
        if branches.size < settings.maxBranches then later else fork :: later
      | .failed => passDrops program events settings (removeAt branches i h) i
      | .done _ => passDrops program events settings (removeAt branches i h) i
  else []
termination_by unvisited events.size settings branches i
decreasing_by
  · exact unvisited_next_lt h
  · rw [unvisited_set h]
    exact unvisited_next_lt h
  · rw [unvisited_set h]
    exact unvisited_next_lt h
  · exact unvisited_forked_lt h hs
  · rw [unvisited_removeAt h]
    exact unvisited_next_lt h
  · rw [unvisited_removeAt h]
    exact unvisited_next_lt h

variable {program : Program} {events : Array Input} {settings : Settings}
  {branches : Array Branch} {i : Nat} {action : Option Action}

theorem passDrops_of_waits (h : i < branches.size) (hb : branches[i].status = .blocked) :
    passDrops program events settings branches i
      = passDrops program events settings branches (i + 1) := by
  rw [passDrops, dif_pos h, if_pos hb]

theorem passDrops_eq (h : i < branches.size) (hb : branches[i].status ≠ .blocked) :
    passDrops program events settings branches i =
      match branches[i].step program events settings with
      | .running b => passDrops program events settings (branches.set i b) (i + 1)
      | .blocked b => passDrops program events settings (branches.set i b) (i + 1)
      | .forked b fork =>
        let later := passDrops program events settings
          (addFork settings (branches.set i b) fork) (i + 1)
        if branches.size < settings.maxBranches then later else fork :: later
      | .failed => passDrops program events settings (removeAt branches i h) i
      | .done _ => passDrops program events settings (removeAt branches i h) i := by
  rw [passDrops, dif_pos h, if_neg hb]
  split <;> simp [*]

theorem passDrops_of_le (h : ¬ i < branches.size) :
    passDrops program events settings branches i = [] := by
  rw [passDrops, dif_neg h]

/-! ## The law of a pass -/

/-- A fork is added after all branches, or else it is dropped. -/
theorem addFork_or_drop (settings : Settings) {j : Nat} (h : j ≤ branches.size) (fork : Branch)
    (later : List Branch) :
    ∃ kept dropped, kept ++ dropped = [fork]
      ∧ (addFork settings branches fork).toList.drop j = branches.toList.drop j ++ kept
      ∧ (if branches.size < settings.maxBranches then later else fork :: later)
        = dropped ++ later := by
  unfold addFork
  split
  · refine ⟨[fork], [], rfl, ?_, rfl⟩
    rw [Array.toList_push, List.drop_append_of_le_length (by simpa using h)]
  · exact ⟨[], [fork], rfl, by simp, rfl⟩

/-- The action after the branches of a list are completed, one after the other. -/
def lastAction (action : Option Action) (completed : List Branch) : Option Action :=
  completed.foldl (fun _ d => some d.captures.action) action

theorem lastAction_append (ds ds' : List Branch) :
    lastAction action (ds ++ ds') = lastAction (lastAction action ds) ds' :=
  List.foldl_append

theorem exists_of_lastAction {ds : List Branch} {a : Action}
    (h : lastAction none ds = some a) : ∃ d ∈ ds, d.captures.action = a := by
  rcases List.eq_nil_or_concat ds with rfl | ⟨ds', d, rfl⟩
  · simp [lastAction] at h
  · refine ⟨d, by simp, ?_⟩
    simpa [lastAction] using h

theorem isSome_lastAction {ds : List Branch} : (lastAction none ds).isSome ↔ ds ≠ [] := by
  rcases List.eq_nil_or_concat ds with rfl | ⟨ds', d, rfl⟩
  · simp [lastAction]
  · simp [lastAction]

variable (program events settings branches i action)

/-- A pass leaves what the turns of its branches leave. A dropped fork misses
its turn. -/
theorem turns_pass :
    ((pass program events settings branches i action).1.toList
        ++ (passDrops program events settings branches i).flatMap
          (Branch.turn program events settings)).Perm
      (branches.toList.take i
        ++ (branches.toList.drop i).flatMap (Branch.turn program events settings)) := by
  rw [List.perm_iff_count]
  intro a
  fun_induction pass program events settings branches i action with
  | case1 branches i action h hb ih =>
    rw [passDrops_of_waits h hb, ih, List.take_succ_eq_append_getElem (by simpa using h),
      drop_eq_cons h]
    simp [Branch.turn_of_waits hb]
  | case2 branches i action h hb b hs ih =>
    rw [passDrops_eq h hb, hs, ih, take_set h, drop_set h, drop_eq_cons h]
    simp [Branch.turn_eq hb, hs]
  | case3 branches i action h hb b hs ih =>
    rw [passDrops_eq h hb, hs, ih, take_set h, drop_set h, drop_eq_cons h]
    simp [Branch.turn_eq hb, hs]
  | case4 branches i action h hb b fork hs ih =>
    have hi : i + 1 ≤ (branches.set i b).size := by simp; omega
    obtain ⟨kept, dropped, hk, ha, hd⟩ := addFork_or_drop settings hi fork
      (passDrops program events settings (addFork settings (branches.set i b) fork) (i + 1))
    rw [Array.size_set] at hd
    rw [ha, take_addFork hi, take_set h, drop_set h] at ih
    rw [passDrops_eq h hb, hs, drop_eq_cons h]
    have hf := congrArg (fun l => (l.flatMap (Branch.turn program events settings)).count a) hk
    simp only [hd, List.flatMap_append, List.flatMap_cons, List.flatMap_nil, List.count_append,
      Branch.turn_eq hb, hs, List.count_cons, List.count_nil] at ih hf ⊢
    omega
  | case5 branches i action h hb hs ih =>
    obtain ⟨ht, hd⟩ := take_drop_removeAt h
    rw [passDrops_eq h hb, hs, ih, ht, drop_eq_cons h]
    simp [Branch.turn_eq hb, hs, (hd.flatMap_right _).count_eq]
  | case6 branches i action h hb b hs ih =>
    obtain ⟨ht, hd⟩ := take_drop_removeAt h
    rw [passDrops_eq h hb, hs, ih, ht, drop_eq_cons h]
    simp [Branch.turn_eq hb, hs, (hd.flatMap_right _).count_eq]
  | case7 branches i action h =>
    rw [passDrops_of_le h, List.take_of_length_le (by simpa using h),
      List.drop_of_length_le (by simpa using h)]

/-- A pass has the action of the branch that was completed last, out of those
that the turns of its branches complete. -/
theorem completed_pass :
    ∃ ds, (pass program events settings branches i action).2 = lastAction action ds
      ∧ (ds ++ (passDrops program events settings branches i).flatMap
          (Branch.completed program events settings)).Perm
        ((branches.toList.drop i).flatMap (Branch.completed program events settings)) := by
  fun_induction pass program events settings branches i action with
  | case1 branches i action h hb ih =>
    obtain ⟨ds, ha, hp⟩ := ih
    refine ⟨ds, ha, ?_⟩
    rw [passDrops_of_waits h hb, drop_eq_cons h]
    simpa [Branch.completed_of_waits hb] using hp
  | case2 branches i action h hb b hs ih =>
    obtain ⟨ds, ha, hp⟩ := ih
    refine ⟨ds, ha, ?_⟩
    rw [drop_set h] at hp
    rw [passDrops_eq h hb, hs, drop_eq_cons h]
    simpa [Branch.completed_eq hb, hs] using hp
  | case3 branches i action h hb b hs ih =>
    obtain ⟨ds, ha, hp⟩ := ih
    refine ⟨ds, ha, ?_⟩
    rw [drop_set h] at hp
    rw [passDrops_eq h hb, hs, drop_eq_cons h]
    simpa [Branch.completed_eq hb, hs] using hp
  | case4 branches i action h hb b fork hs ih =>
    obtain ⟨ds, ha, hp⟩ := ih
    refine ⟨ds, ha, ?_⟩
    have hi : i + 1 ≤ (branches.set i b).size := by simp; omega
    obtain ⟨kept, dropped, hk, hk', hd⟩ := addFork_or_drop settings hi fork
      (passDrops program events settings (addFork settings (branches.set i b) fork) (i + 1))
    rw [Array.size_set] at hd
    rw [hk', drop_set h] at hp
    rw [passDrops_eq h hb, hs, drop_eq_cons h]
    rw [List.perm_iff_count] at hp ⊢
    intro a
    have hf := congrArg (fun l => (l.flatMap (Branch.completed program events settings)).count a) hk
    have hp := hp a
    simp only [hd, List.flatMap_append, List.flatMap_cons, List.flatMap_nil, List.count_append,
      Branch.completed_eq hb, hs, List.count_nil] at hp hf ⊢
    omega
  | case5 branches i action h hb hs ih =>
    obtain ⟨ds, ha, hp⟩ := ih
    refine ⟨ds, ha, ?_⟩
    rw [passDrops_eq h hb, hs, drop_eq_cons h]
    refine hp.trans ?_
    simpa [Branch.completed_eq hb, hs] using (take_drop_removeAt h).2.flatMap_right _
  | case6 branches i action h hb b hs ih =>
    obtain ⟨ds, ha, hp⟩ := ih
    refine ⟨b :: ds, ha, ?_⟩
    rw [passDrops_eq h hb, hs, drop_eq_cons h]
    have hr := hp.trans ((take_drop_removeAt h).2.flatMap_right _)
    simpa [Branch.completed_eq hb, hs] using hr
  | case7 branches i action h =>
    refine ⟨[], rfl, ?_⟩
    rw [passDrops_of_le h, List.drop_of_length_le (by simpa using h)]
    rfl

end Session

end Keymap
