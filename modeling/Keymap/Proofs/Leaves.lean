-- What all passes together do: the branches that are left are the waiting
-- leaves of the trees, and what was completed are their done leaves.
import Keymap.Proofs.Turns
import Keymap.Session

namespace Keymap

variable {program : Program} {events : Array Input} {settings : Settings}

namespace Branch

/-! ## The leaves below a branch -/

/-- Where a branch and its forks come to wait. A branch that waits is there. -/
def waits (program : Program) (events : Array Input) (settings : Settings) (b : Branch) :
    List Branch :=
  if b.status = .blocked then [b] else (b.tree program events settings).waitingLeaves

/-- Where a branch and its forks come to complete their matches. -/
def completes (program : Program) (events : Array Input) (settings : Settings) (b : Branch) :
    List Branch :=
  if b.status = .blocked then [] else (b.tree program events settings).doneLeaves

theorem waits_of_running {b : Branch} (h : b.status = .running) :
    b.waits program events settings = (b.tree program events settings).waitingLeaves := by
  simp [waits, h]

theorem completes_of_running {b : Branch} (h : b.status = .running) :
    b.completes program events settings = (b.tree program events settings).doneLeaves := by
  simp [completes, h]

theorem waits_of_blocked {b : Branch} (h : b.status = .blocked) :
    b.waits program events settings = [b] := by
  simp [waits, h]

theorem completes_of_blocked {b : Branch} (h : b.status = .blocked) :
    b.completes program events settings = [] := by
  simp [completes, h]

theorem flatMap_waits_of_blocked {bs : List Branch} (h : ∀ b ∈ bs, b.status = .blocked) :
    bs.flatMap (waits program events settings) = bs := by
  induction bs with
  | nil => rfl
  | cons b bs ih =>
    rw [List.flatMap_cons, waits_of_blocked (h b (List.mem_cons_self ..)),
      ih fun c hc => h c (List.mem_cons_of_mem _ hc)]
    rfl

theorem flatMap_completes_of_blocked {bs : List Branch} (h : ∀ b ∈ bs, b.status = .blocked) :
    bs.flatMap (completes program events settings) = [] := by
  rw [List.flatMap_eq_nil_iff]
  intro b hb
  exact completes_of_blocked (h b hb)

theorem running_of_ne_blocked {b : Branch} (h : b.status ≠ .blocked) : b.status = .running := by
  cases hs : b.status with
  | running => rfl
  | blocked => exact absurd hs h

theorem waits_eq {b : Branch} (h : b.status ≠ .blocked) :
    b.waits program events settings =
      match b.step program events settings with
      | .running b' => b'.waits program events settings
      | .forked b' fork => b'.waits program events settings ++ fork.waits program events settings
      | .blocked b' => [b']
      | .failed => []
      | .done _ => [] := by
  have hr := running_of_ne_blocked h
  rw [waits_of_running hr, tree_eq]
  cases hs : b.step program events settings with
  | running b' =>
    have hr' := (follows_of_running hs).status.trans hr
    simp [waits_of_running hr', Tree.waitingLeaves]
  | forked b' fork =>
    have hr' := (follows_of_forked hs).1.status.trans hr
    have hf := (follows_of_forked hs).2.status.trans hr
    simp [waits_of_running hr', waits_of_running hf, Tree.waitingLeaves]
  | blocked b' => rfl
  | failed => rfl
  | done b' => rfl

theorem completes_eq {b : Branch} (h : b.status ≠ .blocked) :
    b.completes program events settings =
      match b.step program events settings with
      | .running b' => b'.completes program events settings
      | .forked b' fork =>
        b'.completes program events settings ++ fork.completes program events settings
      | .blocked _ => []
      | .failed => []
      | .done b' => [b'] := by
  have hr := running_of_ne_blocked h
  rw [completes_of_running hr, tree_eq]
  cases hs : b.step program events settings with
  | running b' =>
    have hr' := (follows_of_running hs).status.trans hr
    simp [completes_of_running hr', Tree.doneLeaves]
  | forked b' fork =>
    have hr' := (follows_of_forked hs).1.status.trans hr
    have hf := (follows_of_forked hs).2.status.trans hr
    simp [completes_of_running hr', completes_of_running hf, Tree.doneLeaves]
  | blocked b' => rfl
  | failed => rfl
  | done b' => rfl

/-- A turn loses no waiting leaf, and adds none. -/
theorem waits_turn (b : Branch) :
    (b.turn program events settings).flatMap (waits program events settings)
      = b.waits program events settings := by
  fun_induction turn program events settings b with
  | case1 b hb => simp
  | case2 b hb b' hs => simp [waits_eq hb, hs]
  | case3 b hb b' fork hs ih => simp [waits_eq hb, hs, ih]
  | case4 b hb b' hs => simp [waits_eq hb, hs, waits_of_blocked (status_of_blocked hs)]
  | case5 b hb hs => simp [waits_eq hb, hs]
  | case6 b hb b' hs => simp [waits_eq hb, hs]

/-- What a turn completes, and what it leaves to be completed. -/
theorem completes_turn (b : Branch) :
    (b.completed program events settings
        ++ (b.turn program events settings).flatMap (completes program events settings)).Perm
      (b.completes program events settings) := by
  fun_induction turn program events settings b with
  | case1 b hb => simp [completed_of_waits hb]
  | case2 b hb b' hs => simp [completed_eq hb, completes_eq hb, hs]
  | case3 b hb b' fork hs ih =>
    rw [completed_eq hb, completes_eq hb]
    simp only [hs, List.flatMap_cons]
    exact (List.perm_append_comm_assoc ..).trans (ih.append_left _)
  | case4 b hb b' hs =>
    simp [completed_eq hb, completes_eq hb, hs, completes_of_blocked (status_of_blocked hs)]
  | case5 b hb hs => simp [completed_eq hb, completes_eq hb, hs]
  | case6 b hb b' hs => simp [completed_eq hb, completes_eq hb, hs]

variable (program events settings) in
theorem flatMap_completes_turn (bs : List Branch) :
    (bs.flatMap (completed program events settings)
        ++ (bs.flatMap (turn program events settings)).flatMap
          (completes program events settings)).Perm
      (bs.flatMap (completes program events settings)) := by
  rw [List.flatMap_assoc]
  exact (List.flatMap_append_perm ..).trans (List.Perm.flatMap_left bs fun b _ => completes_turn b)

end Branch

namespace Session

variable {branches : Array Branch} {action : Option Action}

/-! ## Until no branch is running -/

/-- The forks that all passes together drop. -/
def settleDrops (program : Program) (events : Array Input) (settings : Settings)
    (branches : Array Branch) (action : Option Action) : List Branch :=
  let left := pass program events settings branches 0 action
  passDrops program events settings branches 0
    ++ if settled left.1 then [] else settleDrops program events settings left.1 left.2
termination_by peak events.size settings branches.toList
decreasing_by exact peak_pass_lt ‹_›

theorem blocked_settle :
    ∀ b ∈ (settle program events settings branches action).1.toList, b.status = .blocked := by
  fun_induction settle program events settings branches action with
  | case1 branches action left h => exact settled_iff.mp h
  | case2 branches action left h ih => exact ih

variable (program events settings branches action)

/-- One pass keeps the leaves at which branches wait, but for those of the
forks that it drops. -/
theorem waits_pass :
    ((pass program events settings branches 0 action).1.toList.flatMap
          (Branch.waits program events settings)
        ++ (passDrops program events settings branches 0).flatMap
          (Branch.waits program events settings)).Perm
      (branches.toList.flatMap (Branch.waits program events settings)) := by
  have h := turns_pass program events settings branches 0 action
  have h := h.flatMap_right (Branch.waits program events settings)
  simpa [List.flatMap_assoc, Branch.waits_turn] using h

/-- The branches that are left at last are the leaves at which branches wait,
but for those of the dropped forks. -/
theorem waits_settle :
    ((settle program events settings branches action).1.toList
        ++ (settleDrops program events settings branches action).flatMap
          (Branch.waits program events settings)).Perm
      (branches.toList.flatMap (Branch.waits program events settings)) := by
  fun_induction settle program events settings branches action with
  | case1 branches action left h =>
    have hp := waits_pass program events settings branches action
    rw [Branch.flatMap_waits_of_blocked (settled_iff.mp h)] at hp
    rw [settleDrops, if_pos h]
    simpa using hp
  | case2 branches action left h ih =>
    have hp := waits_pass program events settings branches action
    rw [settleDrops, if_neg h, List.flatMap_append]
    refine List.Perm.trans ?_ ((ih.append_right _).trans hp)
    rw [List.append_assoc]
    exact List.perm_append_comm.append_left _

/-- What a pass completes, and what is still to be completed after it. -/
theorem completes_pass :
    ∃ ds, (pass program events settings branches 0 action).2 = lastAction action ds
      ∧ (ds
          ++ (pass program events settings branches 0 action).1.toList.flatMap
            (Branch.completes program events settings)
          ++ (passDrops program events settings branches 0).flatMap
            (Branch.completes program events settings)).Perm
        (branches.toList.flatMap (Branch.completes program events settings)) := by
  obtain ⟨ds, ha, hd⟩ := completed_pass program events settings branches 0 action
  refine ⟨ds, ha, ?_⟩
  have ht := turns_pass program events settings branches 0 action
  have ht := ht.flatMap_right (Branch.completes program events settings)
  have hb := Branch.flatMap_completes_turn program events settings branches.toList
  have hl := Branch.flatMap_completes_turn program events settings
    (passDrops program events settings branches 0)
  rw [List.perm_iff_count] at hd ht hb hl ⊢
  intro a
  have hd := hd a
  have ht := ht a
  have hb := hb a
  have hl := hl a
  simp only [List.drop_zero, List.take_zero, List.nil_append, List.flatMap_append,
    List.count_append] at hd ht hb hl ⊢
  omega

/-- The action at last is that of the branch completed last, out of the leaves
at which matches are complete, but for those of the dropped forks. -/
theorem completes_settle :
    ∃ ds, (settle program events settings branches action).2 = lastAction action ds
      ∧ (ds ++ (settleDrops program events settings branches action).flatMap
          (Branch.completes program events settings)).Perm
        (branches.toList.flatMap (Branch.completes program events settings)) := by
  fun_induction settle program events settings branches action with
  | case1 branches action left h =>
    obtain ⟨ds, ha, hd⟩ := completes_pass program events settings branches action
    refine ⟨ds, ha, ?_⟩
    rw [Branch.flatMap_completes_of_blocked (settled_iff.mp h)] at hd
    rw [settleDrops, if_pos h]
    simpa using hd
  | case2 branches action left h ih =>
    obtain ⟨ds, ha, hd⟩ := completes_pass program events settings branches action
    obtain ⟨ds', ha', hd'⟩ := ih
    refine ⟨ds ++ ds', ?_, ?_⟩
    · rw [lastAction_append, ← ha, ha']
    · rw [settleDrops, if_neg h]
      rw [List.perm_iff_count] at hd hd' ⊢
      intro a
      have hd := hd a
      have hd' := hd' a
      simp only [List.flatMap_append, List.count_append, left] at hd hd' ⊢
      omega

end Session

end Keymap
