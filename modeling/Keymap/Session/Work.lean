-- How much work is left in a pass over the branches, and in all passes. A
-- pass ends because a fork has fewer steps left than the branch it comes from.
import Keymap.Branch.Progress
import Keymap.Session.Removal

namespace Keymap.Session

variable {events : Nat} {settings : Settings} {branches : Array Branch} {i : Nat}

/-! ## Work in one pass -/

/-- The steps that are left to the branches, and one more for each of them. -/
def work (events : Nat) (settings : Settings) : List Branch → Nat
  | [] => 0
  | b :: bs => b.stepsLeft events settings + 1 + work events settings bs

theorem work_concat (bs : List Branch) (b : Branch) :
    work events settings (bs ++ [b])
      = work events settings bs + (b.stepsLeft events settings + 1) := by
  induction bs with
  | nil => simp [work]
  | cons c cs ih =>
    simp only [List.cons_append, work, ih]
    omega

/-- The order of the branches plays no part. -/
theorem work_perm {bs cs : List Branch} (h : bs.Perm cs) :
    work events settings bs = work events settings cs := by
  induction h with
  | nil => rfl
  | cons b _ ih => simp only [work, ih]
  | swap a b bs =>
    simp only [work]
    omega
  | trans _ _ ih₁ ih₂ => exact ih₁.trans ih₂

/-- The work of the branches that a pass has not visited yet. -/
def unvisited (events : Nat) (settings : Settings) (branches : Array Branch) (i : Nat) : Nat :=
  work events settings (branches.toList.drop i)

theorem unvisited_eq (h : i < branches.size) :
    unvisited events settings branches i
      = branches[i].stepsLeft events settings + 1
        + unvisited events settings branches (i + 1) := by
  unfold unvisited
  rw [List.drop_eq_getElem_cons (by simpa using h), Array.getElem_toList]
  rfl

theorem unvisited_next_lt (h : i < branches.size) :
    unvisited events settings branches (i + 1) < unvisited events settings branches i := by
  rw [unvisited_eq h]
  omega

theorem unvisited_set (h : i < branches.size) (b : Branch) :
    unvisited events settings (branches.set i b) (i + 1)
      = unvisited events settings branches (i + 1) := by
  unfold unvisited
  rw [Array.toList_set, List.drop_set_of_lt (Nat.lt_succ_self i)]

theorem unvisited_push (h : i ≤ branches.size) (b : Branch) :
    unvisited events settings (branches.push b) i
      = unvisited events settings branches i + (b.stepsLeft events settings + 1) := by
  unfold unvisited
  rw [Array.toList_push, List.drop_append_of_le_length (by simpa using h), work_concat]

theorem unvisited_removeAt (h : i < branches.size) :
    unvisited events settings (removeAt branches i h) i
      = unvisited events settings branches (i + 1) :=
  work_perm (take_drop_removeAt h).2

/-! ## Work in all passes -/

/-- The most steps that are left to a running branch, and one more. It is zero
when all branches are blocked. -/
def peak (events : Nat) (settings : Settings) : List Branch → Nat
  | [] => 0
  | b :: bs =>
    max (if b.status = .running then b.stepsLeft events settings + 1 else 0)
      (peak events settings bs)

/-- Every running branch of the list has fewer than `n` steps left. -/
def StepsBelow (events : Nat) (settings : Settings) (n : Nat) (bs : List Branch) : Prop :=
  ∀ b ∈ bs, b.status = .running → b.stepsLeft events settings < n

theorem StepsBelow.subset {n : Nat} {bs cs : List Branch} (h : StepsBelow events settings n bs)
    (hs : cs ⊆ bs) : StepsBelow events settings n cs :=
  fun b hb => h b (hs hb)

theorem StepsBelow.mono {n m : Nat} {bs : List Branch} (h : StepsBelow events settings n bs)
    (hn : n ≤ m) : StepsBelow events settings m bs :=
  fun b hb hr => Nat.lt_of_lt_of_le (h b hb hr) hn

theorem StepsBelow.concat {n : Nat} {bs : List Branch} {b : Branch}
    (h : StepsBelow events settings n bs)
    (hb : b.status = .running → b.stepsLeft events settings < n) :
    StepsBelow events settings n (bs ++ [b]) := by
  intro c hc
  rcases List.mem_append.mp hc with hm | hm
  · exact h c hm
  · rwa [List.mem_singleton.mp hm]

theorem stepsBelow_iff_peak_le {n : Nat} {bs : List Branch} :
    StepsBelow events settings n bs ↔ peak events settings bs ≤ n := by
  induction bs with
  | nil => simp [StepsBelow, peak]
  | cons b bs ih =>
    simp only [StepsBelow, List.forall_mem_cons, peak, Nat.max_le] at ih ⊢
    rw [ih]
    by_cases h : b.status = .running
    · simp only [h, if_true, true_imp_iff]
      exact Iff.rfl
    · simp [h]

/-- With no work left, no branch is running. -/
theorem blocked_of_peak_eq_zero {bs : List Branch} (h : peak events settings bs = 0) :
    ∀ b ∈ bs, b.status = .blocked := by
  have hz : StepsBelow events settings 0 bs := stepsBelow_iff_peak_le.mpr (Nat.le_of_eq h)
  intro b hb
  cases hs : b.status with
  | blocked => rfl
  | running => exact absurd (hz b hb hs) (Nat.not_lt_zero _)

end Keymap.Session
