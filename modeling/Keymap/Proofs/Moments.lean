-- Every moment of a session: the branches as they are before each turn of each pass.
-- What each step keeps, and what waiting keeps, holds of all branches at all moments.
import Keymap.Proofs.Quiet

namespace Keymap

namespace Branch

/-- Neither a step nor the beginning of a wait loses the property. -/
structure Kept (program : Program) (events : Array Input) (settings : Settings)
    (P : Branch → Prop) : Prop where
  steps : ∀ b b', P b → StepsTo program events settings b b' → P b'
  waits : ∀ b w, P b → b.step program events settings = .blocked w → P w

variable {program : Program} {events : Array Input} {settings : Settings}

/-- A property that every move keeps, of a branch without what only the limits look at. -/
theorem kept_of_moves {P : Branch → Prop}
    (h : ∀ b m b', P b → Moves program settings.style b m b' → P b') :
    Kept program events settings fun b => P b.still := by
  constructor
  · intro b b' hb hs
    obtain ⟨m, t, hm, -, -, rfl⟩ := hs.moves
    rw [hm.still_after]
    exact h _ m t hb hm
  · intro b w hb hw
    obtain ⟨-, -, -, rfl⟩ := step_blocked_iff.mp hw
    exact hb

/-- A turn leaves only branches with the property. -/
theorem Kept.turn {P : Branch → Prop} {b : Branch} (hk : Kept program events settings P)
    (hb : P b) : ∀ t ∈ b.turn program events settings, P t := by
  fun_induction Branch.turn program events settings b with
  | case1 b hw => exact List.forall_mem_singleton.mpr hb
  | case2 b hw b' hs => exact List.forall_mem_singleton.mpr (hk.steps _ _ hb (.goesOn hs))
  | case3 b hw b' fork hs ih =>
    have hfork := ih (hk.steps _ _ hb (.forks _ hs))
    exact List.forall_mem_cons.mpr ⟨hk.steps _ _ hb (.splits _ hs), hfork⟩
  | case4 b hw b' hs => exact List.forall_mem_singleton.mpr (hk.waits _ _ hb hs)
  | case5 b hw hs => exact List.forall_mem_nil _
  | case6 b hw b' hs => exact List.forall_mem_nil _

end Branch

namespace Session

variable {program : Program} {events : Array Input} {settings : Settings}
  {branches : Array Branch} {i : Nat} {action : Option Action}

/-! ## Moments of a pass -/

/-- The branches before each turn of a pass, and after the last one. -/
def passMoments (program : Program) (events : Array Input) (settings : Settings)
    (branches : Array Branch) (i : Nat) : List (Array Branch) :=
  if h : i < branches.size then
    if branches[i].status = .blocked then
      passMoments program events settings branches (i + 1)
    else
      match hs : branches[i].step program events settings with
      | .running b => branches :: passMoments program events settings (branches.set i b) (i + 1)
      | .blocked b => branches :: passMoments program events settings (branches.set i b) (i + 1)
      | .forked b fork =>
        branches :: passMoments program events settings
          (addFork settings (branches.set i b) fork) (i + 1)
      | .failed => branches :: passMoments program events settings (removeAt branches i h) i
      | .done _ => branches :: passMoments program events settings (removeAt branches i h) i
  else [branches]
termination_by unvisited events.size settings branches i
decreasing_by
  · exact unvisited_next_lt h
  · rw [unvisited_set h]
    exact unvisited_next_lt h
  · rw [unvisited_set h]
    exact unvisited_next_lt h
  · exact unvisited_forked_lt h hs
  · rw [unvisited_removeAt h]
    exact unvisited_next_lt h
  · rw [unvisited_removeAt h]
    exact unvisited_next_lt h

/-- The branches before each turn of each pass, and those that are left. -/
def settleMoments (program : Program) (events : Array Input) (settings : Settings)
    (branches : Array Branch) (action : Option Action) : List (Array Branch) :=
  let left := pass program events settings branches 0 action
  passMoments program events settings branches 0
    ++ if settled left.1 then [] else settleMoments program events settings left.1 left.2
termination_by peak events.size settings branches.toList
decreasing_by exact peak_pass_lt ‹_›

theorem pass_of_waits (h : i < branches.size) (hb : branches[i].status = .blocked) :
    pass program events settings branches i action
      = pass program events settings branches (i + 1) action := by
  rw [pass, dif_pos h, if_pos hb]

theorem pass_eq (h : i < branches.size) (hb : branches[i].status ≠ .blocked) :
    pass program events settings branches i action =
      match branches[i].step program events settings with
      | .running b => pass program events settings (branches.set i b) (i + 1) action
      | .blocked b => pass program events settings (branches.set i b) (i + 1) action
      | .forked b fork =>
        pass program events settings (addFork settings (branches.set i b) fork) (i + 1) action
      | .failed => pass program events settings (removeAt branches i h) i action
      | .done b =>
        pass program events settings (removeAt branches i h) i (some b.captures.action) := by
  rw [pass, dif_pos h, if_neg hb]
  split <;> simp [*]

theorem pass_of_le (h : ¬ i < branches.size) :
    pass program events settings branches i action = (branches, action) := by
  rw [pass, dif_neg h]

/-- A pass leaves the branches of its last moment. -/
theorem getLast?_passMoments (action : Option Action) :
    (passMoments program events settings branches i).getLast?
      = some (pass program events settings branches i action).1 := by
  fun_induction passMoments program events settings branches i generalizing action with
  | case1 branches i h hi ih => rw [ih action, pass_of_waits h hi]
  | case2 branches i h hi b hs ih => simp [List.getLast?_cons, ih action, pass_eq h hi, hs]
  | case3 branches i h hi b hs ih => simp [List.getLast?_cons, ih action, pass_eq h hi, hs]
  | case4 branches i h hi b fork hs ih => simp [List.getLast?_cons, ih action, pass_eq h hi, hs]
  | case5 branches i h hi hs ih => simp [List.getLast?_cons, ih action, pass_eq h hi, hs]
  | case6 branches i h hi b hs ih =>
    simp [List.getLast?_cons, ih (some b.captures.action), pass_eq h hi, hs]
  | case7 branches i h => simp [pass_of_le h]

/-- All passes together leave the branches of their last moment. -/
theorem getLast?_settleMoments :
    (settleMoments program events settings branches action).getLast?
      = some (settle program events settings branches action).1 := by
  fun_induction settle program events settings branches action with
  | case1 branches action left h =>
    rw [settleMoments, if_pos h, List.append_nil]
    exact getLast?_passMoments action
  | case2 branches action left h ih =>
    rw [settleMoments, if_neg h, List.getLast?_append, ih]
    rfl

/-! ## What holds at every moment -/

section

variable {P : Branch → Prop} (hb : ∀ b ∈ branches.toList, P b)

include hb

theorem forall_mem_set {h : i < branches.size} {b : Branch} (hn : P b) :
    ∀ c ∈ (branches.set i b).toList, P c := by
  intro c hc
  rw [Array.toList_set] at hc
  rcases List.mem_or_eq_of_mem_set hc with hc | rfl
  · exact hb c hc
  · exact hn

theorem forall_mem_addFork {fork : Branch} (hn : P fork) :
    ∀ c ∈ (addFork settings branches fork).toList, P c := by
  intro c hc
  unfold addFork at hc
  split at hc
  · rw [Array.toList_push, List.mem_append, List.mem_singleton] at hc
    rcases hc with hc | rfl
    · exact hb c hc
    · exact hn
  · exact hb c hc

theorem forall_mem_removeAt {h : i < branches.size} :
    ∀ c ∈ (removeAt branches i h).toList, P c := by
  intro c hc
  unfold removeAt at hc
  rw [Array.toList_pop] at hc
  have hback := hb _ (Array.mem_toList_iff.mpr (Array.back_mem (Nat.zero_lt_of_lt h)))
  exact forall_mem_set hb hback c (List.dropLast_subset _ hc)

theorem forall_mem_passMoments (hk : Branch.Kept program events settings P) :
    ∀ bs ∈ passMoments program events settings branches i, ∀ b ∈ bs.toList, P b := by
  fun_induction passMoments program events settings branches i with
  | case1 branches i h hi ih => exact ih hb
  | case2 branches i h hi b hs ih =>
    have hrun := hk.steps _ _ (hb _ (Array.getElem_mem_toList h)) (.goesOn hs)
    exact List.forall_mem_cons.mpr ⟨hb, ih (forall_mem_set hb hrun)⟩
  | case3 branches i h hi b hs ih =>
    have hwait := hk.waits _ _ (hb _ (Array.getElem_mem_toList h)) hs
    exact List.forall_mem_cons.mpr ⟨hb, ih (forall_mem_set hb hwait)⟩
  | case4 branches i h hi b fork hs ih =>
    have hrun := hk.steps _ _ (hb _ (Array.getElem_mem_toList h)) (.splits _ hs)
    have hfork := hk.steps _ _ (hb _ (Array.getElem_mem_toList h)) (.forks _ hs)
    exact List.forall_mem_cons.mpr ⟨hb, ih (forall_mem_addFork (forall_mem_set hb hrun) hfork)⟩
  | case5 branches i h hi hs ih =>
    exact List.forall_mem_cons.mpr ⟨hb, ih (forall_mem_removeAt hb)⟩
  | case6 branches i h hi b hs ih =>
    exact List.forall_mem_cons.mpr ⟨hb, ih (forall_mem_removeAt hb)⟩
  | case7 branches i h => exact List.forall_mem_singleton.mpr hb

theorem forall_mem_pass (hk : Branch.Kept program events settings P) :
    ∀ b ∈ (pass program events settings branches 0 action).1.toList, P b := by
  intro t ht
  have hturns := (turns_pass program events settings branches 0 action).subset
    (List.mem_append_left _ ht)
  rw [List.take_zero, List.nil_append, List.drop_zero] at hturns
  obtain ⟨b, hm, ht⟩ := List.mem_flatMap.mp hturns
  exact hk.turn (hb b hm) t ht

theorem forall_mem_settleMoments (hk : Branch.Kept program events settings P) :
    ∀ bs ∈ settleMoments program events settings branches action, ∀ b ∈ bs.toList, P b := by
  fun_induction settleMoments program events settings branches action with
  | case1 branches action left ih =>
    intro bs hbs
    rcases List.mem_append.mp hbs with hbs | hbs
    · exact forall_mem_passMoments hb hk bs hbs
    · split at hbs
      · simp at hbs
      · next hs => exact ih hs (forall_mem_pass hb hk) bs hbs

end

/-! ## Moments of a session -/

/-- The branches at each moment while the session takes an event. -/
def moments (s : Session) (e : Input) : List (Array Branch) :=
  settleMoments s.program (s.events.push e) s.settings s.branches none

variable {s : Session}

theorem forall_mem_moments {P : Branch → Prop} {e : Input}
    (hk : Branch.Kept s.program (s.events.push e) s.settings P)
    (hb : ∀ b ∈ s.branches.toList, P b) : ∀ bs ∈ s.moments e, ∀ b ∈ bs.toList, P b :=
  forall_mem_settleMoments hb hk

/-- What holds of a new branch, and is kept by every move, holds of all branches of every
session that can be reached. -/
theorem Reachable.forall_still {P : Branch → Prop} (h : s.Reachable) (hnew : P {})
    (hm : ∀ b m b', P b → Branch.Moves s.program s.settings.style b m b' → P b') :
    ∀ b ∈ s.branches.toList, P b.still := by
  have hstart : ∀ b ∈ (Session.start s.program s.settings).branches.toList, P b.still := by
    intro b hb
    obtain rfl : b = {} := by simpa [Session.start] using hb
    exact hnew
  induction h with
  | start program settings => exact hstart
  | @feed s h e ih =>
    intro b hb
    obtain ⟨w, hw, rfl⟩ := exists_wait_of_feed h.quiet.running hb
    have hk : Branch.Kept s.program (s.events.push e) s.settings fun b => P b.still :=
      Branch.kept_of_moves hm
    obtain ⟨b', hb', hs⟩ := exists_of_mem_waits hk.steps (ih hm hstart) hw
    exact hk.waits b' w hb' hs
  | reset _ _ => exact hstart

theorem Reachable.forall_moments_still {P : Branch → Prop} (h : s.Reachable) (hnew : P {})
    (hm : ∀ b m b', P b → Branch.Moves s.program s.settings.style b m b' → P b') (e : Input) :
    ∀ bs ∈ s.moments e, ∀ b ∈ bs.toList, P b.still :=
  forall_mem_moments (Branch.kept_of_moves hm) (h.forall_still hnew hm)

end Session

end Keymap
