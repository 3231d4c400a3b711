-- Branches that are there. Where no fork is dropped, each branch that comes of another one while an
-- event is taken is among the branches at some moment, and has its turn.
import Keymap.Proofs.Waiting

namespace Keymap

namespace Branch

variable {program : Program} {events : Array Input} {settings : Settings} {b b' u : Branch}

/-! ## Turns in one pass -/

/-- The branch `u` is `b`, or one of the forks that the turn of `b` adds. -/
inductive Joins (program : Program) (events : Array Input) (settings : Settings) :
    Branch → Branch → Prop
  | self (b : Branch) : Joins program events settings b b
  | fork {b b' fork u : Branch} (hs : b.step program events settings = .forked b' fork)
    (h : Joins program events settings fork u) : Joins program events settings b u

theorem Joins.eq_self (h : Joins program events settings b u)
    (hs : ∀ b' fork, b.step program events settings ≠ .forked b' fork) : u = b := by
  cases h with
  | self => rfl
  | fork hs' => exact absurd hs' (hs _ _)

theorem StepsTo.status_eq (h : StepsTo program events settings b b') : b'.status = b.status := by
  obtain ⟨m, t, -, -, -, rfl⟩ := h.moves
  rfl

/-- What a running branch comes to joins it in its turn, or comes from what the turn leaves. -/
theorem joins_or_turn (h : Relation.ReflTransGen (StepsTo program events settings) b u)
    (hr : b.status = .running) :
    Joins program events settings b u ∨ ∃ c ∈ b.turn program events settings,
      c.status = .running ∧ Relation.ReflTransGen (StepsTo program events settings) c u := by
  induction h using Relation.ReflTransGen.head_induction_on with
  | refl => exact .inl (.self u)
  | @head b c hstep hrest ih =>
    have hc : c.status = .running := hstep.status_eq.trans hr
    have hne : b.status ≠ .blocked := by simp [hr]
    cases hstep with
    | goesOn hs =>
      refine .inr ⟨c, ?_, hc, hrest⟩
      rw [turn_eq hne, hs]
      exact List.mem_singleton_self c
    | splits fork hs =>
      refine .inr ⟨c, ?_, hc, hrest⟩
      rw [turn_eq hne, hs]
      exact List.mem_cons_self
    | forks b' hs =>
      rcases ih hc with hj | ⟨d, hd, hrun, hu⟩
      · exact .inl (.fork hs hj)
      · refine .inr ⟨d, ?_, hrun, hu⟩
        rw [turn_eq hne, hs]
        exact List.mem_cons_of_mem _ hd

end Branch

namespace Session

variable {program : Program} {events : Array Input} {settings : Settings}
  {branches : Array Branch} {i : Nat} {action : Option Action} {b u : Branch}

theorem fork_mem_drop_addFork {fork : Branch} (hroom : branches.size < settings.maxBranches)
    (hi : i ≤ branches.size) : fork ∈ (addFork settings branches fork).toList.drop i := by
  have hi : i ≤ branches.toList.length := hi
  rw [addFork, if_pos hroom, Array.toList_push, List.drop_append_of_le_length hi]
  exact List.mem_append_right _ (List.mem_singleton_self fork)

/-- Where a pass drops no fork, all that join a running branch are there at some moment. -/
theorem exists_passMoment_of_joins (hn : passDrops program events settings branches i = [])
    (hb : b ∈ branches.toList.drop i) (hr : b.status = .running)
    (hj : b.Joins program events settings u) :
    ∃ bs ∈ passMoments program events settings branches i, u ∈ bs.toList := by
  fun_induction passMoments program events settings branches i generalizing b with
  | case1 branches i h hi ih =>
    rw [passDrops_of_waits h hi] at hn
    rw [drop_eq_cons h] at hb
    rcases List.mem_cons.mp hb with rfl | hb
    · simp [hr] at hi
    · exact ih hn hb hr hj
  | case2 branches i h hi c hc ih | case3 branches i h hi c hc ih =>
    rw [passDrops_eq h hi, hc] at hn
    rw [drop_eq_cons h] at hb
    rcases List.mem_cons.mp hb with rfl | hb
    · obtain rfl := hj.eq_self (by simp [hc])
      exact ⟨_, List.mem_cons_self, Array.getElem_mem_toList h⟩
    · obtain ⟨bs, hbs, hm⟩ := ih hn (by rwa [drop_set h]) hr hj
      exact ⟨bs, List.mem_cons_of_mem _ hbs, hm⟩
  | case4 branches i h hi c fork hc ih =>
    rw [passDrops_eq h hi, hc] at hn
    simp only at hn
    split at hn
    · next hroom =>
      rw [drop_eq_cons h] at hb
      rcases List.mem_cons.mp hb with rfl | hb
      · cases hj with
        | self => exact ⟨_, List.mem_cons_self, Array.getElem_mem_toList h⟩
        | fork hs hj =>
          obtain ⟨rfl, rfl⟩ := Branch.Outcome.forked.inj (hc.symm.trans hs)
          have hstatus := (Branch.follows_of_forked hc).2.status.trans hr
          obtain ⟨bs, hbs, hm⟩ := ih hn (fork_mem_drop_addFork (by simpa) (by simpa)) hstatus hj
          exact ⟨bs, List.mem_cons_of_mem _ hbs, hm⟩
      · obtain ⟨bs, hbs, hm⟩ := ih hn (mem_drop_addFork_of_mem (by rwa [drop_set h])) hr hj
        exact ⟨bs, List.mem_cons_of_mem _ hbs, hm⟩
    · cases hn
  | case5 branches i h hi hc ih | case6 branches i h hi c hc ih =>
    rw [passDrops_eq h hi, hc] at hn
    rw [drop_eq_cons h] at hb
    rcases List.mem_cons.mp hb with rfl | hb
    · obtain rfl := hj.eq_self (by simp [hc])
      exact ⟨_, List.mem_cons_self, Array.getElem_mem_toList h⟩
    · obtain ⟨bs, hbs, hm⟩ := ih hn ((take_drop_removeAt h).2.mem_iff.mpr hb) hr hj
      exact ⟨bs, List.mem_cons_of_mem _ hbs, hm⟩
  | case7 branches i h =>
    rw [List.drop_eq_nil_of_le (by simpa using h)] at hb
    cases hb

/-- A pass that drops no fork leaves what the turns leave. -/
theorem mem_pass_of_mem_turn (hn : passDrops program events settings branches 0 = [])
    (hb : b ∈ branches.toList) (hu : u ∈ b.turn program events settings) :
    u ∈ (pass program events settings branches 0 action).1.toList := by
  have hp := turns_pass program events settings branches 0 action
  simp only [hn, List.flatMap_nil, List.append_nil, List.take_zero, List.nil_append,
    List.drop_zero] at hp
  exact hp.mem_iff.mpr (List.mem_flatMap.mpr ⟨b, hb, hu⟩)

/-- Where no fork is dropped, all that a running branch comes to is there at some moment. -/
theorem exists_settleMoment (hn : settleDrops program events settings branches action = [])
    (hb : b ∈ branches.toList) (hr : b.status = .running)
    (hu : Relation.ReflTransGen (Branch.StepsTo program events settings) b u) :
    ∃ bs ∈ settleMoments program events settings branches action, u ∈ bs.toList := by
  fun_induction settle program events settings branches action generalizing b
  case case1 branches action left hs =>
    rw [settleDrops] at hn
    obtain ⟨hpass, -⟩ := List.append_eq_nil_iff.mp hn
    rw [settleMoments]
    rcases Branch.joins_or_turn hu hr with hj | ⟨c, hc, hrun, -⟩
    · obtain ⟨bs, hbs, hm⟩ := exists_passMoment_of_joins (i := 0) hpass hb hr hj
      exact ⟨bs, List.mem_append_left _ hbs, hm⟩
    · -- After the last pass no branch is running.
      have hblocked := settled_iff.mp hs c (mem_pass_of_mem_turn hpass hb hc)
      simp [hrun] at hblocked
  case case2 branches action left hs ih =>
    rw [settleDrops, if_neg hs] at hn
    obtain ⟨hpass, hlater⟩ := List.append_eq_nil_iff.mp hn
    rw [settleMoments, if_neg hs]
    rcases Branch.joins_or_turn hu hr with hj | ⟨c, hc, hrun, hu⟩
    · obtain ⟨bs, hbs, hm⟩ := exists_passMoment_of_joins (i := 0) hpass hb hr hj
      exact ⟨bs, List.mem_append_left _ hbs, hm⟩
    · obtain ⟨bs, hbs, hm⟩ := ih hlater (mem_pass_of_mem_turn hpass hb hc) hrun hu
      exact ⟨bs, List.mem_append_right _ hbs, hm⟩

end Session

end Keymap
