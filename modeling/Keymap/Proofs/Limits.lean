-- Larger limits for each branch. A branch goes the same way under them, and farther where it failed
-- for a limit. So a session loses no branch and no match by them.
import Keymap.Proofs.Completeness
import Keymap.Proofs.Prospects

namespace Keymap

/-- All that a branch is allowed is allowed again: it may be idle for as long or longer, and call as
deeply or more so. All else is the same. -/
structure Settings.RelaxedTo (settings larger : Settings) : Prop where
  idle : settings.maxIdleSteps ≤ larger.maxIdleSteps
  depth : settings.maxCallDepth ≤ larger.maxCallDepth
  rest : larger = { settings with
    maxIdleSteps := larger.maxIdleSteps, maxCallDepth := larger.maxCallDepth }

namespace Branch

/-! ## Trees -/

/-- The first tree is the second one, with failures in the places of some branches. -/
inductive Tree.Prunes : Tree → Tree → Prop
  | failed (t : Tree) : Prunes .failed t
  | waiting (b : Branch) : Prunes (.waiting b) (.waiting b)
  | done (b : Branch) : Prunes (.done b) (.done b)
  | next {rest rest' : Tree} (h : Prunes rest rest') : Prunes (.next rest) (.next rest')
  | split {rest rest' fork fork' : Tree} (h : Prunes rest rest') (hf : Prunes fork fork') :
    Prunes (.split rest fork) (.split rest' fork')

theorem Tree.Prunes.waitingLeaves_sublist {t t' : Tree} (h : Prunes t t') :
    t.waitingLeaves.Sublist t'.waitingLeaves := by
  induction h with
  | failed t => exact List.nil_sublist _
  | waiting b => exact .refl _
  | done b => exact .refl _
  | next _ ih => exact ih
  | split _ _ ih ihf => exact ih.append ihf

theorem Tree.Prunes.doneLeaves_sublist {t t' : Tree} (h : Prunes t t') :
    t.doneLeaves.Sublist t'.doneLeaves := by
  induction h with
  | failed t => exact List.nil_sublist _
  | waiting b => exact .refl _
  | done b => exact .refl _
  | next _ ih => exact ih
  | split _ _ ih ihf => exact ih.append ihf

variable {program : Program} {events : Array Input} {settings larger : Settings} {b : Branch}

/-- An instruction that does not fail does the same under larger limits. -/
theorem run_eq_of_relaxed (h : settings.RelaxedTo larger) {i : Inst}
    (hi : run events settings b i ≠ .failed) :
    run events larger b i = run events settings b i := by
  cases i with
  | capEnd template =>
    have hstyle : larger.style = settings.style := (congrArg Settings.style h.rest :)
    simp only [run, hstyle]
  | call address =>
    simp only [run, call] at hi ⊢
    split at hi
    · next hd => rw [if_pos hd, if_pos (Nat.lt_of_lt_of_le hd h.depth)]
    · exact absurd rfl hi
  | _ => rfl

/-- And so does a step. -/
theorem step_eq_of_relaxed (h : settings.RelaxedTo larger)
    (hb : b.step program events settings ≠ .failed) :
    b.step program events larger = b.step program events settings := by
  unfold step at hb ⊢
  cases hi : program.get? b.pc with
  | none => rfl
  | some i =>
    simp only [hi] at hb ⊢
    split at hb
    · exact absurd rfl hb
    · next hl =>
      have hle : ¬ larger.maxIdleSteps ≤ b.idle := by
        have := h.idle
        omega
      rw [if_neg hl, if_neg hle]
      exact run_eq_of_relaxed h hb

variable (program events) in
/-- Under larger limits the tree of a branch has all that it had, and more where branches failed. -/
theorem prunes_tree (h : settings.RelaxedTo larger) (b : Branch) :
    (b.tree program events settings).Prunes (b.tree program events larger) := by
  fun_induction tree program events settings b with
  | case1 b b' hs ih =>
    rw [tree_eq (b := b), step_eq_of_relaxed h (by simp [hs]), hs]
    exact .next ih
  | case2 b b' fork hs ih ihf =>
    rw [tree_eq (b := b), step_eq_of_relaxed h (by simp [hs]), hs]
    exact .split ih ihf
  | case3 b b' hs =>
    rw [tree_eq (b := b), step_eq_of_relaxed h (by simp [hs]), hs]
    exact .waiting b'
  | case4 b hs => exact .failed _
  | case5 b b' hs =>
    rw [tree_eq (b := b), step_eq_of_relaxed h (by simp [hs]), hs]
    exact .done b'

end Branch

namespace Session

/-! ## Sessions with larger limits -/

/-- The second session has larger limits, and all branches of the first one. -/
structure Within (s s' : Session) : Prop where
  program : s'.program = s.program
  settings : s.settings.RelaxedTo s'.settings
  events : s'.events = s.events
  branches : s.branches.toList ⊆ s'.branches.toList

variable {s s' : Session} {e : Input}

theorem within_start (program : Program) {settings larger : Settings}
    (h : settings.RelaxedTo larger) : (start program settings).Within (start program larger) :=
  ⟨rfl, h, rfl, List.Subset.refl _⟩

theorem Within.waits_subset (h : s.Within s') (e : Input) : s.waits e ⊆ s'.waits e := by
  intro w hw
  obtain ⟨b, hb, hw⟩ := List.mem_flatMap.mp hw
  refine List.mem_flatMap.mpr ⟨b, h.branches hb, ?_⟩
  rw [h.program, h.events]
  exact (Branch.prunes_tree _ _ h.settings b).waitingLeaves_sublist.subset hw

theorem Within.completes_subset (h : s.Within s') (e : Input) : s.completes e ⊆ s'.completes e := by
  intro d hd
  obtain ⟨b, hb, hd⟩ := List.mem_flatMap.mp hd
  refine List.mem_flatMap.mpr ⟨b, h.branches hb, ?_⟩
  rw [h.program, h.events]
  exact (Branch.prunes_tree _ _ h.settings b).doneLeaves_sublist.subset hd

/-- An event leaves the second session all branches of the first one, if it drops no fork. -/
theorem Within.feed (h : s.Within s') (hq : s.Quiet) (hq' : s'.Quiet) (hn : s'.drops e = []) :
    (s.feed e).1.Within (s'.feed e).1 := by
  have hevents : s'.events.push e = s.events.push e := by rw [h.events]
  refine ⟨h.program, h.settings, hevents, ?_⟩
  intro b hb
  obtain ⟨w, hw, rfl⟩ := exists_wait_of_feed hq.running hb
  exact (branches_feed_of_keeps hq'.running hn).mem_iff.mpr
    (List.mem_map_of_mem (h.waits_subset e hw))

theorem Within.feedAll {es : List Input} (h : s.Within s') (hq : s.Quiet) (hq' : s'.Quiet)
    (hn : s'.KeepsAll es) : (s.feedAll es).Within (s'.feedAll es) := by
  induction es generalizing s s' with
  | nil => exact h
  | cons e es ih => exact ih (Within.feed h hq hq' hn.1) (hq.feed e) (hq'.feed e) hn.2

theorem Within.isSome_action (h : s.Within s') (hq : s.Quiet) (hq' : s'.Quiet)
    (hn : s'.drops e = []) (ha : (s.feed e).2.action.isSome) : (s'.feed e).2.action.isSome := by
  obtain ⟨a, ha⟩ := Option.isSome_iff_exists.mp ha
  obtain ⟨d, hd, -⟩ := exists_complete_of_action hq.running ha
  exact (isSome_action_iff hq'.running hn).mpr (List.ne_nil_of_mem (h.completes_subset e hd))

theorem Within.mayContinue (h : (s.feed e).1.Within (s'.feed e).1)
    (hm : (s.feed e).2.mayContinue = true) : (s'.feed e).2.mayContinue = true := by
  obtain ⟨b, hb⟩ := exists_branch_of_mayContinue hm
  exact mayContinue_of_mem (h.branches hb)

/-- A session with larger limits loses no match, as long as it drops no fork: it replies with an
action to each event to which one with smaller limits does, and it may go on after each event after
which that one may. -/
theorem larger_limits_lose_no_match (program : Program) {settings larger : Settings}
    (h : settings.RelaxedTo larger) {earlier : List Input} {e : Input}
    (hn : (start program larger).KeepsAll (earlier ++ [e])) :
    let s := (start program settings).feedAll earlier
    let s' := (start program larger).feedAll earlier
    ((s.feed e).2.action.isSome → (s'.feed e).2.action.isSome)
      ∧ ((s.feed e).2.mayContinue = true → (s'.feed e).2.mayContinue = true) := by
  intro s s'
  obtain ⟨hkeeps, hdrops, -⟩ := keepsAll_append.mp hn
  have hstart : (start program settings).Quiet := quiet_start program settings
  have hstart' : (start program larger).Quiet := quiet_start program larger
  have hs : s.Quiet := ((Reachable.start program settings).feedAll earlier).quiet
  have hs' : s'.Quiet := ((Reachable.start program larger).feedAll earlier).quiet
  have hwithin : s.Within s' := (within_start program h).feedAll hstart hstart' hkeeps
  constructor
  · exact hwithin.isSome_action hs hs' hdrops
  · exact (Within.feed hwithin hs hs' hdrops).mayContinue

/-- Any number of letters, and then a key. -/
def lettersThenKey : Program := .ofList
  [.split 1 3, .consume (.range 'a' 'z'), .jump (-2), .consume (.key (.typed '.') {})]

/-- Four instructions between two events are just enough, and with five there is a match as well. -/
theorem a_fifth_step_loses_no_match :
    let settings : Settings := { maxIdleSteps := 4 }
    let larger : Settings := { maxIdleSteps := 5, maxCallDepth := 300 }
    settings.RelaxedTo larger
      ∧ (start lettersThenKey larger).KeepsAll ([.typed 'x', .typed 'y'] ++ [.typed '.'])
      ∧ (((start lettersThenKey settings).feedAll [.typed 'x', .typed 'y']).feed
          (.typed '.')).2.action.isSome
      ∧ (((start lettersThenKey larger).feedAll [.typed 'x', .typed 'y']).feed
          (.typed '.')).2.action.isSome := by
  intro settings larger
  have h : settings.RelaxedTo larger := ⟨by decide, by decide, rfl⟩
  have hn : (start lettersThenKey larger).KeepsAll ([.typed 'x', .typed 'y'] ++ [.typed '.']) :=
    ⟨by decide +kernel, by decide +kernel, by decide +kernel, trivial⟩
  have haction : (((start lettersThenKey settings).feedAll [.typed 'x', .typed 'y']).feed
      (.typed '.')).2.action.isSome := by decide +kernel
  exact ⟨h, hn, haction, (larger_limits_lose_no_match lettersThenKey h hn).1 haction⟩

end Session

end Keymap
