-- Sessions that no limit hinders. They follow every run of the program: what they reply says
-- which runs there are through the events so far, and nothing else.
import Keymap.Proofs.Commands
import Keymap.Proofs.Completeness
import Keymap.Proofs.Erasure
import Keymap.Proofs.Presence

namespace Keymap

namespace Branch

/-! ## Branches that fail at a limit -/

/-- In its turn the branch fails for a limit: it has been idle for too long, or has too many calls
open for one more. Past the last instruction there are no limits. -/
def exhausted (program : Program) (settings : Settings) (b : Branch) : Bool :=
  match program.get? b.pc with
  | none => false
  | some (.call _) =>
    settings.maxIdleSteps ≤ b.idle || settings.maxCallDepth ≤ b.returns.length
  | some _ => settings.maxIdleSteps ≤ b.idle

variable {program : Program} {events : Array Input} {settings : Settings} {b b' t u : Branch}

/-- A branch fails for a limit, or because it does not accept the next event. -/
theorem step_failed_iff :
    b.step program events settings = .failed ↔ b.exhausted program settings = true
      ∨ ∃ m e, program.get? b.pc = some (.consume m) ∧ events[b.consumed]? = some e
        ∧ m.accept? e = none := by
  unfold step exhausted
  cases hi : program.get? b.pc with
  | none => simp
  | some i =>
    by_cases hl : settings.maxIdleSteps ≤ b.idle
    · cases i <;> simp [hl]
    · cases i with
      | consume m =>
        simp only [hl, if_false, run, Branch.consume]
        cases he : events[b.consumed]? with
        | none => simp
        | some e => cases hv : m.accept? e <;> simp [hv]
      | call address =>
        simp only [run, Branch.call]
        split <;> simp_all
      | ret =>
        simp only [hl, if_false, run, Branch.ret]
        cases b.returns <;> simp
      | _ => simp [hl, run]

theorem idle_lt_of_not_exhausted (h : b.exhausted program settings = false) {i : Inst}
    (hi : program.get? b.pc = some i) : b.idle < settings.maxIdleSteps := by
  unfold exhausted at h
  rw [hi] at h
  cases i <;> simp_all

theorem depth_lt_of_not_exhausted (h : b.exhausted program settings = false) {address : Nat}
    (hi : program.get? b.pc = some (.call address)) :
    b.returns.length < settings.maxCallDepth := by
  unfold exhausted at h
  rw [hi] at h
  simp_all

/-- A move that the input allows is a step, unless the branch fails for a limit. -/
theorem stepsTo_of_not_exhausted (h : b.exhausted program settings = false) {m : Move}
    (hm : Moves program settings.style b.still m t)
    (he : ∀ e, m.event? = some e → events[b.consumed]? = some e) :
    StepsTo program events settings b (b.after m t) := by
  have hidle : b.idle < settings.maxIdleSteps := by
    cases hm <;> exact idle_lt_of_not_exhausted h ‹_›
  have hallowed : m.Allowed events settings b := by
    cases hm with
    | consume => exact he _ rfl
    | call hi => exact depth_lt_of_not_exhausted h hi
    | _ => trivial
  exact stepsTo_of_moves hm hallowed hidle

/-- A complete match is done, unless the branch fails for a limit. -/
theorem Complete.step_done (hc : Complete program b) (h : b.exhausted program settings = false) :
    ∃ d, b.step program events settings = .done d := by
  cases hi : program.get? b.pc with
  | none => exact ⟨b, by rw [step, hi]⟩
  | some i => exact hc.exists_step (idle_lt_of_not_exhausted h hi)

theorem waitingLeaves_subset_of_steps
    (h : Relation.ReflTransGen (StepsTo program events settings) b u) :
    (u.tree program events settings).waitingLeaves
      ⊆ (b.tree program events settings).waitingLeaves := by
  induction h with
  | refl => exact List.Subset.refl _
  | tail _ hstep ih => exact List.Subset.trans hstep.waitingLeaves_subset ih

theorem doneLeaves_subset_of_steps
    (h : Relation.ReflTransGen (StepsTo program events settings) b u) :
    (u.tree program events settings).doneLeaves
      ⊆ (b.tree program events settings).doneLeaves := by
  induction h with
  | refl => exact List.Subset.refl _
  | tail _ hstep ih => exact List.Subset.trans hstep.doneLeaves_subset ih

/-! ## Runs that are cut -/

theorem Runs.exists_between {style : CaptureStyle} {path path' : Path}
    (h : Runs program style b (path ++ path') t) :
    ∃ u, Runs program style b path u ∧ Runs program style u path' t := by
  induction path generalizing b with
  | nil => exact ⟨b, .nil, h⟩
  | cons m path ih =>
    cases h with
    | cons hm hr =>
      obtain ⟨u, hu, ht⟩ := ih hr
      exact ⟨u, .cons hm hu, ht⟩

/-- A path is cut where it takes its last event. -/
theorem exists_last_take {path : Path} {es : List Input} {e : Input}
    (h : Path.events path = es ++ [e]) :
    ∃ before v after, path = before ++ .take e v :: after ∧ Path.events before = es
      ∧ Path.events after = [] := by
  obtain ⟨front, back, rfl, hfront, hback⟩ := List.filterMap_eq_append_iff.mp h
  obtain ⟨silent, m, after, rfl, hsilent, hm, hafter⟩ := List.filterMap_eq_cons_iff.mp hback
  cases m with
  | take e' v =>
    obtain rfl : e' = e := Option.some.inj hm
    refine ⟨front ++ silent, v, after, (List.append_assoc ..).symm, ?_, hafter⟩
    have hnone : Path.events silent = [] := List.filterMap_eq_nil_iff.mpr hsilent
    have hfront : Path.events front = es := hfront
    rw [Path.events_append, hfront, hnone, List.append_nil]
  | _ => cases hm

end Branch

namespace Session

/-! ## Sessions that no limit hinders -/

/-- While the session takes the event, it drops no fork, and no branch fails for a limit. -/
structure Unhindered (s : Session) (e : Input) : Prop where
  drops : s.drops e = []
  limits : ∀ bs ∈ s.moments e, ∀ b ∈ bs.toList, b.status = .running →
    b.exhausted s.program s.settings = false

/-- So it is with each of the events. -/
def UnhinderedAll (s : Session) : List Input → Prop
  | [] => True
  | e :: es => s.Unhindered e ∧ (s.feed e).1.UnhinderedAll es

variable {s : Session} {e : Input} {es es' : List Input} {u t : Branch} {path : Path}

theorem unhinderedAll_append :
    s.UnhinderedAll (es ++ es') ↔ s.UnhinderedAll es ∧ (s.feedAll es).UnhinderedAll es' := by
  induction es generalizing s with
  | nil => simp [UnhinderedAll]
  | cons e es ih => simp [UnhinderedAll, ih, and_assoc]

theorem Quiet.running_of_comes (h : s.Quiet) (hu : s.Comes e u) : u.status = .running := by
  obtain ⟨b, hb, hsteps⟩ := hu
  induction hsteps with
  | refl => exact h.running b hb
  | tail _ hstep ih => exact hstep.status_eq.trans ih

theorem Unhindered.not_exhausted (h : s.Unhindered e) (hq : s.Quiet) (hu : s.Comes e u) :
    u.exhausted s.program s.settings = false := by
  have hrun := hq.running_of_comes hu
  obtain ⟨b, hb, hsteps⟩ := hu
  obtain ⟨bs, hbs, hm⟩ := exists_settleMoment h.drops hb (hq.running b hb) hsteps
  exact h.limits bs hbs u hm hrun

/-- A branch goes on along each path that the events allow. -/
theorem Unhindered.exists_comes (h : s.Unhindered e) (hq : s.Quiet) (hu : s.Comes e u)
    (hr : Branch.Runs s.program s.settings.style u.still path t) {left : List Input}
    (he : (s.events.push e).toList.drop u.consumed = Path.events path ++ left) :
    ∃ w, s.Comes e w ∧ w.still = t ∧ (s.events.push e).toList.drop w.consumed = left := by
  induction path generalizing u with
  | nil =>
    cases hr with
    | nil => exact ⟨u, hu, rfl, he⟩
  | cons m path ih =>
    cases hr with
    | @cons _ v _ _ _ hm hr =>
      rw [Path.events_cons, List.append_assoc] at he
      obtain ⟨hevent, hdrop⟩ := Branch.drop_eq_append he
      simp only [Array.getElem?_toList] at hevent
      have hstep := Branch.stepsTo_of_not_exhausted (h.not_exhausted hq hu) hm hevent
      obtain ⟨b, hb, hsteps⟩ := hu
      have hconsumed : (u.after m v).consumed = u.consumed + m.event?.toList.length :=
        hm.consumed_eq
      rw [← hm.still_after (b := u)] at hr
      exact ih ⟨b, hb, hsteps.tail hstep⟩ hr (hconsumed ▸ hdrop)

/-- A branch whose match is complete is done, with what it has captured. -/
theorem Unhindered.exists_completes (h : s.Unhindered e) (hq : s.Quiet) (hu : s.Comes e u)
    (hc : Branch.Complete s.program u.still) :
    ∃ d ∈ s.completes e, d.captures = u.captures := by
  have hc : Branch.Complete s.program u := hc
  obtain ⟨d, hd⟩ : ∃ d, u.step s.program (s.events.push e) s.settings = .done d :=
    hc.step_done (h.not_exhausted hq hu)
  obtain ⟨hstill, -⟩ := Branch.of_step_done hd
  have hcaptures : d.still.captures = u.still.captures := congrArg Branch.captures hstill
  obtain ⟨b, hb, hsteps⟩ := hu
  refine ⟨d, List.mem_flatMap.mpr ⟨b, hb, Branch.doneLeaves_subset_of_steps hsteps ?_⟩, hcaptures⟩
  rw [Branch.doneLeaves_of_done hd]
  exact List.mem_singleton_self d

/-- A branch that has consumed all events and is where it consumes one waits for it. -/
theorem Unhindered.exists_branch (h : s.Unhindered e) (hq : s.Quiet) (hu : s.Comes e u)
    (hi : ∃ m, s.program.get? u.pc = some (.consume m))
    (he : (s.events.push e).toList.drop u.consumed = []) :
    ∃ b ∈ (s.feed e).1.branches.toList, b.still = u.still := by
  obtain ⟨m, hm⟩ := hi
  have hnone : (s.events.push e)[u.consumed]? = none := by
    rw [← Array.getElem?_toList]
    exact List.getElem?_eq_none (List.drop_eq_nil_iff.mp he)
  have hidle := Branch.idle_lt_of_not_exhausted (h.not_exhausted hq hu) hm
  have hstep := Branch.step_blocked_iff.mpr ⟨⟨m, hm⟩, hnone, hidle, rfl⟩
  obtain ⟨b, hb, hsteps⟩ := hu
  have hwaits : { u with idle := u.idle + 1, status := .blocked } ∈ s.waits e := by
    refine List.mem_flatMap.mpr ⟨b, hb, Branch.waitingLeaves_subset_of_steps hsteps ?_⟩
    rw [Branch.waitingLeaves_of_blocked hstep]
    exact List.mem_singleton_self _
  exact ⟨_, (branches_feed_of_keeps hq.running h.drops).mem_iff.mpr (List.mem_map_of_mem hwaits),
    rfl⟩

/-! ## Runs that a session follows -/

/-- Some branch is on each run through the events so far, where the run waits for the next one. -/
def Covers (s : Session) : Prop :=
  ∀ path t, Branch.Runs s.program s.settings.style {} path t →
    Path.events path = s.events.toList → (∃ m, s.program.get? t.pc = some (.consume m)) →
      ∃ b ∈ s.branches.toList, ∃ rest, Branch.Runs s.program s.settings.style b.still rest t
        ∧ Path.events rest = []

theorem Fresh.covers (h : s.Fresh) : s.Covers := by
  rw [h.eq_start]
  intro path t hr he _
  exact ⟨{}, List.mem_singleton_self _, path, hr, he⟩

/-- With the next event, some branch comes to the end of each run that takes it last. -/
theorem Covers.exists_comes (hc : s.Covers) (h : s.Unhindered e) (hq : s.Quiet)
    (hr : Branch.Runs s.program s.settings.style {} path t)
    (he : Path.events path = s.events.toList ++ [e]) :
    ∃ w, s.Comes e w ∧ w.still = t ∧ (s.events.push e).toList.drop w.consumed = [] := by
  obtain ⟨before, v, after, rfl, hbefore, hafter⟩ := Branch.exists_last_take he
  obtain ⟨x, hx, hrest⟩ := hr.exists_between
  have hwait : ∃ m, s.program.get? x.pc = some (.consume m) := by
    cases hrest with
    | cons hm _ =>
      cases hm with
      | consume hi _ => exact ⟨_, hi⟩
  obtain ⟨b, hb, rest, hto, hnone⟩ := hc before x hx hbefore hwait
  have hconsumed := hq.consumed b hb
  exact h.exists_comes hq ⟨b, hb, .refl⟩ (hto.append hrest) (by simp [hnone, hafter, hconsumed])

theorem Covers.feed (hc : s.Covers) (h : s.Unhindered e) (hq : s.Quiet) :
    (s.feed e).1.Covers := by
  intro path t hr he hi
  have he : Path.events path = s.events.toList ++ [e] := by simpa [Session.feed] using he
  obtain ⟨w, hw, rfl, hdrop⟩ := hc.exists_comes h hq hr he
  obtain ⟨b, hb, hstill⟩ := h.exists_branch hq hw hi hdrop
  exact ⟨b, hb, [], hstill ▸ .nil, rfl⟩

theorem Covers.feedAll (hc : s.Covers) (hq : s.Quiet) (h : s.UnhinderedAll es) :
    (s.feedAll es).Covers := by
  induction es generalizing s with
  | nil => exact hc
  | cons e es ih => exact ih (Covers.feed hc h.1 hq) (hq.feed e) h.2

/-! ## What the replies say -/

section

variable {earlier : List Input}

theorem Fresh.events_eq (hs : s.Fresh) : s.events.toList = [] := by
  rw [hs.eq_start]
  rfl

/-- A session that no limit hinders may go on when some run through all events waits. -/
theorem Fresh.mayContinue_iff (hs : s.Fresh) (h : s.UnhinderedAll (earlier ++ [e])) :
    ((s.feedAll earlier).feed e).2.mayContinue = true
      ↔ Branch.Shows s.program s.settings.style {} (earlier ++ [e]) none := by
  constructor
  · intro hmay
    obtain ⟨b, path, hr, he, hi⟩ := hs.exists_waiting hmay
    exact ⟨path, b, hr, he, hi⟩
  · rintro ⟨path, t, hr, he, hi⟩
    have hcovers : (s.feedAll (earlier ++ [e])).Covers :=
      hs.covers.feedAll hs.reachable.quiet h
    unfold Covers at hcovers
    rw [program_feedAll, settings_feedAll, events_feedAll, hs.events_eq] at hcovers
    obtain ⟨b, hb, -⟩ := hcovers path t hr he hi
    have hlast : s.feedAll (earlier ++ [e]) = ((s.feedAll earlier).feed e).1 := by simp [feedAll]
    rw [hlast] at hb
    exact mayContinue_of_mem hb

/-- The matches that the next event completes are those of the runs through all events. At the
first event there are also the runs through none. -/
theorem Fresh.exists_completes_iff (hs : s.Fresh) (h : s.UnhinderedAll (earlier ++ [e]))
    {c : Captures} :
    (∃ d ∈ (s.feedAll earlier).completes e, d.captures = c)
      ↔ Branch.Shows s.program s.settings.style {} (earlier ++ [e]) (some c)
        ∨ earlier = [] ∧ Branch.Shows s.program s.settings.style {} [] (some c) := by
  have hquiet := hs.reachable.quiet
  have hq : (s.feedAll earlier).Quiet := (hs.reachable.feedAll earlier).quiet
  have hevents : (s.feedAll earlier).events.toList = earlier := by
    rw [events_feedAll, hs.events_eq, List.nil_append]
  constructor
  · rintro ⟨d, hd, rfl⟩
    obtain ⟨hcomplete, path, hr, he | ⟨hnil, he⟩⟩ := hs.exists_run hd
    · exact .inl ⟨path, d.still, hr, he, hcomplete, rfl⟩
    · exact .inr ⟨hnil, path, d.still, hr, he, hcomplete, rfl⟩
  · obtain ⟨hearlier, hlast, -⟩ := unhinderedAll_append.mp h
    rintro (⟨path, t, hr, he, ht, rfl⟩ | ⟨rfl, path, t, hr, he, ht, rfl⟩)
    · have hcovers := hs.covers.feedAll hquiet hearlier
      rw [← program_feedAll s earlier] at hr ht
      rw [← settings_feedAll s earlier] at hr
      rw [← hevents] at he
      obtain ⟨w, hw, rfl, -⟩ := hcovers.exists_comes hlast hq hr he
      exact hlast.exists_completes (u := w) hq hw ht
    · have hmem : {} ∈ s.branches.toList := by
        rw [hs.eq_start]
        exact List.mem_singleton_self _
      have hstart : (s.events.push e).toList.drop 0 = Path.events path ++ [e] := by
        rw [he, Array.toList_push, hs.events_eq]
        rfl
      obtain ⟨w, hw, rfl, -⟩ := hlast.exists_comes hq ⟨{}, hmem, .refl⟩ hr hstart
      exact hlast.exists_completes (u := w) hq hw ht

end

end Session

end Keymap
