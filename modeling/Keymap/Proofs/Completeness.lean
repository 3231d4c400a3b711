-- A session does all that is derived: where a derivation keeps within the limits
-- and no fork is dropped, some branch follows it from event to event.
import Keymap.Proofs.Soundness

namespace Keymap

theorem Path.Brisk.idle_lt {limit idle : Nat} {path : Path} (h : Path.Brisk limit idle path) :
    idle < limit := by
  induction path generalizing idle with
  | nil => exact h
  | cons m rest ih =>
    cases m with
    | take e v => exact Nat.lt_of_succ_lt h.1
    | enter => exact Nat.lt_of_succ_lt (ih h)
    | leave => exact Nat.lt_of_succ_lt (ih h)
    | quiet => exact Nat.lt_of_succ_lt (ih h)

theorem Path.Brisk.tail {limit idle : Nat} {m : Move} {path : Path}
    (h : Path.Brisk limit idle (m :: path)) : Path.Brisk limit (m.idle idle) path := by
  cases m with
  | take e v => exact h.2
  | enter => exact h
  | leave => exact h
  | quiet => exact h

namespace Branch

variable {program : Program} {events : Array Input} {settings : Settings} {b b' w : Branch}
  {path : Path}

theorem Moves.shallow {style : CaptureStyle} {limit : Nat} {m : Move}
    (hm : Moves program style b m b')
    (h : Path.Shallow limit b.returns.length (m :: path)) :
    Path.Shallow limit b'.returns.length path := by
  cases hm with
  | call hi => exact h.2
  | ret hi hr =>
    rw [hr] at h
    exact h
  | _ => exact h

/-! ## Branches that follow a path -/

/-- The branch can follow the path to where its match is complete, within the
limits. -/
structure Leads (program : Program) (settings : Settings) (b : Branch) (path : Path) : Prop where
  runs : ∃ t, Runs program settings.style b.still path t ∧ Complete program t
  brisk : Path.Brisk settings.maxIdleSteps b.idle path
  shallow : Path.Shallow settings.maxCallDepth b.returns.length path

/-- The branch is where it consumes the event, and can then follow the path.
It may have been there before the event came. -/
structure Awaits (program : Program) (settings : Settings) (b : Branch) (e : Input)
    (path : Path) : Prop where
  runs : ∃ v t, Runs program settings.style b.still (.take e v :: path) t ∧ Complete program t
  idle : b.idle < settings.maxIdleSteps
  brisk : Path.Brisk settings.maxIdleSteps 0 path
  shallow : Path.Shallow settings.maxCallDepth b.returns.length path

theorem Leads.allowed {m : Move} (h : Leads program settings b (m :: path))
    (he : ∀ e, m.event? = some e → events[b.consumed]? = some e) :
    m.Allowed events settings b := by
  cases m with
  | take e v => exact he e rfl
  | enter => exact h.shallow.1
  | leave => trivial
  | quiet => trivial

/-- A branch takes a step on its path, if it has the event that it needs. -/
theorem Leads.next {m : Move} (h : Leads program settings b (m :: path))
    (he : ∀ e, m.event? = some e → events[b.consumed]? = some e) :
    ∃ b', StepsTo program events settings b b' ∧ Leads program settings b' path
      ∧ b'.consumed = b.consumed + m.event?.toList.length := by
  obtain ⟨t, hr, ht⟩ := h.runs
  cases hr with
  | cons hm hr =>
    have hs := stepsTo_of_moves hm (h.allowed he) h.brisk.idle_lt
    rw [← hm.still_after (b := b)] at hr
    exact ⟨_, hs, ⟨⟨t, hr, ht⟩, h.brisk.tail, hm.shallow h.shallow⟩, hm.consumed_eq⟩

theorem Awaits.next {e : Input} (h : Awaits program settings b e path)
    (he : events[b.consumed]? = some e) :
    ∃ b', StepsTo program events settings b b' ∧ Leads program settings b' path
      ∧ b'.consumed = b.consumed + 1 := by
  obtain ⟨v, t, hr, ht⟩ := h.runs
  cases hr with
  | cons hm hr =>
    have hs := stepsTo_of_moves hm he h.idle
    rw [← hm.still_after (b := b)] at hr
    exact ⟨_, hs, ⟨⟨t, hr, ht⟩, h.brisk, hm.shallow h.shallow⟩, hm.consumed_eq⟩

/-! ## Leaves on a path -/

/-- What is left of the events begins with what a move consumes. -/
theorem drop_eq_append {es left : List Input} {n : Nat} {m : Move}
    (h : es.drop n = m.event?.toList ++ left) :
    (∀ e, m.event? = some e → es[n]? = some e)
      ∧ es.drop (n + m.event?.toList.length) = left := by
  constructor
  · intro e he
    rw [← Nat.add_zero n, ← List.getElem?_drop, h, he]
    rfl
  · rw [← List.drop_drop, h, List.drop_left]

/-- A path whose events have come leads to a leaf that is complete. -/
theorem Leads.exists_done (h : Leads program settings b path) {left : List Input}
    (he : events.toList.drop b.consumed = Path.events path ++ left) :
    ∃ d, d ∈ (b.tree program events settings).doneLeaves := by
  induction path generalizing b with
  | nil =>
    obtain ⟨t, hr, ht⟩ := h.runs
    cases hr with
    | nil =>
      have hb : Complete program b := ht
      obtain ⟨d, hd⟩ : ∃ d, b.step program events settings = .done d := hb.exists_step h.brisk
      exact ⟨d, by simp [doneLeaves_of_done hd]⟩
  | cons m path ih =>
    rw [Path.events_cons, List.append_assoc] at he
    obtain ⟨hm, hdrop⟩ := drop_eq_append he
    simp only [Array.getElem?_toList] at hm
    obtain ⟨b', hs, hl, hc⟩ := h.next hm
    rw [← hc] at hdrop
    obtain ⟨d, hd⟩ := ih hl hdrop
    exact ⟨d, hs.doneLeaves_subset hd⟩

/-- A branch waits where the event that it needs has not come. -/
theorem Leads.exists_step_blocked {e : Input} {v : Value}
    (h : Leads program settings b (.take e v :: path)) (hn : events[b.consumed]? = none) :
    ∃ w, b.step program events settings = .blocked w ∧ Awaits program settings w e path := by
  obtain ⟨t, hr, ht⟩ := h.runs
  cases hr with
  | cons hm hr =>
    cases hm with
    | consume hi hv =>
      refine ⟨_, step_blocked_iff.mpr ⟨⟨_, hi⟩, hn, h.brisk.idle_lt, rfl⟩, ?_⟩
      exact ⟨⟨v, t, .cons (.consume hi hv) hr, ht⟩, h.brisk.1, h.brisk.2, h.shallow⟩

/-- A path with events that have not come leads to a leaf that waits for the
first of them. -/
theorem Leads.exists_wait (h : Leads program settings b path) {e : Input} {more : List Input}
    (he : Path.events path = events.toList.drop b.consumed ++ e :: more) :
    ∃ w rest, w ∈ (b.tree program events settings).waitingLeaves
      ∧ Awaits program settings w e rest ∧ Path.events rest = more := by
  induction path generalizing b with
  | nil => simp at he
  | cons m path ih =>
    have hgo : ∀ left, events.toList.drop b.consumed = m.event?.toList ++ left →
        Path.events path = left ++ e :: more →
        ∃ w rest, w ∈ (b.tree program events settings).waitingLeaves
          ∧ Awaits program settings w e rest ∧ Path.events rest = more := by
      intro left hleft hpath
      obtain ⟨hm, hdrop⟩ := drop_eq_append hleft
      simp only [Array.getElem?_toList] at hm
      obtain ⟨b', hs, hl, hc⟩ := h.next hm
      rw [← hc] at hdrop
      obtain ⟨w, rest, hw, ha, hmore⟩ := ih hl (hdrop ▸ hpath)
      exact ⟨w, rest, hs.waitingLeaves_subset hw, ha, hmore⟩
    cases m with
    | take e' v =>
      cases hdrop : events.toList.drop b.consumed with
      | nil =>
        rw [hdrop] at he
        obtain ⟨rfl, hmore⟩ := List.cons.inj he
        have hn : events[b.consumed]? = none := by
          rw [← Array.getElem?_toList]
          exact List.getElem?_eq_none (List.drop_eq_nil_iff.mp hdrop)
        obtain ⟨w, hs, hw⟩ := h.exists_step_blocked hn
        exact ⟨w, path, by simp [waitingLeaves_of_blocked hs], hw, hmore⟩
      | cons x left =>
        rw [hdrop] at he
        obtain ⟨rfl, hpath⟩ := List.cons.inj he
        exact hgo left hdrop hpath
    | _ => exact hgo _ rfl he

end Branch

namespace Session

/-! ## Sessions that follow a path -/

/-- The session drops no fork while it takes the events. -/
def KeepsAll (s : Session) : List Input → Prop
  | [] => True
  | e :: es => s.drops e = [] ∧ (s.feed e).1.KeepsAll es

/-- Some branch can follow a path with these events, which are still to come. -/
def Ready (s : Session) (es : List Input) : Prop :=
  ∃ b ∈ s.branches.toList,
    (∃ path, b.Leads s.program s.settings path ∧ Path.events path = es)
      ∨ ∃ e path, b.Awaits s.program s.settings e path ∧ es = e :: Path.events path

variable {s : Session} {e : Input} {es : List Input}

theorem keepsAll_append {es' : List Input} :
    s.KeepsAll (es ++ es') ↔ s.KeepsAll es ∧ (s.feedAll es).KeepsAll es' := by
  induction es generalizing s with
  | nil => simp [KeepsAll]
  | cons e es ih => simp [KeepsAll, ih, and_assoc]

/-- With the first of the events, some branch comes on a path with the others,
and its leaves are leaves of the session. -/
theorem Ready.exists_leads (h : s.Ready (e :: es)) (hq : s.Quiet) :
    ∃ (b : Branch) (path : Path), b.Leads s.program s.settings path
      ∧ Path.events path = (s.events.push e).toList.drop b.consumed ++ es
      ∧ (b.tree s.program (s.events.push e) s.settings).waitingLeaves ⊆ s.waits e
      ∧ (b.tree s.program (s.events.push e) s.settings).doneLeaves ⊆ s.completes e := by
  obtain ⟨b, hb, hpath⟩ := h
  have hc := hq.consumed b hb
  have hwaits : (b.tree s.program (s.events.push e) s.settings).waitingLeaves ⊆ s.waits e :=
    fun w hw => List.mem_flatMap.mpr ⟨b, hb, hw⟩
  have hdone : (b.tree s.program (s.events.push e) s.settings).doneLeaves ⊆ s.completes e :=
    fun d hd => List.mem_flatMap.mpr ⟨b, hb, hd⟩
  rcases hpath with ⟨path, hl, hes⟩ | ⟨e', path, ha, hes⟩
  · exact ⟨b, path, hl, by simp [hes, hc], hwaits, hdone⟩
  · obtain ⟨rfl, rfl⟩ := List.cons.inj hes
    have he : (s.events.push e)[b.consumed]? = some e := by simp [hc]
    obtain ⟨b', hs, hl, hc'⟩ := ha.next he
    exact ⟨b', path, hl, by simp [hc', hc], List.Subset.trans hs.waitingLeaves_subset hwaits,
      List.Subset.trans hs.doneLeaves_subset hdone⟩

/-- A path with more events than the next one goes on after it. -/
theorem Ready.feed (h : s.Ready (e :: es)) (hq : s.Quiet) (hn : s.drops e = [])
    (hes : es ≠ []) : (s.feed e).1.Ready es := by
  obtain ⟨e', more, rfl⟩ := List.exists_cons_of_ne_nil hes
  obtain ⟨b, path, hl, he, hwaits, -⟩ := Ready.exists_leads h hq
  obtain ⟨w, rest, hw, ha, rfl⟩ := hl.exists_wait he
  refine ⟨w.unblock, ?_, .inr ⟨e', rest, ?_, rfl⟩⟩
  · exact (branches_feed_of_keeps hq.running hn).mem_iff.mpr (List.mem_map_of_mem (hwaits hw))
  · exact ⟨ha.runs, ha.idle, ha.brisk, ha.shallow⟩

theorem Ready.feedAll {earlier : List Input} (h : s.Ready (earlier ++ es)) (hq : s.Quiet)
    (hn : s.KeepsAll earlier) (hes : es ≠ []) : (s.feedAll earlier).Ready es := by
  induction earlier generalizing s with
  | nil => exact h
  | cons e earlier ih =>
    have hne : earlier ++ es ≠ [] := by simp [hes]
    exact ih (Ready.feed h hq hn.1 hne) (hq.feed e) hn.2

/-- A path that reads no more than the next event ends in an action. -/
theorem Ready.isSome_action (h : s.Ready [e]) (hq : s.Quiet) (hn : s.drops e = []) :
    (s.feed e).2.action.isSome := by
  obtain ⟨b, path, hl, he, -, hdone⟩ := Ready.exists_leads h hq
  rw [List.append_nil] at he
  obtain ⟨d, hd⟩ := hl.exists_done (he.symm.trans (List.append_nil _).symm)
  rw [isSome_action_iff hq.running hn]
  exact List.ne_nil_of_mem (hdone hd)

/-- A session with branches may go on. -/
theorem mayContinue_of_mem {b : Branch} (hb : b ∈ (s.feed e).1.branches.toList) :
    (s.feed e).2.mayContinue = true := by
  simp only [Session.feed, Bool.not_eq_true', Array.isEmpty_eq_false_iff] at hb ⊢
  intro hempty
  simp [hempty] at hb

theorem Ready.mayContinue (h : (s.feed e).1.Ready es) : (s.feed e).2.mayContinue = true := by
  obtain ⟨b, hb, -⟩ := h
  exact mayContinue_of_mem hb

/-! ## Completeness -/

/-- A derivation within the limits is not missed, as long as no fork is dropped:
there is an action when its last event has come, and until then there may be
one. A derivation that reads nothing has its action at the first event. -/
theorem a_derivation_is_followed_to_its_end (hs : s.Fresh) {rules : List (String × Pattern)}
    {p : Pattern} (hp : Compiled s.program rules p) {path : Path} {c : Captures} {k : Ending}
    (hd : Derives s.settings.style rules p {} path c k)
    (hb : Path.Brisk s.settings.maxIdleSteps 0 path)
    (hc : Path.Shallow s.settings.maxCallDepth 0 path) {earlier : List Input} {e : Input}
    (hn : s.KeepsAll (earlier ++ [e])) :
    (Path.events path = earlier ++ [e] ∨ earlier = [] ∧ Path.events path = [] →
      ((s.feedAll earlier).feed e).2.action.isSome)
      ∧ ∀ more, more ≠ [] → Path.events path = earlier ++ [e] ++ more →
        ((s.feedAll earlier).feed e).2.mayContinue = true := by
  obtain ⟨addresses, hl⟩ := hp.layout
  obtain ⟨t, hr, ht, -⟩ := (Branch.exists_derives_iff hl).mp ⟨k, hd⟩
  have hstart : Branch.Leads s.program s.settings {} path := ⟨⟨t, hr, ht⟩, hb, hc⟩
  have hmem : {} ∈ s.branches.toList := by
    rw [hs.eq_start]
    exact List.mem_singleton_self _
  have hready : s.Ready (Path.events path) := ⟨{}, hmem, .inl ⟨path, hstart, rfl⟩⟩
  obtain ⟨hkeeps, hdrops, -⟩ := keepsAll_append.mp hn
  have hq := (hs.reachable.feedAll earlier).quiet
  refine ⟨?_, ?_⟩
  · rintro (he | ⟨rfl, he⟩)
    · rw [he] at hready
      exact (hready.feedAll hs.reachable.quiet hkeeps (by simp)).isSome_action hq hdrops
    · have hevents : (s.events.push e).toList.drop 0 = Path.events path ++ [e] := by
        rw [hs.eq_start, he]
        rfl
      obtain ⟨d, hd⟩ := hstart.exists_done hevents
      refine (isSome_action_iff hq.running hdrops).mpr ?_
      exact List.ne_nil_of_mem (List.mem_flatMap.mpr ⟨{}, hmem, hd⟩)
  · intro more hmore he
    rw [he, List.append_assoc] at hready
    have hthen := hready.feedAll hs.reachable.quiet hkeeps (by simp)
    exact (Ready.feed hthen hq hdrops hmore).mayContinue

theorem a_count_is_followed_to_its_end :
    ((start gotoLineProgram {}).feed (.typed '4')).2.mayContinue = true
      ∧ (((start gotoLineProgram {}).feedAll [.typed '4']).feed (.typed 'G')).2.action.isSome := by
  obtain ⟨path, c, hd, he, hb, hc⟩ : ∃ path c,
      Derives .inline gotoLine.rules (.rule "goto") {} path c .goesOn
        ∧ Path.events path = [.typed '4', .typed 'G']
        ∧ Path.Brisk 10000 0 path ∧ Path.Shallow 256 0 path := by
    have hcount : ("count", Pattern.capture (.plus (.event (.range '0' '9'))) "$0")
        ∈ gotoLine.rules := by
      simp [gotoLine]
    have hdigit : (Matcher.range '0' '9').accept? (.typed '4') = some (.char '4') := by
      decide +kernel
    have hkey : (Matcher.range 'G' 'G').accept? (.typed 'G') = some (.char 'G') := by
      decide +kernel
    refine ⟨_, _, .rule (List.mem_cons_self ..) (.capture (.seq (.rule hcount
      (.capture (.plusOnce (.event hdigit)))) (.event hkey))), rfl, ?_, ?_⟩
    · simp [Path.Brisk]
    · simp [Path.Shallow]
  have hfresh : (start gotoLineProgram {}).Fresh := .new _ _
  have hgrammar : Compiled gotoLineProgram gotoLine.rules (.rule "goto") :=
    .grammar compile_gotoLine
  have hfirst : (start gotoLineProgram {}).KeepsAll ([] ++ [.typed '4']) :=
    ⟨by decide +kernel, trivial⟩
  have hboth : (start gotoLineProgram {}).KeepsAll ([.typed '4'] ++ [.typed 'G']) :=
    ⟨by decide +kernel, by decide +kernel, trivial⟩
  have hmay := a_derivation_is_followed_to_its_end hfresh hgrammar hd hb hc hfirst
  have hends := a_derivation_is_followed_to_its_end hfresh hgrammar hd hb hc hboth
  exact ⟨hmay.2 [.typed 'G'] (by simp) he, hends.1 (.inl he)⟩

end Session

end Keymap
