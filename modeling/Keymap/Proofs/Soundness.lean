-- What a session does is derived: each branch has come along a path from the
-- start of the program, through the events so far, and an action is what a
-- derivation over these events captures.
import Keymap.Proofs.Quiet
import Keymap.Proofs.Readings

namespace Keymap

namespace Branch

/-- The branch has come along a path from the start, and has consumed the first
of the events on it. -/
def Traced (program : Program) (style : CaptureStyle) (events : List Input) (b : Branch) : Prop :=
  ∃ path, Runs program style {} path b.still ∧ Path.events path = events.take b.consumed

variable {program : Program} {style : CaptureStyle} {settings : Settings} {b b' : Branch}

theorem traced_start (events : List Input) : Traced program style events {} :=
  ⟨[], .nil, rfl⟩

/-- Events that the branch has not consumed make no difference to it. -/
theorem Traced.append {events : List Input} (h : Traced program style events b)
    (hb : b.consumed ≤ events.length) (more : List Input) :
    Traced program style (events ++ more) b := by
  obtain ⟨path, hr, he⟩ := h
  refine ⟨path, hr, ?_⟩
  rw [he, List.take_append_of_le_length hb]

theorem Traced.stepsTo {events : Array Input}
    (ht : Traced program settings.style events.toList b)
    (h : StepsTo program events settings b b') :
    Traced program settings.style events.toList b' := by
  obtain ⟨m, t, hm, ha, -, rfl⟩ := h.moves
  obtain ⟨path, hr, he⟩ := ht
  have hc : (b.after m t).consumed = b.consumed + m.event?.toList.length := hm.consumed_eq
  refine ⟨path ++ [m], ?_, ?_⟩
  · rw [hm.still_after]
    exact hr.append (.single hm)
  · rw [Path.events_append, he, hc]
    cases m with
    | take e v =>
      have ha : events.toList[b.consumed]? = some e := by
        rw [Array.getElem?_toList]
        exact ha
      simp [List.take_add_one, ha]
    | _ => simp

/-- The branch is where it consumes the event after the first `n`, or it has
consumed it. -/
def Meets (program : Program) (n : Nat) (b : Branch) : Prop :=
  b.consumed = n ∧ (∃ m, program.get? b.pc = some (.consume m)) ∨ b.consumed = n + 1

theorem Meets.stepsTo {events : Array Input} {n : Nat} (hn : events.size = n + 1)
    (hb : Meets program n b) (h : StepsTo program events settings b b') :
    Meets program n b' := by
  have hle : b.consumed ≤ events.size := by rcases hb with hb | hb <;> omega
  have hle' : b'.consumed ≤ events.size := StepsTo.consumed_le hle h
  obtain ⟨m, t, hm, -, -, rfl⟩ := h.moves
  have hc : (b.after m t).consumed = b.consumed + m.event?.toList.length := hm.consumed_eq
  right
  rcases hb with ⟨hb, matcher, hi⟩ | hb
  · obtain ⟨e, v, -, rfl, -⟩ := hm.of_consume hi
    rw [hc, hb]
    rfl
  · omega

end Branch

namespace Session

/-- A session that is new, or that has just been reset. -/
inductive Fresh : Session → Prop
  | new (program : Program) (settings : Settings) : Fresh (start program settings)
  | reset (s : Session) : Fresh s.reset

variable {s : Session}

theorem Fresh.eq_start (h : s.Fresh) : s = start s.program s.settings := by
  cases h <;> rfl

theorem Fresh.reachable (h : s.Fresh) : s.Reachable := by
  rw [h.eq_start]
  exact .start _ _

/-- All branches have come along paths. -/
def Traced (s : Session) : Prop :=
  ∀ b ∈ s.branches.toList, b.Traced s.program s.settings.style s.events.toList

theorem Fresh.traced (h : s.Fresh) : s.Traced := by
  rw [h.eq_start]
  intro b hb
  obtain rfl : b = {} := by simpa [Session.start] using hb
  exact Branch.traced_start _

/-- An event leaves the paths of the branches as they were. -/
theorem Traced.push (h : s.Traced) (hq : s.Quiet) (e : Input) :
    ∀ b ∈ s.branches.toList, b.Traced s.program s.settings.style (s.events.push e).toList := by
  intro b hb
  rw [Array.toList_push]
  exact (h b hb).append (Nat.le_of_eq (hq.consumed b hb)) [e]

theorem Traced.feed (h : s.Traced) (hq : s.Quiet) (e : Input) : (s.feed e).1.Traced := by
  intro b hb
  obtain ⟨w, hw, rfl⟩ := exists_wait_of_feed hq.running hb
  obtain ⟨b', hb', hs⟩ := exists_of_mem_waits (fun _ _ => Branch.Traced.stepsTo) (h.push hq e) hw
  obtain ⟨-, -, -, rfl⟩ := Branch.step_blocked_iff.mp hs
  exact hb'

theorem Traced.feedAll (h : s.Traced) (hq : s.Quiet) (es : List Input) :
    (s.feedAll es).Traced := by
  induction es generalizing s with
  | nil => exact h
  | cons e es ih => exact ih (Traced.feed h hq e) (hq.feed e)

/-! ## Complete branches -/

/-- A branch that is complete has come along a path to where a match is
complete. -/
theorem Traced.of_mem_completes (h : s.Traced) (hq : s.Quiet) {e : Input} {d : Branch}
    (hd : d ∈ s.completes e) :
    Branch.Complete s.program d.still
      ∧ d.Traced s.program s.settings.style (s.events.push e).toList := by
  obtain ⟨b', hb', hs⟩ :=
    exists_of_mem_completes (fun _ _ => Branch.Traced.stepsTo) (h.push hq e) hd
  obtain ⟨heq, hc⟩ := Branch.of_step_done hs
  obtain ⟨path, hr, he⟩ := hb'
  refine ⟨?_, path, ?_, ?_⟩
  · rw [heq]
    exact hc
  · rw [heq]
    exact hr
  · rw [Branch.consumed_of_still_eq heq]
    exact he

/-- After the first event, a match is complete only when it has consumed the
new event. -/
theorem Quiet.consumed_of_mem_completes (hq : s.Quiet) (hn : s.events.size ≠ 0) {e : Input}
    {d : Branch} (hd : d ∈ s.completes e) : d.consumed = s.events.size + 1 := by
  have hmeets : ∀ b ∈ s.branches.toList, b.Meets s.program s.events.size := by
    intro b hb
    exact .inl ⟨hq.consumed b hb, hq.consumes hn b hb⟩
  obtain ⟨b', hb', hs⟩ := exists_of_mem_completes
    (fun _ _ => Branch.Meets.stepsTo (Array.size_push ..)) hmeets hd
  obtain ⟨heq, hc⟩ := Branch.of_step_done hs
  rcases hb' with ⟨-, m, hm⟩ | hb'
  · exact absurd hc (Branch.not_complete hm nofun nofun)
  · exact (Branch.consumed_of_still_eq heq).trans hb'

/-- What a branch has consumed when its match is complete: all events or, at the
first event, possibly nothing. -/
theorem Quiet.take_of_mem_completes (hq : s.Quiet) {e : Input} {d : Branch}
    (hd : d ∈ s.completes e) :
    (s.events.push e).toList.take d.consumed = s.events.toList ++ [e]
      ∨ s.events.toList = [] ∧ (s.events.push e).toList.take d.consumed = [] := by
  rw [Array.toList_push]
  by_cases hn : s.events.size = 0
  · have hnil : s.events.toList = [] := List.eq_nil_of_length_eq_zero hn
    rw [hnil]
    cases d.consumed with
    | zero => exact .inr ⟨rfl, rfl⟩
    | succ n => exact .inl (by simp)
  · left
    rw [hq.consumed_of_mem_completes hn hd]
    exact List.take_of_length_le (by simp)

/-! ## Soundness -/

/-- Digits and then G, which go to a line. One rule calls the other. -/
def gotoLine : Grammar where
  root := "goto"
  rules := [
    ("goto", .capture (.seq (.rule "count") (.event (.range 'G' 'G'))) "goto $1"),
    ("count", .capture (.plus (.event (.range '0' '9'))) "$0")]

/-- The program of `gotoLine`. -/
def gotoLineProgram : Program := .ofList [
  .call 2, .done,
  .capStart, .call 7, .consume (.range 'G' 'G'), .capEnd "goto $1", .ret,
  .capStart, .consume (.range '0' '9'), .split (-1) 1, .capEnd "$0", .ret]

theorem compile_gotoLine : gotoLine.compile = .ok gotoLineProgram := by rfl

/-- The action of an event is what a derivation captures that reads all events
so far. At the first event it may also read none. -/
theorem an_action_comes_from_a_derivation (hs : s.Fresh) {rules : List (String × Pattern)}
    {p : Pattern} (hp : Compiled s.program rules p) {earlier : List Input} {e : Input}
    {action : Action} (ha : ((s.feedAll earlier).feed e).2.action = some action) :
    ∃ path c k, Derives s.settings.style rules p {} path c k ∧ c.action = action
      ∧ (Path.events path = earlier ++ [e] ∨ earlier = [] ∧ Path.events path = []) := by
  obtain ⟨addresses, hl⟩ := hp.layout
  have hq : (s.feedAll earlier).Quiet := (hs.reachable.feedAll earlier).quiet
  have hevents : (s.feedAll earlier).events.toList = earlier := by
    rw [events_feedAll, hs.eq_start]
    rfl
  -- The action is that of a leaf, and the leaf has come along a path.
  obtain ⟨d, hd, rfl⟩ := exists_complete_of_action hq.running ha
  have ht := hs.traced.feedAll hs.reachable.quiet earlier
  obtain ⟨hcomplete, path, hr, he⟩ := ht.of_mem_completes hq hd
  rw [program_feedAll] at hcomplete hr
  rw [settings_feedAll] at hr
  obtain ⟨k, hder⟩ := (Branch.exists_derives_iff hl).mpr ⟨d.still, hr, hcomplete, rfl⟩
  refine ⟨path, d.captures, k, hder, rfl, ?_⟩
  have htake := hq.take_of_mem_completes hd
  rw [hevents, ← he] at htake
  exact htake

theorem a_count_comes_from_a_derivation :
    ∃ path c k, Derives .inline gotoLine.rules (.rule "goto") {} path c k
      ∧ c.action = ⟨"goto 42", [.text "42"]⟩
      ∧ (Path.events path = [.typed '4', .typed '2'] ++ [.typed 'G']
        ∨ [Input.typed '4', .typed '2'] = [] ∧ Path.events path = []) := by
  have ha : (((start gotoLineProgram {}).feedAll [.typed '4', .typed '2']).feed
      (.typed 'G')).2.action = some ⟨"goto 42", [.text "42"]⟩ := by
    decide +kernel
  exact an_action_comes_from_a_derivation (.new _ _) (.grammar compile_gotoLine) ha

end Session

end Keymap
