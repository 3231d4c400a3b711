-- Between two events a session is quiet: each branch has consumed all events
-- and waits for the next one. A session that is new has one branch at the start.
import Keymap.Proofs.Leaves
import Keymap.Proofs.Moves

namespace Keymap

namespace Session

/-! ## Runs of a session -/

/-- A session after any number of events and resets. -/
inductive Reachable : Session → Prop
  | start (program : Program) (settings : Settings) : Reachable (start program settings)
  | feed {s : Session} (h : Reachable s) (e : Input) : Reachable (s.feed e).1
  | reset {s : Session} (h : Reachable s) : Reachable s.reset

/-- The session after some events. -/
def feedAll (s : Session) (es : List Input) : Session := es.foldl (fun s e => (s.feed e).1) s

@[simp] theorem feedAll_nil (s : Session) : s.feedAll [] = s := rfl

@[simp] theorem feedAll_cons (s : Session) (e : Input) (es : List Input) :
    s.feedAll (e :: es) = (s.feed e).1.feedAll es := rfl

theorem program_feedAll (s : Session) (es : List Input) : (s.feedAll es).program = s.program := by
  induction es generalizing s with
  | nil => rfl
  | cons e es ih => exact ih _

theorem settings_feedAll (s : Session) (es : List Input) :
    (s.feedAll es).settings = s.settings := by
  induction es generalizing s with
  | nil => rfl
  | cons e es ih => exact ih _

theorem events_feedAll (s : Session) (es : List Input) :
    (s.feedAll es).events.toList = s.events.toList ++ es := by
  induction es generalizing s with
  | nil => simp
  | cons e es ih => simp [ih, feed]

theorem Reachable.feedAll {s : Session} (h : s.Reachable) (es : List Input) :
    (s.feedAll es).Reachable := by
  induction es generalizing s with
  | nil => exact h
  | cons e es ih => exact ih (h.feed e)

/-! ## One event -/

/-- The forks that a session drops while it takes an event. -/
def drops (s : Session) (e : Input) : List Branch :=
  settleDrops s.program (s.events.push e) s.settings s.branches none

/-- The leaves at which the branches of a session wait after an event. -/
def waits (s : Session) (e : Input) : List Branch :=
  s.branches.toList.flatMap
    (fun b => (b.tree s.program (s.events.push e) s.settings).waitingLeaves)

/-- The leaves at which the branches of a session complete their matches with
an event. -/
def completes (s : Session) (e : Input) : List Branch :=
  s.branches.toList.flatMap
    (fun b => (b.tree s.program (s.events.push e) s.settings).doneLeaves)

variable {s : Session}

/-- What holds of all branches and is kept by every step holds where a branch
begins to wait. -/
theorem exists_of_mem_waits {P : Branch → Prop} {e : Input}
    (hP : ∀ b b', P b →
      Branch.StepsTo s.program (s.events.push e) s.settings b b' → P b')
    (hs : ∀ b ∈ s.branches.toList, P b) {w : Branch} (hw : w ∈ s.waits e) :
    ∃ b, P b ∧ b.step s.program (s.events.push e) s.settings = .blocked w := by
  obtain ⟨b, hb, hw⟩ := List.mem_flatMap.mp hw
  exact Branch.exists_of_mem_waitingLeaves hP (hs b hb) hw

/-- And it holds where a branch is complete. -/
theorem exists_of_mem_completes {P : Branch → Prop} {e : Input}
    (hP : ∀ b b', P b →
      Branch.StepsTo s.program (s.events.push e) s.settings b b' → P b')
    (hs : ∀ b ∈ s.branches.toList, P b) {d : Branch} (hd : d ∈ s.completes e) :
    ∃ b, P b ∧ b.step s.program (s.events.push e) s.settings = .done d := by
  obtain ⟨b, hb, hd⟩ := List.mem_flatMap.mp hd
  exact Branch.exists_of_mem_doneLeaves hP (hs b hb) hd

theorem flatMap_waits (h : ∀ b ∈ s.branches.toList, b.status = .running) (e : Input) :
    s.branches.toList.flatMap (Branch.waits s.program (s.events.push e) s.settings)
      = s.waits e :=
  List.flatMap_congr fun b hb => Branch.waits_of_running (h b hb)

theorem flatMap_completes (h : ∀ b ∈ s.branches.toList, b.status = .running) (e : Input) :
    s.branches.toList.flatMap (Branch.completes s.program (s.events.push e) s.settings)
      = s.completes e :=
  List.flatMap_congr fun b hb => Branch.completes_of_running (h b hb)

/-- The branches after an event are the leaves that wait, but for those of the
dropped forks. -/
theorem branches_feed (h : ∀ b ∈ s.branches.toList, b.status = .running) (e : Input) :
    ((s.feed e).1.branches.toList
        ++ ((s.drops e).flatMap
          (Branch.waits s.program (s.events.push e) s.settings)).map Branch.unblock).Perm
      ((s.waits e).map Branch.unblock) := by
  have hp := waits_settle s.program (s.events.push e) s.settings s.branches none
  rw [flatMap_waits h] at hp
  simpa [feed, drops] using hp.map Branch.unblock

/-- The action is that of the last of the branches that are completed. -/
theorem action_feed (h : ∀ b ∈ s.branches.toList, b.status = .running) (e : Input) :
    ∃ ds, (s.feed e).2.action = lastAction none ds
      ∧ (ds ++ (s.drops e).flatMap
          (Branch.completes s.program (s.events.push e) s.settings)).Perm (s.completes e) := by
  obtain ⟨ds, ha, hp⟩ :=
    completes_settle s.program (s.events.push e) s.settings s.branches none
  rw [flatMap_completes h] at hp
  exact ⟨ds, ha, hp⟩

theorem exists_complete_of_action (h : ∀ b ∈ s.branches.toList, b.status = .running) {e : Input}
    {a : Action} (ha : (s.feed e).2.action = some a) :
    ∃ d ∈ s.completes e, d.captures.action = a := by
  obtain ⟨ds, hlast, hp⟩ := action_feed h e
  obtain ⟨d, hd, hc⟩ := exists_of_lastAction (hlast ▸ ha)
  exact ⟨d, hp.subset (List.mem_append_left _ hd), hc⟩

/-- Where no fork is dropped, all leaves that wait are branches, and there is an
action as soon as a leaf is complete. -/
theorem branches_feed_of_keeps (h : ∀ b ∈ s.branches.toList, b.status = .running) {e : Input}
    (hn : s.drops e = []) :
    (s.feed e).1.branches.toList.Perm ((s.waits e).map Branch.unblock) := by
  simpa [hn] using branches_feed h e

theorem isSome_action_iff (h : ∀ b ∈ s.branches.toList, b.status = .running) {e : Input}
    (hn : s.drops e = []) : (s.feed e).2.action.isSome ↔ s.completes e ≠ [] := by
  obtain ⟨ds, ha, hp⟩ := action_feed h e
  simp only [hn, List.flatMap_nil, List.append_nil] at hp
  rw [ha, isSome_lastAction, ← List.length_pos_iff, ← List.length_pos_iff, hp.length_eq]

/-- Each branch after an event is a leaf that waits. -/
theorem exists_wait_of_feed (h : ∀ b ∈ s.branches.toList, b.status = .running) {e : Input}
    {b : Branch} (hb : b ∈ (s.feed e).1.branches.toList) : ∃ w ∈ s.waits e, b = w.unblock := by
  have hm := (branches_feed h e).subset (List.mem_append_left _ hb)
  obtain ⟨w, hw, rfl⟩ := List.mem_map.mp hm
  exact ⟨w, hw, rfl⟩

/-! ## Quiet sessions -/

/-- What holds of a session between two events. -/
structure Quiet (s : Session) : Prop where
  running : ∀ b ∈ s.branches.toList, b.status = .running
  /-- Each branch has consumed all events. -/
  consumed : ∀ b ∈ s.branches.toList, b.consumed = s.events.size
  /-- After an event, each branch waits for the next one. -/
  consumes : s.events.size ≠ 0 →
    ∀ b ∈ s.branches.toList, ∃ m, s.program.get? b.pc = some (.consume m)

theorem quiet_start (program : Program) (settings : Settings) :
    (start program settings).Quiet := by
  refine ⟨?_, ?_, fun h => absurd rfl h⟩ <;> simp [start]

end Session

/-- No step consumes more events than there are. -/
theorem Branch.StepsTo.consumed_le {program : Program} {events : Array Input}
    {settings : Settings} {b b' : Branch} (hb : b.consumed ≤ events.size)
    (h : StepsTo program events settings b b') : b'.consumed ≤ events.size := by
  obtain ⟨m, t, hm, ha, -, rfl⟩ := h.moves
  have ht : (b.after m t).consumed = b.consumed + m.event?.toList.length := hm.consumed_eq
  rw [ht]
  cases m with
  | take e v =>
    have := (Array.getElem?_eq_some_iff.mp ha).1
    simp [Move.event?]
    omega
  | _ => simpa [Move.event?] using hb

namespace Session

variable {s : Session}

/-- A branch that waits has consumed all events, and is where it consumes one. -/
theorem Quiet.of_mem_waits (h : s.Quiet) {e : Input} {w : Branch} (hw : w ∈ s.waits e) :
    w.consumed = (s.events.push e).size ∧ ∃ m, s.program.get? w.pc = some (.consume m) := by
  have hle : ∀ b ∈ s.branches.toList, b.consumed ≤ (s.events.push e).size := by
    intro b hb
    rw [h.consumed b hb]
    simp
  obtain ⟨b', hb', hs⟩ := exists_of_mem_waits (fun _ _ => Branch.StepsTo.consumed_le) hle hw
  obtain ⟨hm, hn, -, rfl⟩ := Branch.step_blocked_iff.mp hs
  have hge := Array.getElem?_eq_none_iff.mp hn
  exact ⟨Nat.le_antisymm hb' hge, hm⟩

theorem Quiet.feed (h : s.Quiet) (e : Input) : (s.feed e).1.Quiet := by
  refine ⟨?_, ?_, ?_⟩
  · intro b hb
    obtain ⟨w, -, rfl⟩ := exists_wait_of_feed h.running hb
    rfl
  · intro b hb
    obtain ⟨w, hw, rfl⟩ := exists_wait_of_feed h.running hb
    exact (h.of_mem_waits hw).1
  · intro _ b hb
    obtain ⟨w, hw, rfl⟩ := exists_wait_of_feed h.running hb
    exact (h.of_mem_waits hw).2

/-- Every session that can be reached is quiet. -/
theorem Reachable.quiet (h : s.Reachable) : s.Quiet := by
  induction h with
  | start program settings => exact quiet_start program settings
  | feed _ e ih => exact ih.feed e
  | reset _ _ => exact quiet_start _ _

end Session

end Keymap
