-- Which of several complete matches has its action run. The steps of a match, less the splits at
-- which it was the fork, say in which pass it is complete, and the match of the last pass wins.
import Keymap.Proofs.Tallies

namespace Keymap

/-! ## Matches on the paths of a branch -/

/-- The complete matches at the leaves, with what is counted on the path to each of them. -/
def Branch.Tree.finishes (steps forks : Nat) : Tree → List Runner
  | .waiting _ => []
  | .failed => []
  | .done b => [⟨b, steps + 1, forks⟩]
  | .next rest => rest.finishes (steps + 1) forks
  | .split rest fork => rest.finishes (steps + 1) forks ++ fork.finishes (steps + 1) (forks + 1)

namespace Runner

/-- The complete matches on the paths of a branch. A branch that waits has none. -/
def finishes (program : Program) (events : Array Input) (settings : Settings) (r : Runner) :
    List Runner :=
  if r.branch.status = .blocked then []
  else (r.branch.tree program events settings).finishes r.steps r.forks

variable {program : Program} {events : Array Input} {settings : Settings} {r : Runner}

theorem finishes_of_blocked (h : r.branch.status = .blocked) :
    r.finishes program events settings = [] :=
  if_pos h

theorem finishes_of_running (h : r.branch.status = .running) :
    r.finishes program events settings
      = (r.branch.tree program events settings).finishes r.steps r.forks := by
  simp [finishes, h]

theorem finishes_eq (h : r.branch.status ≠ .blocked) :
    r.finishes program events settings =
      match r.branch.step program events settings with
      | .running b => (r.goesOn b).finishes program events settings
      | .forked b fork =>
        (r.goesOn b).finishes program events settings
          ++ (r.forksOff fork).finishes program events settings
      | .blocked _ => []
      | .failed => []
      | .done b => [r.goesOn b] := by
  have hr := Branch.running_of_ne_blocked h
  rw [finishes_of_running hr, Branch.tree_eq]
  cases hs : r.branch.step program events settings with
  | running b =>
    have hb : (r.goesOn b).branch.status = .running := (Branch.follows_of_running hs).status.trans hr
    exact (finishes_of_running hb).symm
  | forked b fork =>
    have hb : (r.goesOn b).branch.status = .running :=
      (Branch.follows_of_forked hs).1.status.trans hr
    have hf : (r.forksOff fork).branch.status = .running :=
      (Branch.follows_of_forked hs).2.status.trans hr
    simp only [finishes_of_running hb, finishes_of_running hf]
    rfl
  | blocked b => rfl
  | failed => rfl
  | done b => rfl

theorem flatMap_finishes_of_blocked {rs : List Runner}
    (h : ∀ r ∈ rs, r.branch.status = .blocked) :
    rs.flatMap (finishes program events settings) = [] := by
  rw [List.flatMap_eq_nil_iff]
  intro r hr
  exact finishes_of_blocked (h r hr)

end Runner

namespace Session

/-! ## Matches that are still to be completed -/

section

variable {α β : Type} [DecidableEq β] {xs : Array α} {i : Nat}

theorem count_flatMap_set (f : α → List β) (h : i < xs.size) (x : α) (a : β) :
    ((xs.set i x).toList.flatMap f).count a + (f xs[i]).count a
      = (xs.toList.flatMap f).count a + (f x).count a := by
  rw [toList_eq_of_lt xs i h, ← List.take_append_drop (i + 1) (xs.set i x).toList, take_set h,
    drop_set h]
  simp only [List.flatMap_append, List.flatMap_cons, List.flatMap_nil, List.count_append,
    List.count_nil]
  omega

theorem count_flatMap_removeAt (f : α → List β) (h : i < xs.size) (a : β) :
    ((removeAt xs i h).toList.flatMap f).count a + (f xs[i]).count a
      = (xs.toList.flatMap f).count a := by
  obtain ⟨ht, hd⟩ := take_drop_removeAt h
  have hd := (hd.flatMap_right f).count_eq a
  rw [toList_eq_of_lt xs i h, ← List.take_append_drop i (removeAt xs i h).toList, ht]
  simp only [List.flatMap_append, List.flatMap_cons, List.count_append]
  omega

end

variable {program : Program} {events : Array Input} {settings : Settings} {n i : Nat}
  {runners : Array Runner}

theorem toList_addRunner (fork : Runner) :
    (addRunner settings runners fork).toList
      = runners.toList ++ if runners.size < settings.maxBranches then [fork] else [] := by
  unfold addRunner
  split
  · exact Array.toList_push
  · exact (List.append_nil _).symm

variable (program events settings n runners i) in
/-- A pass completes some of the matches, and the others are still to be completed, or else they
are matches of forks that it drops. -/
theorem finishes_passLog :
    ((passLog program events settings n runners i).finished.map Finish.toRunner
        ++ (passLog program events settings n runners i).left.toList.flatMap
          (Runner.finishes program events settings)
        ++ (passLog program events settings n runners i).dropped.flatMap
          (Runner.finishes program events settings)).Perm
      (runners.toList.flatMap (Runner.finishes program events settings)) := by
  -- Counting each match by itself, it does not matter how the array is rearranged.
  rw [List.perm_iff_count]
  intro a
  fun_induction passLog program events settings n runners i with
  | case1 runners i h hb ih => exact ih
  | case2 runners i h hb b hs ih =>
    have hset := count_flatMap_set (Runner.finishes program events settings) h
      (runners[i].goesOn b) a
    rw [Runner.finishes_eq hb, hs] at hset
    rw [ih]
    exact Nat.add_right_cancel hset
  | case3 runners i h hb b hs ih =>
    have hset := count_flatMap_set (Runner.finishes program events settings) h
      (runners[i].goesOn b) a
    have hw : (runners[i].goesOn b).finishes program events settings = [] :=
      Runner.finishes_of_blocked (Branch.status_of_blocked hs)
    rw [Runner.finishes_eq hb, hs, hw] at hset
    rw [ih]
    exact hset
  | case4 runners i h hb b fork hs later hroom ih =>
    have hset := count_flatMap_set (Runner.finishes program events settings) h
      (runners[i].goesOn b) a
    rw [Runner.finishes_eq hb, hs] at hset
    rw [toList_addRunner, Array.size_set, if_pos hroom] at ih
    simp only [List.flatMap_append, List.flatMap_cons, List.flatMap_nil, List.append_nil,
      List.count_append, later] at hset ih ⊢
    omega
  | case5 runners i h hb b fork hs later hroom ih =>
    -- The matches of the fork are not among those left, but among those of dropped forks.
    have hset := count_flatMap_set (Runner.finishes program events settings) h
      (runners[i].goesOn b) a
    rw [Runner.finishes_eq hb, hs] at hset
    rw [toList_addRunner, Array.size_set, if_neg hroom, List.append_nil] at ih
    simp only [List.flatMap_cons, List.count_append, later] at hset ih ⊢
    omega
  | case6 runners i h hb hs ih =>
    have hdrop := count_flatMap_removeAt (Runner.finishes program events settings) h a
    rw [Runner.finishes_eq hb, hs] at hdrop
    rw [ih]
    exact hdrop
  | case7 runners i h hb b hs later ih =>
    have hdrop := count_flatMap_removeAt (Runner.finishes program events settings) h a
    rw [Runner.finishes_eq hb, hs] at hdrop
    simp only [List.map_cons, List.cons_append, List.count_cons, List.count_append, later,
      List.count_nil] at hdrop ih ⊢
    omega
  | case8 runners i h => simp

theorem blocked_of_settled (h : settled (branchesOf runners) = true) :
    ∀ r ∈ runners.toList, r.branch.status = .blocked := by
  intro r hr
  refine settled_iff.mp h r.branch ?_
  rw [branchesOf, Array.toList_map]
  exact List.mem_map_of_mem hr

variable (program events settings n runners) in
/-- The passes complete all of the matches, but for those of the forks that they drop. -/
theorem finishes_settleLog :
    ((settleLog program events settings n runners).finished.map Finish.toRunner
        ++ (settleLog program events settings n runners).dropped.flatMap
          (Runner.finishes program events settings)).Perm
      (runners.toList.flatMap (Runner.finishes program events settings)) := by
  fun_induction settleLog program events settings n runners with
  | case1 n runners first h =>
    have hp := finishes_passLog program events settings n 0 runners
    rw [Runner.flatMap_finishes_of_blocked (blocked_of_settled h), List.append_nil] at hp
    exact hp
  | case2 n runners first h later ih =>
    have hp := finishes_passLog program events settings n 0 runners
    rw [List.perm_iff_count] at hp ih ⊢
    intro a
    have hp := hp a
    have ih := ih a
    simp only [List.map_append, List.flatMap_append, List.count_append, first, later] at hp ih ⊢
    omega

end Session

/-! ## The pass in which a match is complete -/

namespace Runner

/-- If it is running, it has had its turn in each of `n` passes. A fork has its first turn in the
pass in which it is forked, and has the turns of its branch before that one. -/
def OnTime (n : Nat) (r : Runner) : Prop := r.branch.status = .running → r.steps = n + r.forks

variable {r : Runner} {n : Nat}

theorem onTime_of_blocked (h : r.branch.status = .blocked) : r.OnTime n := by
  intro hr
  rw [h] at hr
  cases hr

theorem OnTime.steps_eq (h : r.OnTime n) (hr : r.branch.status ≠ .blocked) :
    r.steps = n + r.forks :=
  h (Branch.running_of_ne_blocked hr)

theorem OnTime.steps_goesOn (h : r.OnTime n) (hr : r.branch.status ≠ .blocked) (b : Branch) :
    (r.goesOn b).steps = n + 1 + (r.goesOn b).forks := by
  have hs := h.steps_eq hr
  show r.steps + 1 = n + 1 + r.forks
  omega

theorem OnTime.goesOn (h : r.OnTime n) (hr : r.branch.status ≠ .blocked) (b : Branch) :
    (r.goesOn b).OnTime (n + 1) :=
  fun _ => h.steps_goesOn hr b

theorem OnTime.forksOff (h : r.OnTime n) (hr : r.branch.status ≠ .blocked) (fork : Branch) :
    (r.forksOff fork).OnTime n := by
  intro _
  have hs := h.steps_eq hr
  show r.steps + 1 = n + (r.forks + 1)
  omega

end Runner

namespace Session

variable {program : Program} {events : Array Input} {settings : Settings} {n i : Nat}
  {runners : Array Runner}

/-- In a pass after `n` others, at place `i`, the branches that have been visited have had one turn
more than the others. -/
structure Timed (n : Nat) (runners : Array Runner) (i : Nat) : Prop where
  visited : ∀ r ∈ runners.toList.take i, r.OnTime (n + 1)
  unvisited : ∀ r ∈ runners.toList.drop i, r.OnTime n

theorem timed_start (h : ∀ r ∈ runners.toList, r.OnTime n) : Timed n runners 0 :=
  ⟨List.forall_mem_nil _, h⟩

theorem Timed.getElem (ht : Timed n runners i) (h : i < runners.size) : runners[i].OnTime n := by
  refine ht.unvisited _ ?_
  rw [drop_eq_cons h]
  exact List.mem_cons_self

theorem Timed.later (ht : Timed n runners i) (h : i < runners.size) :
    ∀ r ∈ runners.toList.drop (i + 1), r.OnTime n := by
  intro r hr
  refine ht.unvisited r ?_
  rw [drop_eq_cons h]
  exact List.mem_cons_of_mem _ hr

theorem Timed.stays (ht : Timed n runners i) (h : i < runners.size)
    (hb : runners[i].branch.status = .blocked) : Timed n runners (i + 1) := by
  refine ⟨?_, ht.later h⟩
  rw [List.take_succ_eq_append_getElem (by simpa using h), List.forall_mem_append,
    List.forall_mem_singleton]
  exact ⟨ht.visited, Runner.onTime_of_blocked hb⟩

theorem Timed.goesOn (ht : Timed n runners i) (h : i < runners.size)
    (hb : runners[i].branch.status ≠ .blocked) (b : Branch) :
    Timed n (runners.set i (runners[i].goesOn b)) (i + 1) := by
  constructor
  · rw [take_set h, List.forall_mem_append, List.forall_mem_singleton]
    exact ⟨ht.visited, (ht.getElem h).goesOn hb b⟩
  · rw [drop_set h]
    exact ht.later h

theorem Timed.addRunner (ht : Timed n runners i) (h : i ≤ runners.size) {fork : Runner}
    (hf : fork.OnTime n) : Timed n (addRunner settings runners fork) i := by
  have hle : i ≤ runners.toList.length := by simpa using h
  constructor
  · rw [toList_addRunner, List.take_append_of_le_length hle]
    exact ht.visited
  · rw [toList_addRunner, List.drop_append_of_le_length hle, List.forall_mem_append]
    refine ⟨ht.unvisited, fun r hr => ?_⟩
    split at hr
    · rwa [List.mem_singleton.mp hr]
    · cases hr

theorem Timed.forks (ht : Timed n runners i) (h : i < runners.size)
    (hb : runners[i].branch.status ≠ .blocked) (b fork : Branch) :
    Timed n (Session.addRunner settings (runners.set i (runners[i].goesOn b))
      (runners[i].forksOff fork)) (i + 1) := by
  refine (ht.goesOn h hb b).addRunner ?_ ((ht.getElem h).forksOff hb fork)
  rw [Array.size_set]
  exact h

theorem Timed.removeAt (ht : Timed n runners i) (h : i < runners.size) :
    Timed n (removeAt runners i h) i := by
  obtain ⟨htake, hdrop⟩ := take_drop_removeAt h
  constructor
  · rw [htake]
    exact ht.visited
  · intro r hr
    exact ht.later h r (hdrop.mem_iff.mp hr)

/-- A pass completes matches in this pass only, each after as many steps as its path has. -/
theorem Timed.onTime_passLog (ht : Timed n runners i) :
    (∀ r ∈ (passLog program events settings n runners i).left.toList, r.OnTime (n + 1))
      ∧ ∀ f ∈ (passLog program events settings n runners i).finished,
        f.pass = n + 1 ∧ f.steps = f.pass + f.forks := by
  fun_induction passLog program events settings n runners i with
  | case1 runners i h hb ih => exact ih (ht.stays h hb)
  | case2 runners i h hb b hs ih
  | case3 runners i h hb b hs ih => exact ih (ht.goesOn h hb b)
  | case4 runners i h hb b fork hs later hroom ih
  | case5 runners i h hb b fork hs later hroom ih => exact ih (ht.forks h hb b fork)
  | case6 runners i h hb hs ih => exact ih (ht.removeAt h)
  | case7 runners i h hb b hs later ih =>
    obtain ⟨hleft, hfinished⟩ := ih (ht.removeAt h)
    have hsteps := (ht.getElem h).steps_goesOn hb b
    exact ⟨hleft, List.forall_mem_cons.mpr ⟨⟨rfl, hsteps⟩, hfinished⟩⟩
  | case8 runners i h =>
    refine ⟨fun r hr => ht.visited r ?_, List.forall_mem_nil _⟩
    rwa [List.take_of_length_le (by simpa using h)]

theorem pairwise_pass {fs : List Finish} {m : Nat} (h : ∀ f ∈ fs, f.pass = m) :
    fs.Pairwise fun f g => f.pass ≤ g.pass :=
  List.pairwise_of_forall_mem_list fun f hf g hg => Nat.le_of_eq ((h f hf).trans (h g hg).symm)

/-- The passes complete matches one pass after the other. -/
theorem onTime_settleLog (h : ∀ r ∈ runners.toList, r.OnTime n) :
    (∀ f ∈ (settleLog program events settings n runners).finished,
        n < f.pass ∧ f.steps = f.pass + f.forks)
      ∧ (settleLog program events settings n runners).finished.Pairwise
        fun f g => f.pass ≤ g.pass := by
  fun_induction settleLog program events settings n runners with
  | case1 n runners first hs =>
    have hfirst : ∀ f ∈ first.finished, f.pass = n + 1 ∧ f.steps = f.pass + f.forks :=
      (timed_start h).onTime_passLog.2
    refine ⟨fun f hf => ⟨?_, (hfirst f hf).2⟩, ?_⟩
    · have hpass := (hfirst f hf).1
      omega
    · exact pairwise_pass fun f hf => (hfirst f hf).1
  | case2 n runners first hs later ih =>
    have hfirst : (∀ r ∈ first.left.toList, r.OnTime (n + 1))
        ∧ ∀ f ∈ first.finished, f.pass = n + 1 ∧ f.steps = f.pass + f.forks :=
      (timed_start h).onTime_passLog
    obtain ⟨hleft, hfirst⟩ := hfirst
    obtain ⟨hlater, hordered⟩ := ih hleft
    constructor
    · intro f hf
      rcases List.mem_append.mp hf with hf | hf
      · obtain ⟨hpass, hsteps⟩ := hfirst f hf
        exact ⟨by omega, hsteps⟩
      · obtain ⟨hpass, hsteps⟩ := hlater f hf
        exact ⟨by omega, hsteps⟩
    · refine List.pairwise_append.mpr ⟨pairwise_pass fun f hf => (hfirst f hf).1, hordered, ?_⟩
      intro f hf g hg
      have hpass := (hfirst f hf).1
      have hpass' := (hlater g hg).1
      omega

/-! ## The match that wins -/

/-- What comes of the branches of a session when it takes an event. -/
def log (s : Session) (e : Input) : Log :=
  settleLog s.program (s.events.push e) s.settings 0 (s.branches.map fun b => { branch := b })

/-- The complete matches on the paths of the branches of a session. -/
def finishes (s : Session) (e : Input) : List Runner :=
  s.branches.toList.flatMap fun b =>
    Runner.finishes s.program (s.events.push e) s.settings { branch := b }

theorem branchesOf_start (branches : Array Branch) :
    branchesOf (branches.map fun b => { branch := b }) = branches := by
  simp [branchesOf, Function.comp_def]

/-- The log of an event is a log of what the session does. -/
theorem settle_log (s : Session) (e : Input) :
    settle s.program (s.events.push e) s.settings s.branches none
      = (branchesOf (s.log e).left,
        lastAction none ((s.log e).finished.map fun f => f.branch)) := by
  rw [← branchesOf_start s.branches]
  exact settle_branchesOf 0 none

theorem drops_log (s : Session) (e : Input) :
    s.drops e = (s.log e).dropped.map Runner.branch := by
  unfold drops
  rw [← branchesOf_start s.branches]
  exact settleDrops_branchesOf 0 none

theorem finishes_log (s : Session) (e : Input) :
    ((s.log e).finished.map Finish.toRunner
        ++ (s.log e).dropped.flatMap
          (Runner.finishes s.program (s.events.push e) s.settings)).Perm (s.finishes e) := by
  have hp := finishes_settleLog s.program (s.events.push e) s.settings 0
    (s.branches.map fun b => { branch := b })
  rwa [Array.toList_map, List.flatMap_map] at hp

theorem onTime_log (s : Session) (e : Input) :
    (∀ f ∈ (s.log e).finished, 0 < f.pass ∧ f.steps = f.pass + f.forks)
      ∧ (s.log e).finished.Pairwise fun f g => f.pass ≤ g.pass := by
  refine onTime_settleLog fun r hr => ?_
  rw [Array.toList_map] at hr
  obtain ⟨b, -, rfl⟩ := List.mem_map.mp hr
  exact fun _ => rfl

theorem lastAction_finished (fs : List Finish) :
    lastAction none (fs.map fun f => f.branch)
      = fs.getLast?.map fun f => f.branch.captures.action := by
  rcases List.eq_nil_or_concat fs with rfl | ⟨fs, f, rfl⟩
  · rfl
  · simp [lastAction]

/-- The last match is of the last pass. -/
theorem pass_le_getLast {fs : List Finish} (h : fs.Pairwise fun f g => f.pass ≤ g.pass)
    {f : Finish} (hf : fs.getLast? = some f) : ∀ g ∈ fs, g.pass ≤ f.pass := by
  rcases List.eq_nil_or_concat fs with rfl | ⟨fs, f', rfl⟩
  · cases hf
  · rw [List.concat_eq_append] at h hf ⊢
    obtain rfl : f' = f := by simpa using hf
    have hlast := (List.pairwise_append.mp h).2.2
    intro g hg
    rcases List.mem_append.mp hg with hg | hg
    · exact hlast g hg f' List.mem_cons_self
    · exact Nat.le_of_eq (congrArg Finish.pass (List.mem_singleton.mp hg))

/-- A match is complete in the pass with the number of the steps on its path, less the splits at
which it was the fork. The action is that of the match completed last, and so of one for which this
number is the greatest. The matches are those on the paths of the branches, but for the paths of
dropped forks. -/
theorem the_match_of_the_last_pass_wins (s : Session) (e : Input) :
    let log := s.log e
    (s.feed e).1.branches = (branchesOf log.left).map Branch.unblock
      ∧ s.drops e = log.dropped.map Runner.branch
      ∧ (s.feed e).2.action = log.finished.getLast?.map (fun f => f.branch.captures.action)
      ∧ (log.finished.map Finish.toRunner
          ++ log.dropped.flatMap
            (Runner.finishes s.program (s.events.push e) s.settings)).Perm (s.finishes e)
      ∧ (∀ f ∈ log.finished, 0 < f.pass ∧ f.steps = f.pass + f.forks)
      ∧ log.finished.Pairwise (fun f g => f.pass ≤ g.pass)
      ∧ ∀ a, (s.feed e).2.action = some a → ∃ f ∈ log.finished, f.branch.captures.action = a
        ∧ ∀ g ∈ log.finished, (g.steps : Int) - g.forks ≤ (f.steps : Int) - f.forks := by
  intro log
  have hsettle := settle_log s e
  obtain ⟨htimes, hordered⟩ := onTime_log s e
  have haction : (s.feed e).2.action
      = log.finished.getLast?.map fun f => f.branch.captures.action := by
    rw [← lastAction_finished]
    exact congrArg Prod.snd hsettle
  refine ⟨congrArg (fun left => left.1.map Branch.unblock) hsettle, drops_log s e, haction,
    finishes_log s e, htimes, hordered, ?_⟩
  intro a ha
  rw [haction] at ha
  obtain ⟨f, hf, rfl⟩ := Option.map_eq_some_iff.mp ha
  have hmem := List.mem_of_getLast? hf
  refine ⟨f, hmem, rfl, fun g hg => ?_⟩
  have hle := pass_le_getLast hordered hf g hg
  have hsteps := (htimes f hmem).2
  have hsteps' := (htimes g hg).2
  omega

/-- Two ways to take an event: the first one jumps over the second one. -/
def firstOrSecond : Program := .ofList
  [.split 1 5, .capStart, .consume .any, .capEnd "first", .jump 4,
    .capStart, .consume .any, .capEnd "second", .done]

/-- The fork is complete after one step and one split less, and so two passes earlier. -/
theorem the_jump_of_the_first_way_wins :
    let s := start firstOrSecond {}
    let log := s.log (.typed 'x')
    log.finished.map (fun f => (f.steps, f.forks, f.pass)) = [(5, 1, 4), (6, 0, 6)]
      ∧ (s.feed (.typed 'x')).2.action = some ⟨"first", []⟩
      ∧ ∃ f ∈ log.finished, f.branch.captures.action = ⟨"first", []⟩
        ∧ ∀ g ∈ log.finished, (g.steps : Int) - g.forks ≤ (f.steps : Int) - f.forks := by
  intro s log
  have hcounts : log.finished.map (fun f => (f.steps, f.forks, f.pass))
      = [(5, 1, 4), (6, 0, 6)] := by decide +kernel
  have haction : (s.feed (.typed 'x')).2.action = some ⟨"first", []⟩ := by decide +kernel
  obtain ⟨-, -, -, -, -, -, hwins⟩ := the_match_of_the_last_pass_wins s (.typed 'x')
  exact ⟨hcounts, haction, hwins _ haction⟩

end Session

end Keymap
