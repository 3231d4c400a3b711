-- A match that may go on can be completed. From each place in the code of a pattern a branch comes
-- to the end of the code, or its match is complete before: whatever it needs on its way, there is
-- an event that is accepted.
import Keymap.Proofs.Compilation
import Keymap.Proofs.Soundness
import Keymap.Proofs.Stacks
import Mathlib.Data.Set.List

namespace Keymap

/-! ## Matchers that accept something -/

namespace Matcher

/-- A wildcard that accepts no character at all is not open. -/
def Open : Matcher → Prop
  | .range low high => low ≤ high
  | .oneOf set => ∃ c, set.contains c
  | .key _ _ => True
  | .mouse _ _ => True
  | .paste => True
  | .resize => True

/-- What a wildcard accepts is a key that stands for a character of the wildcard. -/
theorem exists_accept_of_wildcard {m : Matcher} {keep : Char → Bool}
    (h : ∀ e v, m.accept? e = some v ↔ ∃ k c, e = .key k ∧ k.plainChar? = some c ∧ keep c
      ∧ .char c = v) : (∃ e, (m.accept? e).isSome) ↔ ∃ c, keep c := by
  simp only [Option.isSome_iff_exists, h]
  constructor
  · rintro ⟨-, -, -, c, -, -, hc, -⟩
    exact ⟨c, hc⟩
  · rintro ⟨c, hc⟩
    exact ⟨.typed c, .char c, .typed c, c, rfl, rfl, hc, rfl⟩

theorem accept_range_iff {low high : Char} {e : Input} {v : Value} :
    (range low high).accept? e = some v ↔ ∃ k c, e = .key k ∧ k.plainChar? = some c
      ∧ (low ≤ c && c ≤ high) ∧ .char c = v := by
  cases e <;> simp [accept?, Option.filter_eq_some_iff, and_assoc]

theorem accept_oneOf_iff {set : CharSet} {e : Input} {v : Value} :
    (oneOf set).accept? e = some v ↔ ∃ k c, e = .key k ∧ k.plainChar? = some c
      ∧ set.contains c ∧ .char c = v := by
  cases e <;> simp [accept?, Option.filter_eq_some_iff, and_assoc]

theorem exists_accept_iff {m : Matcher} : (∃ e, (m.accept? e).isSome) ↔ m.Open := by
  cases m with
  | key press codec => exact iff_of_true ⟨.key press, by simp [accept?]⟩ trivial
  | mouse button mods =>
    exact iff_of_true ⟨.mouse ⟨button, mods, 0, 0⟩, by simp [accept?]⟩ trivial
  | range low high =>
    rw [exists_accept_of_wildcard fun _ _ => accept_range_iff]
    simp only [Open, Bool.and_eq_true, decide_eq_true_eq]
    constructor
    · rintro ⟨c, hlow, hhigh⟩
      exact Char.le_trans hlow hhigh
    · intro h
      exact ⟨low, Char.le_refl low, h⟩
  | oneOf set => exact exists_accept_of_wildcard fun _ _ => accept_oneOf_iff
  | paste => exact iff_of_true ⟨.paste "", rfl⟩ trivial
  | resize => exact iff_of_true ⟨.resize 0 0, rfl⟩ trivial

end Matcher

/-! ## What a pattern is made of -/

namespace Pattern

/-- The matchers of the pattern. -/
def matchers : Pattern → List Matcher
  | .event m => [m]
  | .seq a b => a.matchers ++ b.matchers
  | .alt a b => a.matchers ++ b.matchers
  | .star p => p.matchers
  | .plus p => p.matchers
  | .opt p => p.matchers
  | .capture p _ => p.matchers
  | .done => []
  | .rule _ => []

/-- The names of the rules that the pattern refers to. -/
def names : Pattern → List String
  | .event _ => []
  | .seq a b => a.names ++ b.names
  | .alt a b => a.names ++ b.names
  | .star p => p.names
  | .plus p => p.names
  | .opt p => p.names
  | .capture p _ => p.names
  | .done => []
  | .rule name => [name]

theorem Child.matchers_subset {p q : Pattern} {k : Nat} (h : Child p k q) :
    q.matchers ⊆ p.matchers := by
  cases h with
  | seqFirst | altFirst => exact List.subset_append_left ..
  | seqSecond | altSecond => exact List.subset_append_right ..
  | star | plus | opt | capture => exact List.Subset.refl _

/-- The calls in the code of a pattern are those of the rules that it refers to. -/
theorem callRule_mem_code_iff {p : Pattern} {name : String} :
    .callRule name ∈ p.code ↔ name ∈ p.names := by
  induction p with
  | event m => simp [code_event, names]
  | seq a b iha ihb => simp [code_seq, names, iha, ihb]
  | alt a b iha ihb => simp [code_alt, names, iha, ihb]
  | star p ih => simp [code_star, names, ih]
  | plus p ih => simp [code_plus, names, ih]
  | opt p ih => simp [code_opt, names, ih]
  | capture p template ih => simp [code_capture, names, ih]
  | done => simp [code_done, names]
  | rule name => simp [code_rule, names]

/-- A pattern is compiled without rules if and only if it refers to none. -/
theorem exists_compile_iff {p : Pattern} :
    (∃ program, p.compile = .ok program) ↔ p.names = [] := by
  simp only [compile_eq_ok_iff]
  constructor
  · rintro ⟨program, hcode⟩
    refine List.eq_nil_iff_forall_not_mem.mpr fun name hname => ?_
    have hmem := callRule_mem_code_iff.mpr hname
    rw [hcode] at hmem
    simp at hmem
  · intro hnames
    have hinst : ∀ s ∈ p.code, s ∈ Set.range Slot.inst := by
      intro s hs
      cases s with
      | inst i => exact ⟨i, rfl⟩
      | callRule name =>
        have hname := callRule_mem_code_iff.mp hs
        rw [hnames] at hname
        cases hname
    obtain ⟨insts, hinsts⟩ : p.code ∈ Set.range (List.map Slot.inst) :=
      Set.range_list_map Slot.inst ▸ hinst
    exact ⟨.ofList insts, hinsts.symm⟩

end Pattern

namespace Branch

variable {program : Program} {style : CaptureStyle} {addresses : List (String × Nat)}
  {p q : Pattern} {a k x : Nat} {ys : List Nat} {b : Branch} {c : Captures}

/-! ## On to the end of the code -/

/-- A pattern whose matchers all accept something derives something, whatever was captured. -/
theorem exists_derives (hl : RuleLayout program addresses [])
    (hp : Placed program addresses a p.code) (hopen : ∀ m ∈ p.matchers, m.Open)
    (style : CaptureStyle) (c : Captures) :
    ∃ path c' ending, Derives style [] p c path c' ending := by
  induction p generalizing a c with
  | event m =>
    obtain ⟨e, he⟩ := Matcher.exists_accept_iff.mpr (hopen m (List.mem_singleton_self m))
    obtain ⟨v, hv⟩ := Option.isSome_iff_exists.mp he
    exact ⟨_, c, .goesOn, .event hv⟩
  | seq p q ihp ihq =>
    rw [Pattern.code_seq, placed_append] at hp
    simp only [Pattern.matchers, List.forall_mem_append] at hopen
    obtain ⟨path, c', ending, hd⟩ := ihp hp.1 hopen.1 c
    cases ending with
    | ends => exact ⟨_, _, _, .seqEnds hd⟩
    | goesOn =>
      obtain ⟨path', c'', ending, hd'⟩ := ihq hp.2 hopen.2 c'
      exact ⟨_, _, _, .seq hd hd'⟩
  | alt p q ihp _ =>
    simp only [Pattern.matchers, List.forall_mem_append] at hopen
    obtain ⟨path, c', ending, hd⟩ := ihp hp.alt.2.1 hopen.1 c
    cases ending with
    | ends => exact ⟨_, _, _, .altFirstEnds hd⟩
    | goesOn => exact ⟨_, _, _, .altFirst hd⟩
  | star p _ => exact ⟨_, _, _, .starNone⟩
  | plus p ih =>
    obtain ⟨path, c', ending, hd⟩ := ih hp.plus.1 hopen c
    cases ending with
    | ends => exact ⟨_, _, _, .plusEnds hd⟩
    | goesOn => exact ⟨_, _, _, .plusOnce hd⟩
  | opt p _ => exact ⟨_, _, _, .optNone⟩
  | capture p template ih =>
    obtain ⟨path, c', ending, hd⟩ := ih hp.capture.2.1 hopen c
    cases ending with
    | ends => exact ⟨_, _, _, .captureEnds hd⟩
    | goesOn => exact ⟨_, _, _, .capture hd⟩
  | done => exact ⟨_, _, _, .done⟩
  | rule name =>
    obtain ⟨body, hbody⟩ := hl.exists_body hp
    cases hbody

/-- The branch can come to `n`, or to where its match is complete. -/
def CanReach (program : Program) (style : CaptureStyle) (n : Nat) (b : Branch) : Prop :=
  ∃ path t, Runs program style b path t ∧ (t.pc = n ∨ Complete program t)

theorem canReach_of_eq {n : Nat} (h : b.pc = n) : CanReach program style n b :=
  ⟨[], b, .nil, .inl h⟩

theorem canReach_of_moves {n : Nat} {m : Move} {t : Branch} (hm : Moves program style b m t)
    (h : t.pc = n) : CanReach program style n b :=
  ⟨[m], t, .single hm, .inl h⟩

/-- From wherever the branch comes to, it can go on. -/
theorem CanReach.trans {n n' : Nat} (h : CanReach program style n b)
    (hnext : ∀ t : Branch, t.pc = n → CanReach program style n' t) :
    CanReach program style n' b := by
  obtain ⟨path, t, hr, ht | ht⟩ := h
  · obtain ⟨path', t', hr', ht'⟩ := hnext t ht
    exact ⟨path ++ path', t', hr.append hr', ht'⟩
  · exact ⟨path, t, hr, .inr ht⟩

section

variable (hl : RuleLayout program addresses [])

include hl

/-- From the start of the code of a pattern to its end. -/
theorem canReach_stop (hp : Placed program addresses a p.code)
    (hopen : ∀ m ∈ p.matchers, m.Open) (hb : b.pc = a) :
    CanReach program style (a + p.code.length) b := by
  subst hb
  obtain ⟨path, c, ending, hd⟩ := exists_derives hl hp hopen style b.captures
  have hr := reads_of_derives hl hd hp rfl
  cases ending with
  | goesOn => exact ⟨path, _, hr, .inl rfl⟩
  | ends =>
    obtain ⟨t, hr, ht, -⟩ := hr
    exact ⟨path, t, hr, .inr (.inr (.inl ht))⟩

/-- From behind the code of a child to the end of the code: one case for each place that a child
has in its pattern. -/
theorem canReach_stop_of_child (hc : p.Child k q) (hp : Placed program addresses a p.code)
    (hopen : ∀ m ∈ p.matchers, m.Open) (hb : b.pc = a + k + q.code.length) :
    CanReach program style (a + p.code.length) b := by
  cases hc with
  | seqFirst _ second =>
    have hsecond := Pattern.Child.seqSecond q second
    have hopen : ∀ m ∈ second.matchers, m.Open :=
      fun m hm => hopen m (hsecond.matchers_subset hm)
    rw [Pattern.code_seq, List.length_append, ← Nat.add_assoc]
    exact canReach_stop hl (hsecond.placed hp) hopen hb
  | seqSecond =>
    apply canReach_of_eq
    rw [hb, Pattern.code_seq, List.length_append, Nat.add_assoc]
  | altFirst =>
    obtain ⟨offset, hi, htarget⟩ := hp.alt.2.2.1
    rw [← hb] at hi htarget
    exact canReach_of_moves (.jump hi) htarget
  | altSecond first =>
    apply canReach_of_eq
    rw [hb]
    exact end_alt a first q
  | star =>
    obtain ⟨⟨first, second, hi, -, htarget⟩, -, offset, hback, hstart⟩ := hp.star
    rw [← hb] at hback hstart
    refine (canReach_of_moves (.jump hback) hstart).trans fun t ht => ?_
    subst ht
    exact canReach_of_moves (.splitSecond hi) htarget
  | plus =>
    obtain ⟨-, first, second, hi, -, htarget⟩ := hp.plus
    rw [Nat.add_zero] at hb
    rw [← hb] at hi htarget
    exact canReach_of_moves (.splitSecond hi) htarget
  | opt =>
    apply canReach_of_eq
    rw [hb]
    exact end_opt a q
  | capture _ template =>
    have hi := hp.capture.2.2
    rw [← hb] at hi
    refine canReach_of_moves (.capEnd hi) ?_
    rw [← end_capture a q template, ← hb]
    rfl

/-- From each place in the code of a pattern to its end. -/
theorem canReach_stop_of_inside (hi : p.Inside a x ys) (hp : Placed program addresses a p.code)
    (hopen : ∀ m ∈ p.matchers, m.Open) (hb : b.pc = x) :
    CanReach program style (a + p.code.length) b := by
  induction hi generalizing b with
  | start p a => exact canReach_stop hl hp hopen hb
  | stop p a => exact canReach_of_eq hb
  | child hc _ ih =>
    have hchild := ih (hc.placed hp) (fun m hm => hopen m (hc.matchers_subset hm)) hb
    exact hchild.trans fun t ht => canReach_stop_of_child hl hc hp hopen ht

end

/-- What a run makes of a branch that has come from the start has come from there too. -/
theorem Runs.exists_arrives {path : Path} {t : Branch} {os cs : List Branch}
    (hr : Runs program style b path t) (h : Arrives program style b os cs) :
    ∃ os cs, Arrives program style t os cs := by
  induction hr generalizing os cs with
  | nil => exact ⟨os, cs, h⟩
  | cons hm _ ih => exact ih (.move h hm)

/-- Wherever a branch of a pattern without rules has come, it is in the code of the pattern. -/
theorem Runs.exists_inside {path : Path} (hl : Layout program addresses [] p)
    (hr : Runs program style {} path b) : ∃ ys, p.Inside 0 b.pc ys := by
  obtain ⟨os, cs, h⟩ := hr.exists_arrives .start
  obtain ⟨hf, hi, -⟩ := h.stands hl
  cases hf with
  | main => exact ⟨_, hi⟩
  | rule _ _ _ _ _ hmem _ => cases hmem

/-- And it can complete its match from there. -/
theorem Runs.exists_complete {path : Path} (hl : Layout program addresses [] p)
    (hopen : ∀ m ∈ p.matchers, m.Open) (hr : Runs program style {} path b) :
    ∃ path' t, Runs program style b path' t ∧ Complete program t := by
  obtain ⟨ys, hi⟩ := hr.exists_inside hl
  have hreach : CanReach program style (0 + p.code.length) b :=
    canReach_stop_of_inside hl.toRuleLayout hi hl.main hopen rfl
  obtain ⟨path', t, hr', ht | ht⟩ := hreach
  · rw [Nat.zero_add] at ht
    refine ⟨path', t, hr', ?_⟩
    unfold Complete
    rw [ht]
    exact hl.exit.imp_right .inl
  · exact ⟨path', t, hr', ht⟩

end Branch

namespace Session

variable {s : Session}

theorem exists_branch_of_mayContinue {e : Input} (h : (s.feed e).2.mayContinue = true) :
    ∃ b, b ∈ (s.feed e).1.branches.toList := by
  refine List.exists_mem_of_ne_nil _ fun hnil => ?_
  simp [feed] at h hnil
  exact h hnil

/-- A session that may go on has a branch that has come along a path with all events so far, and
waits for another one. -/
theorem Fresh.exists_waiting (hs : s.Fresh) {earlier : List Input} {e : Input}
    (h : ((s.feedAll earlier).feed e).2.mayContinue = true) :
    ∃ b path, Branch.Runs s.program s.settings.style {} path b
      ∧ Path.events path = earlier ++ [e] ∧ ∃ m, s.program.get? b.pc = some (.consume m) := by
  obtain ⟨b, hb⟩ := exists_branch_of_mayContinue h
  have hlast : ((s.feedAll earlier).feed e).1 = s.feedAll (earlier ++ [e]) := by simp [feedAll]
  rw [hlast] at hb
  have hquiet := (hs.reachable.feedAll (earlier ++ [e])).quiet
  have hevents : (s.feedAll (earlier ++ [e])).events.toList = earlier ++ [e] := by
    rw [events_feedAll, hs.eq_start]
    rfl
  have hconsumed := hquiet.consumed b hb
  rw [← Array.length_toList, hevents] at hconsumed
  obtain ⟨path, hr, hpath⟩ := hs.traced.feedAll hs.reachable.quiet (earlier ++ [e]) b hb
  rw [program_feedAll, settings_feedAll] at hr
  refine ⟨b.still, path, hr, ?_, ?_⟩
  · rw [hpath, hevents, hconsumed, List.take_length]
  · have hsome : (s.feedAll (earlier ++ [e])).events.size ≠ 0 := by
      rw [← Array.length_toList, hevents]
      simp
    have hi := hquiet.consumes hsome b hb
    rw [program_feedAll] at hi
    exact hi

/-- A pattern that refers to no rule is compiled. If each of its matchers accepts something, a
match that may go on can be completed: there are more events with which the pattern has a
derivation. -/
theorem a_match_that_may_go_on_can_be_completed {p : Pattern} (hp : p.names = [])
    (hopen : ∀ m ∈ p.matchers, ∃ e, (m.accept? e).isSome) :
    ∃ program, p.compile = .ok program
      ∧ ∀ s : Session, s.Fresh → s.program = program → ∀ earlier e,
        ((s.feedAll earlier).feed e).2.mayContinue = true →
          ∃ f more path c ending, Derives s.settings.style [] p {} path c ending
            ∧ Path.events path = earlier ++ [e] ++ f :: more := by
  obtain ⟨program, hcompile⟩ := Pattern.exists_compile_iff.mpr hp
  refine ⟨program, hcompile, ?_⟩
  rintro s hs rfl earlier e hmay
  obtain ⟨addresses, hl⟩ := (Compiled.pattern hcompile).layout
  obtain ⟨b, path, hr, hevents, m, hi⟩ := hs.exists_waiting hmay
  have hopen : ∀ m ∈ p.matchers, m.Open := fun m hm => Matcher.exists_accept_iff.mp (hopen m hm)
  obtain ⟨path', t, hr', ht⟩ := hr.exists_complete hl hopen
  -- The branch goes on with the event that it waits for.
  obtain ⟨f, v, rest, -, rfl, -⟩ := hr'.of_consume ht hi
  obtain ⟨ending, hd⟩ := (Branch.exists_derives_iff hl).mpr ⟨t, hr.append hr', ht, rfl⟩
  refine ⟨f, Path.events rest, _, _, ending, hd, ?_⟩
  rw [Path.events_append, hevents]
  rfl

/-- Digits in a capture, and then G. -/
def countedKey : Pattern :=
  .seq (.capture (.plus (.event (.range '0' '9'))) "$0") (.event (.range 'G' 'G'))

def countedKeyProgram : Program := .ofList
  [.capStart, .consume (.range '0' '9'), .split (-1) 1, .capEnd "$0", .consume (.range 'G' 'G')]

theorem compile_countedKey : countedKey.compile = .ok countedKeyProgram := by cbv

/-- After a digit the count may go on, inside the capture and the loop. -/
theorem a_count_that_may_go_on_can_be_completed :
    countedKey.names = [] ∧ (∀ m ∈ countedKey.matchers, ∃ e, (m.accept? e).isSome)
      ∧ ((start countedKeyProgram {}).feed (.typed '4')).2.mayContinue = true
      ∧ ∃ f more path c ending, Derives .inline [] countedKey {} path c ending
        ∧ Path.events path = .typed '4' :: f :: more := by
  have hopen : ∀ m ∈ countedKey.matchers, ∃ e, (m.accept? e).isSome := by
    intro m hm
    rw [Matcher.exists_accept_iff]
    have hm : m = .range '0' '9' ∨ m = .range 'G' 'G' := by
      simpa [countedKey, Pattern.matchers] using hm
    rcases hm with rfl | rfl <;> simp [Matcher.Open]
  obtain ⟨program, hcompile, hall⟩ := a_match_that_may_go_on_can_be_completed rfl hopen
  obtain rfl : countedKeyProgram = program :=
    Except.ok.inj (compile_countedKey.symm.trans hcompile)
  have hmay : ((start countedKeyProgram {}).feed (.typed '4')).2.mayContinue = true := by
    decide +kernel
  exact ⟨rfl, hopen, hmay, hall (start countedKeyProgram {}) (.new _ _) rfl [] (.typed '4') hmay⟩

/-- Where a matcher accepts nothing, a match may go on in vain. -/
example :
    ((start (.ofList [.consume .any, .consume (.range 'z' 'a')]) {}).feed
      (.typed 'x')).2.mayContinue = true := by
  decide +kernel

end Session

end Keymap
