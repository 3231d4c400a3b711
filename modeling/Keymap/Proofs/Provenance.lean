-- Where the arguments of a capture come from. A capture that closes takes the results that were
-- made last, so first those of the captures in it. If its template asks for more, it goes on with
-- the results that were waiting when it was opened.
import Keymap.Proofs.Commands
import Keymap.Proofs.Discipline

namespace Keymap

/-! ## Who has made a result -/

/-- A capture that a branch has opened: the number of moves before, and the branch then. -/
structure Opening where
  moment : Nat
  branch : Branch
deriving DecidableEq

/-- What the captures of a branch have done so far. The head of each list is the newest entry. -/
structure Ledger where
  /-- The number of moves. -/
  moment : Nat := 0
  /-- The captures that are open. -/
  opened : List Opening := []
  /-- For each result that waits, the capture that has made it. -/
  makers : List Opening := []
  /-- The captures that have taken a result of another one that was not opened after them. -/
  borrowers : List Opening := []
deriving DecidableEq

namespace Ledger

/-- One more capture is open. -/
def opens (o : Opening) (l : Ledger) : Ledger := { l with opened := o :: l.opened }

/-- The capture `o` is closed. It takes results by its template, and leaves its own. -/
def closes (template : String) (o : Opening) (l : Ledger) : Ledger :=
  { l with
    opened := l.opened.tail
    makers := o :: l.makers.drop (Captures.taken template)
    borrowers :=
      if ∀ m ∈ l.makers.take (Captures.taken template), o.moment < m.moment then l.borrowers
      else o :: l.borrowers }

/-- One more move. -/
def tick (l : Ledger) : Ledger := { l with moment := l.moment + 1 }

/-- The ledger after the next instruction of the branch. A capture that was never opened is as
good as opened there. -/
def after (program : Program) (b : Branch) (l : Ledger) : Ledger :=
  match program.get? b.pc with
  | some .capStart => l.tick.opens ⟨l.moment, b⟩
  | some (.capEnd template) => l.tick.closes template (l.opened.head?.getD ⟨l.moment, b⟩)
  | _ => l.tick

end Ledger

namespace Branch

/-- The branch has come from the start, and the ledger says what its captures have done. -/
inductive Keeps (program : Program) (style : CaptureStyle) : Branch → Ledger → Prop
  | start : Keeps program style {} {}
  | move {b b' : Branch} {l : Ledger} {m : Move} (h : Keeps program style b l)
    (hm : Moves program style b m b') : Keeps program style b' (l.after program b)

variable {program : Program} {style : CaptureStyle} {b b' : Branch} {l : Ledger} {o : Opening}
  {n : Nat}

/-- A move, where the branch and the ledger after it are known. -/
theorem Keeps.move_to {m : Move} {b₁ : Branch} {l' : Ledger} (h : Keeps program style b l)
    (hm : Moves program style b m b₁) (hb : b₁ = b') (hl : l.after program b = l') :
    Keeps program style b' l' :=
  hb ▸ hl ▸ h.move hm

/-- The ledger has the captures that are open. -/
theorem Keeps.exists_arrives (h : Keeps program style b l) :
    ∃ cs, Arrives program style b (l.opened.map Opening.branch) cs := by
  induction h with
  | start => exact ⟨[], .start⟩
  | @move b b' l m _ hm ih =>
    obtain ⟨cs, h⟩ := ih
    have hopened : (l.after program b).opened.map Opening.branch
        = b.openersAfter program (l.opened.map Opening.branch) := by
      unfold Ledger.after openersAfter
      split <;> simp_all [Ledger.tick, Ledger.opens, Ledger.closes]
    rw [hopened]
    exact ⟨_, .move h hm⟩

/-- What a move writes into the ledger, and what it makes of the results that wait. -/
theorem Moves.ledger_cases {m : Move} (hm : Moves program style b m b') (l : Ledger) :
    (l.after program b = l.tick ∧ b'.captures = b.captures)
      ∨ (l.after program b = l.tick.opens ⟨l.moment, b⟩ ∧ b'.captures = b.captures)
      ∨ ∃ template own,
        l.after program b = l.tick.closes template (l.opened.head?.getD ⟨l.moment, b⟩)
          ∧ b'.captures.results
            = own :: b.captures.results.drop (Captures.taken template) := by
  unfold Ledger.after
  cases hm with
  | capStart hi =>
    rw [hi]
    exact .inr (.inl ⟨rfl, rfl⟩)
  | @capEnd template hi =>
    rw [hi]
    obtain ⟨own, hown⟩ := Captures.exists_results_close style template
      ((b.goto (b.pc + 1)).spanFrom (b.marks.head?.getD b.consumed)) b.captures
    exact .inr (.inr ⟨template, own, rfl, hown⟩)
  | consume hi _ | jump hi | splitFirst hi | splitSecond hi | call hi | ret hi _ =>
    rw [hi]
    exact .inl ⟨rfl, rfl⟩

/-! ## Results of captures that are open -/

/-- The moments of a ledger are in order: captures are opened one after the other, and all that
is in the ledger has been opened before. -/
structure Timely (l : Ledger) : Prop where
  opened_lt : ∀ o ∈ l.opened, o.moment < l.moment
  makers_lt : ∀ m ∈ l.makers, m.moment < l.moment
  nested : l.opened.Pairwise fun o outer => outer.moment < o.moment

/-- The first `n` of the results that wait are of captures opened after `o`. The others were
waiting when `o` was opened, and are all that was waiting then unless a capture opened after `o`
has taken some. -/
structure Divides (b : Branch) (l : Ledger) (o : Opening) (n : Nat) : Prop where
  le : n ≤ l.makers.length
  length_eq : l.makers.length = b.captures.results.length
  inner : ∀ m ∈ l.makers.take n, o.moment < m.moment
  outer : ∀ m ∈ l.makers.drop n, m.moment < o.moment
  left : b.captures.results.drop n <:+ o.branch.captures.results
  kept : (∀ d ∈ l.borrowers, d.moment < o.moment) →
    b.captures.results.drop n = o.branch.captures.results

theorem Keeps.timely (h : Keeps program style b l) : Timely l := by
  induction h with
  | start => exact ⟨nofun, nofun, .nil⟩
  | @move b b' l m _ hm ih =>
    have hopened : ∀ o ∈ l.opened, o.moment < l.moment + 1 := fun o ho =>
      Nat.lt_succ_of_lt (ih.opened_lt o ho)
    have hmakers : ∀ m ∈ l.makers, m.moment < l.moment + 1 := fun m hm =>
      Nat.lt_succ_of_lt (ih.makers_lt m hm)
    rcases hm.ledger_cases l with ⟨hl, -⟩ | ⟨hl, -⟩ | ⟨template, own, hl, -⟩
    · rw [hl]
      exact ⟨hopened, hmakers, ih.nested⟩
    · rw [hl]
      refine ⟨?_, hmakers, List.pairwise_cons.mpr ⟨ih.opened_lt, ih.nested⟩⟩
      exact List.forall_mem_cons.mpr ⟨Nat.lt_succ_self _, hopened⟩
    · rw [hl]
      refine ⟨?_, ?_, ih.nested.tail⟩
      · intro o ho
        exact hopened o (List.mem_of_mem_tail ho)
      · refine List.forall_mem_cons.mpr ⟨?_, fun m hm => hmakers m (List.mem_of_mem_drop hm)⟩
        cases hhead : l.opened.head? with
        | none => exact Nat.lt_succ_self _
        | some o => exact hopened o (List.mem_of_mem_head? hhead)

theorem Keeps.length_eq (h : Keeps program style b l) :
    l.makers.length = b.captures.results.length := by
  induction h with
  | start => rfl
  | @move b b' l m _ hm ih =>
    rcases hm.ledger_cases l with ⟨hl, hc⟩ | ⟨hl, hc⟩ | ⟨template, own, hl, hc⟩
    · rw [hl, hc]
      exact ih
    · rw [hl, hc]
      exact ih
    · rw [hl, hc]
      simp [Ledger.closes, Ledger.tick, ih]

/-- A capture opened after `o` that takes only results of captures opened after it takes none
that was waiting when `o` was opened. -/
theorem Divides.drop_drop_eq (h : Divides b l o n) {inner : Opening} (ho : o.moment < inner.moment)
    {k : Nat} (hk : ∀ m ∈ l.makers.take k, inner.moment < m.moment) :
    (b.captures.results.drop n).drop (k - n) = b.captures.results.drop n := by
  by_cases hle : k ≤ n
  · rw [Nat.sub_eq_zero_of_le hle, List.drop_zero]
  · have hend : l.makers.length ≤ n := by
      by_contra hlt
      -- The first of the other results would be among those that are taken.
      have hn : n < l.makers.length := Nat.not_le.mp hlt
      have hmem : l.makers[n] ∈ l.makers.take k :=
        List.mem_take_iff_getElem.mpr ⟨n, by omega, rfl⟩
      have hmem' : l.makers[n] ∈ l.makers.drop n :=
        List.mem_drop_iff_getElem.mpr ⟨0, by omega, rfl⟩
      have := hk _ hmem
      have := h.outer _ hmem'
      omega
    have hnil : b.captures.results.drop n = [] := List.drop_eq_nil_of_le (h.length_eq ▸ hend)
    rw [hnil, List.drop_nil]

/-- A capture that is closed in `o` takes the results of captures opened after `o` before any
other. -/
theorem Divides.closes {inner : Opening} {template : String} {own : String}
    (h : Divides b l o n) (ho : o.moment < inner.moment)
    (hc : b'.captures.results = own :: b.captures.results.drop (Captures.taken template)) :
    Divides b' (l.tick.closes template inner) o (n - Captures.taken template + 1) := by
  generalize hk : Captures.taken template = k at hc
  have hdrop : ∀ {α : Type} (xs : List α), (xs.drop k).drop (n - k) = (xs.drop n).drop (k - n) := by
    intro α xs
    rw [List.drop_drop, List.drop_drop]
    congr 1
    omega
  simp only [Ledger.closes, Ledger.tick, hk]
  constructor
  · have := h.le
    simp only [List.length_cons, List.length_drop]
    omega
  · simp [hc, h.length_eq]
  · refine List.forall_mem_cons.mpr ⟨ho, ?_⟩
    intro m hm
    rw [← List.drop_take] at hm
    exact h.inner m (List.mem_of_mem_drop hm)
  · intro m hm
    rw [List.drop_succ_cons, hdrop] at hm
    exact h.outer m (List.mem_of_mem_drop hm)
  · rw [hc, List.drop_succ_cons, hdrop]
    exact (List.drop_suffix _ _).trans h.left
  · intro hd
    rw [hc, List.drop_succ_cons, hdrop]
    split at hd
    · next hall =>
      rw [h.drop_drop_eq ho hall]
      exact h.kept hd
    · exact absurd (hd inner (List.mem_cons_self ..)) (Nat.not_lt.mpr (Nat.le_of_lt ho))

/-- At every capture that is open, the results divide into those of the captures opened after it
and those that were waiting before. -/
theorem Keeps.exists_divides (h : Keeps program style b l) :
    ∀ o ∈ l.opened, ∃ n, Divides b l o n := by
  induction h with
  | start => exact nofun
  | @move b b' l m h hm ih =>
    have htimely := h.timely
    rcases hm.ledger_cases l with ⟨hl, hc⟩ | ⟨hl, hc⟩ | ⟨template, own, hl, hc⟩
    · rw [hl]
      intro o ho
      obtain ⟨n, hn⟩ := ih o ho
      exact ⟨n, hn.le, hc ▸ hn.length_eq, hn.inner, hn.outer, hc ▸ hn.left, hc ▸ hn.kept⟩
    · rw [hl]
      refine List.forall_mem_cons.mpr ⟨⟨0, ?_⟩, ?_⟩
      · -- All results that wait were waiting when the capture was opened.
        refine ⟨Nat.zero_le _, hc ▸ h.length_eq, nofun, htimely.makers_lt, ?_, ?_⟩
        · rw [hc]
          exact List.suffix_refl _
        · rw [hc]
          exact fun _ => rfl
      · intro o ho
        obtain ⟨n, hn⟩ := ih o ho
        exact ⟨n, hn.le, hc ▸ hn.length_eq, hn.inner, hn.outer, hc ▸ hn.left, hc ▸ hn.kept⟩
    · rw [hl]
      intro o ho
      obtain ⟨n, hn⟩ := ih o (List.mem_of_mem_tail ho)
      cases hopened : l.opened with
      | nil => simp [Ledger.closes, Ledger.tick, hopened] at ho
      | cons inner rest =>
        have hnested := htimely.nested
        rw [hopened, List.pairwise_cons] at hnested
        simp only [Ledger.closes, Ledger.tick, hopened, List.tail_cons] at ho
        exact ⟨_, hn.closes (hnested.1 o ho) hc⟩

end Branch

/-! ## What a capture takes -/

namespace Captures

variable {c : Captures} {template : String} {n : Nat}

theorem nested_of_le (h : taken template ≤ n) :
    c.nested template = ((c.results.take n).take (taken template)).reverse := by
  rw [nested, List.take_take, Nat.min_eq_left h]

/-- Past the first `n` results, a template takes from the others. -/
theorem nested_of_lt (h : n < taken template) :
    c.nested template
      = ((c.results.drop n).take (taken template - n)).reverse ++ (c.results.take n).reverse := by
  have hsplit : taken template = n + (taken template - n) := by omega
  rw [nested, hsplit, List.take_add, List.reverse_append, Nat.add_sub_cancel_left]

theorem drop_results_of_le (h : taken template ≤ n) (hn : n ≤ c.results.length) :
    c.results.drop (taken template)
      = (c.results.take n).drop (taken template) ++ c.results.drop n := by
  have hlen : taken template ≤ (c.results.take n).length := by
    rw [List.length_take, Nat.min_eq_left hn]
    exact h
  rw [← List.drop_append_of_le_length hlen, List.take_append_drop]

end Captures

namespace Session

variable {s : Session}

/-- While a program runs, every branch has a ledger of what its captures have done. -/
theorem Reachable.exists_keeps (h : s.Reachable) (e : Input) :
    ∀ bs ∈ s.moments e, ∀ b ∈ bs.toList,
      ∃ l, Branch.Keeps s.program s.settings.style b.still l := by
  refine h.forall_moments_still (P := fun b => ∃ l, Branch.Keeps _ _ b l) ?_ ?_ e
  · exact ⟨{}, .start⟩
  · rintro b m b' ⟨l, hb⟩ hm
    exact ⟨_, .move hb hm⟩

/-- Where a capture of a compiled program closes, the results that wait are those of captures
opened after it, and then those that were waiting when it was opened. If its template takes no
more than the first, these are its arguments, and the others stay as they are. If it takes more,
its first arguments are results that were waiting when it was opened. -/
theorem a_capture_takes_nested_results_first (hs : s.Reachable)
    {rules : List (String × Pattern)} {p : Pattern} (hp : Compiled s.program rules p) :
    ∃ addresses, Layout s.program addresses rules p
      ∧ ∀ e, ∀ bs ∈ s.moments e, ∀ b ∈ bs.toList,
        (∃ l, Branch.Keeps s.program s.settings.style b.still l)
          ∧ ∀ l, Branch.Keeps s.program s.settings.style b.still l →
            ∀ template, s.program.get? b.pc = some (.capEnd template) →
              let results := b.captures.results
              let k := Captures.taken template
              ∃ o rest n own, l.opened = o :: rest
                ∧ Branch.Closes s.program addresses rules p template b o.branch
                ∧ Branch.Divides b l o n
                ∧ (b.closeCapture s.settings.style template).captures.results
                  = own :: results.drop k
                ∧ (k ≤ n → b.captures.nested template = ((results.take n).take k).reverse
                  ∧ results.drop k = (results.take n).drop k ++ results.drop n)
                ∧ (n < k → b.captures.nested template
                    = ((results.drop n).take (k - n)).reverse ++ (results.take n).reverse) := by
  obtain ⟨addresses, hl⟩ := hp.layout
  refine ⟨addresses, hl, ?_⟩
  intro e bs hbs b hb
  refine ⟨hs.exists_keeps e bs hbs b hb, ?_⟩
  intro l hkeeps template hend results k
  obtain ⟨cs, harrives⟩ := hkeeps.exists_arrives
  obtain ⟨_, _, hopened, hcloses⟩ := harrives.closes hl hend
  obtain ⟨o, rest, hlist, rfl, -⟩ := List.map_eq_cons_iff.mp hopened
  have hmem : o ∈ l.opened := hlist ▸ List.mem_cons_self ..
  obtain ⟨n, hn⟩ := hkeeps.exists_divides o hmem
  have hlen : n ≤ b.captures.results.length := Nat.le_trans hn.le (Nat.le_of_eq hn.length_eq)
  obtain ⟨own, hown⟩ := Captures.exists_results_close s.settings.style template
    (b.spanFrom (b.marks.head?.getD b.consumed)) b.captures
  refine ⟨o, rest, n, own, hlist, hcloses, ?_, hown, ?_, Captures.nested_of_lt⟩
  · exact ⟨hn.le, hn.length_eq, hn.inner, hn.outer, hn.left, hn.kept⟩
  · intro hk
    exact ⟨Captures.nested_of_le hk, Captures.drop_results_of_le hk hlen⟩

/-- A letter, in a capture that is in another one. -/
def quotedLetter : Pattern := .capture (.capture (.event (.key (.typed 'a') {})) "$0") "<$1>"

def quotedLetterProgram : Program := .ofList
  [.capStart, .capStart, .consume (.key (.typed 'a') {}), .capEnd "$0", .capEnd "<$1>"]

theorem compile_quotedLetter : quotedLetter.compile = .ok quotedLetterProgram := by cbv

/-- The outer capture takes the one result that has been made since it was opened. -/
theorem a_quoted_letter_takes_the_letter :
    let s := start quotedLetterProgram {}
    ∃ bs ∈ s.moments (.typed 'a'), ∃ b ∈ bs.toList, ∃ l o,
      Branch.Keeps s.program .inline b.still l ∧ l.opened = [o]
        ∧ s.program.get? b.pc = some (.capEnd "<$1>") ∧ Branch.Divides b l o 1
        ∧ b.captures.nested "<$1>" = ((b.captures.results.take 1).take 1).reverse
        ∧ (b.closeCapture .inline "<$1>").captures.results = ["<a>"] := by
  intro s
  have ha : (Matcher.key (.typed 'a') {}).accept? (.typed 'a') = some (.char 'a') := by
    decide +kernel
  -- Both captures open, the letter is consumed, and the inner capture closes.
  have h1 : Branch.Keeps quotedLetterProgram .inline { pc := 1, marks := [0] }
      { moment := 1, opened := [⟨0, {}⟩] } :=
    .move .start (.capStart rfl)
  let opening : Opening := ⟨1, { pc := 1, marks := [0] }⟩
  have h2 : Branch.Keeps quotedLetterProgram .inline { pc := 2, marks := [0, 0] }
      { moment := 2, opened := [opening, ⟨0, {}⟩] } :=
    .move h1 (.capStart rfl)
  have h3 : Branch.Keeps quotedLetterProgram .inline
      { pc := 3, consumed := 1, marks := [0, 0], payloads := [.char 'a'] }
      { moment := 3, opened := [opening, ⟨0, {}⟩] } :=
    .move h2 (.consume rfl ha)
  let b : Branch :=
    { pc := 4, consumed := 1, marks := [0], payloads := [.char 'a'],
      captures := ⟨[.char 'a'], ["a"]⟩ }
  let l : Ledger := { moment := 4, opened := [⟨0, {}⟩], makers := [opening] }
  have h4 : Branch.Keeps quotedLetterProgram .inline b l :=
    h3.move_to (.capEnd rfl) (by decide +kernel) (by decide +kernel)
  have hb : ∃ bs ∈ s.moments (.typed 'a'), { b with idle := 1 } ∈ bs.toList := by decide +kernel
  obtain ⟨bs, hbs, hb⟩ := hb
  obtain ⟨addresses, -, hall⟩ :=
    a_capture_takes_nested_results_first (.start _ _ : s.Reachable) (.pattern compile_quotedLetter)
  obtain ⟨o, rest, n, own, hopened, -, hn, -, henough, -⟩ :=
    (hall (.typed 'a') bs hbs _ hb).2 l h4 "<$1>" rfl
  obtain ⟨rfl, rfl⟩ := List.cons.inj hopened
  have htaken : Captures.taken "<$1>" = 1 := by decide +kernel
  -- The result is of a capture that was opened later, so it is not one of the others.
  have hone : n = 1 := by
    refine Nat.le_antisymm hn.le (Nat.one_le_iff_ne_zero.mpr ?_)
    rintro rfl
    exact absurd (hn.outer opening (List.mem_cons_self ..)) (by decide)
  subst hone
  rw [htaken] at henough
  exact ⟨bs, hbs, _, hb, l, _, h4, rfl, rfl, hn, (henough (Nat.le_refl _)).1, by decide +kernel⟩

/-- Two letters, each in a capture. Neither of the captures is in the other. -/
def letterAndQuote : Pattern :=
  .seq (.capture (.event (.key (.typed 'a') {})) "X")
    (.capture (.event (.key (.typed 'b') {})) "<$1>")

def letterAndQuoteProgram : Program := .ofList
  [.capStart, .consume (.key (.typed 'a') {}), .capEnd "X",
    .capStart, .consume (.key (.typed 'b') {}), .capEnd "<$1>"]

/-- The second capture takes the result of the first, which was waiting when the second was
opened. -/
theorem a_capture_may_take_the_result_of_another :
    letterAndQuote.compile = .ok letterAndQuoteProgram
      ∧ ∃ bs ∈ ((start letterAndQuoteProgram {}).feed (.typed 'a')).1.moments (.typed 'b'),
        ∃ b ∈ bs.toList, ∃ l o, Branch.Keeps letterAndQuoteProgram .inline b.still l
          ∧ letterAndQuoteProgram.get? b.pc = some (.capEnd "<$1>") ∧ l.opened = [o]
          ∧ (∃ m ∈ l.makers.take (Captures.taken "<$1>"), m.moment < o.moment)
          ∧ o.branch.captures.results = ["X"] ∧ b.captures.nested "<$1>" = ["X"]
          ∧ (b.closeCapture .inline "<$1>").captures.results = ["<X>"] := by
  refine ⟨by cbv, ?_⟩
  have ha : (Matcher.key (.typed 'a') {}).accept? (.typed 'a') = some (.char 'a') := by
    decide +kernel
  have hb' : (Matcher.key (.typed 'b') {}).accept? (.typed 'b') = some (.char 'b') := by
    decide +kernel
  have h1 : Branch.Keeps letterAndQuoteProgram .inline { pc := 1, marks := [0] }
      { moment := 1, opened := [⟨0, {}⟩] } :=
    .move .start (.capStart rfl)
  have h2 : Branch.Keeps letterAndQuoteProgram .inline
      { pc := 2, consumed := 1, marks := [0], payloads := [.char 'a'] }
      { moment := 2, opened := [⟨0, {}⟩] } :=
    .move h1 (.consume rfl ha)
  let middle : Branch :=
    { pc := 3, consumed := 1, captures := ⟨[], ["X"]⟩, payloads := [.char 'a'] }
  have h3 : Branch.Keeps letterAndQuoteProgram .inline middle
      { moment := 3, makers := [⟨0, {}⟩] } :=
    h2.move_to (.capEnd rfl) (by decide +kernel) (by decide +kernel)
  have h4 : Branch.Keeps letterAndQuoteProgram .inline { middle with pc := 4, marks := [1] }
      { moment := 4, opened := [⟨3, middle⟩], makers := [⟨0, {}⟩] } :=
    .move h3 (.capStart rfl)
  let b : Branch :=
    { pc := 5, consumed := 2, marks := [1], captures := ⟨[], ["X"]⟩,
      payloads := [.char 'b', .char 'a'] }
  have h5 : Branch.Keeps letterAndQuoteProgram .inline b
      { moment := 5, opened := [⟨3, middle⟩], makers := [⟨0, {}⟩] } :=
    .move h4 (.consume rfl hb')
  have hb : ∃ bs ∈ ((start letterAndQuoteProgram {}).feed (.typed 'a')).1.moments (.typed 'b'),
      b ∈ bs.toList := by
    decide +kernel
  obtain ⟨bs, hbs, hb⟩ := hb
  refine ⟨bs, hbs, b, hb, _, ⟨3, middle⟩, h5, rfl, rfl, ?_⟩
  decide +kernel

end Session

end Keymap
