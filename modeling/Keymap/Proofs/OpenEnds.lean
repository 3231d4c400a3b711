-- What is open where a match completes. Behind the code of the pattern nothing is, but an end of
-- the match may stand anywhere in the pattern, and leaves the captures open that it stands in.
import Keymap.Proofs.Discipline

namespace Keymap

namespace Pattern

/-- The pattern has `r` in it, and the code of `r` begins at `n`. The captures around it begin at
`ys`, the innermost first. -/
inductive Around : Pattern → Nat → Pattern → Nat → List Nat → Prop
  | self (p : Pattern) (a : Nat) : Around p a p a []
  | child {p q r : Pattern} {a k n : Nat} {ys : List Nat} (hc : Child p k q)
    (hq : Around q (a + k) r n ys) : Around p a r n (ys ++ p.opens a)

variable {program : Program} {addresses : List (String × Nat)} {p q r : Pattern}
  {a k x y n : Nat} {ys : List Nat}

theorem Around.part (h : Around p a r n ys) : Part p a r n := by
  induction h with
  | self p a => exact .self p a
  | child hc _ ih => exact .child hc ih

/-- What stands in a capture is a part of the pattern that the capture is made of. -/
theorem Around.exists_capture (h : Around p a r n ys) (hy : y ∈ ys) :
    ∃ q template, Part p a (.capture q template) y ∧ Part q (y + 1) r n := by
  induction h with
  | self => cases hy
  | @child p q r a k n ys hc hq ih =>
    rcases List.mem_append.mp hy with hy | hy
    · obtain ⟨body, template, hpart, hbody⟩ := ih hy
      exact ⟨body, template, .child hc hpart, hbody⟩
    · cases p with
      | capture body template =>
        obtain rfl := List.mem_singleton.mp hy
        cases hc
        exact ⟨_, template, .self _ _, hq.part⟩
      | _ => cases hy

/-! ## The ends of a match -/

theorem not_done_of_jumpsTo (hj : JumpsTo program x n) : program.get? x ≠ some .done := by
  obtain ⟨offset, hi, -⟩ := hj
  simp [hi]

theorem not_done_of_splitsTo {n' : Nat} (hs : SplitsTo program x n n') :
    program.get? x ≠ some .done := by
  obtain ⟨first, second, hi, -⟩ := hs
  simp [hi]

/-- A code that begins with an end of the match is that of a pattern that begins with one, in no
capture. -/
theorem around_start (p : Pattern) (hp : Placed program addresses a p.code)
    (hd : program.get? a = some .done) : Around p a .done a [] := by
  induction p generalizing a with
  | event m =>
    rw [code_event, placed_inst] at hp
    simp [hp.1] at hd
  | seq p q ihp ihq =>
    have hc := Child.seqFirst p q
    exact .child hc (ihp (hc.placed hp) hd)
  | alt p q ihp ihq => exact absurd hd (not_done_of_splitsTo hp.alt.1)
  | star p ih => exact absurd hd (not_done_of_splitsTo hp.star.1)
  | plus p ih =>
    have hc := Child.plus p
    exact .child hc (ih (hc.placed hp) hd)
  | opt p ih => exact absurd hd (not_done_of_splitsTo hp.opt.1)
  | capture p template ih => simp [hp.capture.1] at hd
  | done => exact .self _ _
  | rule name =>
    rw [code_rule, placed_callRule] at hp
    obtain ⟨⟨address, -, hi⟩, -⟩ := hp
    simp [hi] at hd

/-- An end of the match behind the code of a child is behind the code, or is the beginning of what
comes next. -/
theorem stop_or_around (hp : Placed program addresses a p.code) (hc : Child p k q)
    (hd : program.get? (a + k + q.code.length) = some .done) :
    a + k + q.code.length = a + p.code.length ∧ p.opens a = []
      ∨ Around p a .done (a + k + q.code.length) (p.opens a) := by
  cases hc with
  | seqFirst _ second =>
    right
    have hsecond := Child.seqSecond q second
    exact .child hsecond (around_start second (hsecond.placed hp) hd)
  | seqSecond =>
    left
    rw [code_seq, List.length_append, Nat.add_assoc]
    exact ⟨rfl, rfl⟩
  | altFirst => exact absurd hd (not_done_of_jumpsTo hp.alt.2.2.1)
  | altSecond first =>
    left
    exact ⟨end_alt a first q, rfl⟩
  | star => exact absurd hd (not_done_of_jumpsTo hp.star.2.2)
  | plus => exact absurd hd (not_done_of_splitsTo hp.plus.2)
  | opt =>
    left
    exact ⟨end_opt a q, rfl⟩
  | capture => simp [hp.capture.2.2] at hd

/-- Where a branch meets an end of the match, it is behind the code, or it has opened just the
captures that the end stands in. -/
theorem Inside.stop_or_around (h : Inside p a x ys) (hp : Placed program addresses a p.code)
    (hd : program.get? x = some .done) :
    x = a + p.code.length ∧ ys = [] ∨ Around p a .done x ys := by
  induction h with
  | start p a => exact .inr (around_start p hp hd)
  | stop p a => exact .inl ⟨rfl, rfl⟩
  | child hc hq ih =>
    rcases ih (hc.placed hp) hd with ⟨rfl, rfl⟩ | h
    · exact Pattern.stop_or_around hp hc hd
    · exact .inr (.child hc h)

end Pattern

namespace Branch

variable {program : Program} {style : CaptureStyle} {addresses : List (String × Nat)}
  {p : Pattern} {b : Branch} {os cs : List Branch}

/-- A pattern without rules is complete behind its code, with nothing open, or at an end of the
match in it, with the captures open that the end stands in. -/
theorem Arrives.stop_or_around (hl : Layout program addresses [] p)
    (h : Arrives program style b os cs) (hb : Complete program b) :
    b.pc = p.code.length ∧ os = [] ∨ p.Around 0 .done b.pc (os.map Branch.pc) := by
  obtain @⟨q, a, own, outer, _, hf, hi, -⟩ := h.stands hl
  cases hf with
  | rule _ _ _ _ _ hmem _ => cases hmem
  | main =>
    rw [List.append_nil]
    rcases hi.stop_or_stays hl.main with ⟨hx, hnil⟩ | ⟨i, hget, hs⟩
    · exact .inl ⟨by rw [hx, Nat.zero_add], List.map_eq_nil_iff.mp hnil⟩
    · rcases hb with hnone | hdone | ⟨hret, -⟩
      · simp [hget] at hnone
      · rcases hi.stop_or_around hl.main hdone with ⟨hx, hnil⟩ | h
        · exact .inl ⟨by rw [hx, Nat.zero_add], List.map_eq_nil_iff.mp hnil⟩
        · exact .inr h
      · obtain rfl : .ret = i := Option.some.inj (hret.symm.trans hget)
        cases hs

end Branch

namespace Session

variable {s : Session}

/-- When a branch of a pattern without rules completes its match, it is behind the code of the
pattern and has nothing open, or it has met an end of the match and has just those captures open
that the end stands in. -/
theorem only_an_end_in_a_capture_leaves_it_open (hs : s.Reachable) {p : Pattern}
    (hp : p.compile = .ok s.program) (e : Input) {bs : Array Branch} (hbs : bs ∈ s.moments e)
    {b d : Branch} (hb : b ∈ bs.toList)
    (hd : b.step s.program (s.events.push e) s.settings = .done d) :
    ∃ os cs, Branch.Arrives s.program s.settings.style d.still os cs
      ∧ d.marks = os.map (·.consumed)
      ∧ (d.pc = p.code.length ∧ os = [] ∨ p.Around 0 .done d.pc (os.map Branch.pc))
      ∧ ∀ o ∈ os, ∃ q template,
        p.Part 0 (.capture q template) o.pc ∧ q.Part (o.pc + 1) .done d.pc := by
  obtain ⟨addresses, hl⟩ := (Compiled.pattern hp).layout
  obtain ⟨hstill, hcomplete⟩ := Branch.of_step_done hd
  obtain ⟨os, cs, harrives⟩ := hs.exists_arrives e bs hbs b hb
  rw [← hstill] at harrives
  have hends := harrives.stop_or_around hl (b := d.still) (by rw [hstill]; exact hcomplete)
  refine ⟨os, cs, harrives, harrives.marks_eq, hends, ?_⟩
  intro o ho
  rcases hends with ⟨-, rfl⟩ | haround
  · cases ho
  · exact haround.exists_capture (List.mem_map_of_mem ho)

/-- A letter and an end of the match, both in a capture. -/
def endedLetter : Pattern := .capture (.seq (.event (.key (.typed 'a') {})) .done) "X"

def endedLetterProgram : Program := .ofList
  [.capStart, .consume (.key (.typed 'a') {}), .done, .capEnd "X"]

theorem compile_endedLetter : endedLetter.compile = .ok endedLetterProgram := by cbv

/-- The branch before the end of the match, with the letter read. -/
def letterRead : Branch := { pc := 2, consumed := 1, marks := [0], payloads := [.char 'a'] }

theorem letterRead_mem_moments :
    #[letterRead] ∈ (start endedLetterProgram {}).moments (.typed 'a') := by decide +kernel

theorem letterRead_done :
    letterRead.step endedLetterProgram #[.typed 'a'] {} = .done { letterRead with idle := 1 } := by
  decide +kernel

theorem a_letter_ends_inside_its_capture :
    ∃ os cs, Branch.Arrives endedLetterProgram .inline letterRead os cs
      ∧ [0] = os.map (·.consumed)
      ∧ (2 = endedLetter.code.length ∧ os = [] ∨ endedLetter.Around 0 .done 2 (os.map Branch.pc))
      ∧ ∀ o ∈ os, ∃ q template,
        endedLetter.Part 0 (.capture q template) o.pc ∧ q.Part (o.pc + 1) .done 2 :=
  only_an_end_in_a_capture_leaves_it_open (.start _ _) compile_endedLetter (.typed 'a')
    letterRead_mem_moments (by simp) letterRead_done

/-- The match is complete with the capture open, so that nothing is made by its template. -/
theorem an_end_may_leave_a_capture_open :
    endedLetter.compile = .ok endedLetterProgram
      ∧ #[letterRead] ∈ (start endedLetterProgram {}).moments (.typed 'a')
      ∧ letterRead.step endedLetterProgram #[.typed 'a'] {} = .done { letterRead with idle := 1 }
      ∧ ({ letterRead with idle := 1 } : Branch).marks = [0]
      ∧ ((start endedLetterProgram {}).feed (.typed 'a')).2.action = some ⟨"", []⟩ :=
  ⟨compile_endedLetter, letterRead_mem_moments, letterRead_done, rfl, by decide +kernel⟩

end Session

end Keymap
