-- Where a branch stands while a compiled program runs: in the code of the pattern or of a rule,
-- with the captures open that are open there, and with the calls that have led to it.
import Keymap.Proofs.Nesting
import Keymap.Proofs.Runs

namespace Keymap

namespace Branch

/-! ## What is open -/

/-- The branch as it was where the captures were opened that are open after its next
instruction, the latest first. -/
def openersAfter (program : Program) (b : Branch) (os : List Branch) : List Branch :=
  match program.get? b.pc with
  | some .capStart => b :: os
  | some (.capEnd _) => os.tail
  | _ => os

/-- The branch as it was where the rules were called that are running after its next
instruction, the latest first. -/
def callersAfter (program : Program) (b : Branch) (cs : List Branch) : List Branch :=
  match program.get? b.pc with
  | some (.call _) => b :: cs
  | some .ret => cs.tail
  | _ => cs

/-- The branch has come from the start. The lists say what it was where the captures were
opened that are open now, and where the rules were called that are running. -/
inductive Arrives (program : Program) (style : CaptureStyle) :
    Branch → List Branch → List Branch → Prop
  | start : Arrives program style {} [] []
  | move {b b' : Branch} {os cs : List Branch} {m : Move} (h : Arrives program style b os cs)
    (hm : Moves program style b m b') :
    Arrives program style b' (b.openersAfter program os) (b.callersAfter program cs)

variable {program : Program} {style : CaptureStyle} {b o : Branch} {os cs : List Branch}

theorem Arrives.marks_eq (h : Arrives program style b os cs) : b.marks = os.map (·.consumed) := by
  induction h with
  | start => rfl
  | move _ hm ih => cases hm <;> simp_all [openersAfter, goto, closeCapture]

theorem Arrives.returns_eq (h : Arrives program style b os cs) :
    b.returns = cs.map (·.pc + 1) := by
  induction h with
  | start => rfl
  | move _ hm ih =>
    cases hm with
    | ret hi hr =>
      rw [hr] at ih
      simp [callersAfter, hi, ← ih]
    | _ => simp_all [callersAfter, goto, closeCapture]

/-- Where a capture was opened, those were open that are open around it. -/
theorem Arrives.of_opener (h : Arrives program style b os cs) {rest : List Branch}
    (ho : o :: rest <:+ os) : ∃ cs', Arrives program style o rest cs' := by
  induction h with
  | start => simp at ho
  | @move b b' os cs m h hm ih =>
    unfold openersAfter at ho
    split at ho
    · rcases List.suffix_cons_iff.mp ho with heq | hs
      · obtain ⟨rfl, rfl⟩ := List.cons.inj heq
        exact ⟨cs, h⟩
      · exact ih hs
    · exact ih (ho.trans (List.tail_suffix os))
    · exact ih ho

/-! ## Where a branch stands -/

section

variable (program : Program) (style : CaptureStyle) (addresses : List (String × Nat))
  (rules : List (String × Pattern)) (p : Pattern)

/-- The code of `q`, from `a` on, is running. It is that of the pattern, or that of a rule. The
lists say what was open around it when it began. -/
inductive Frames : List Branch → List Branch → Pattern → Nat → Prop
  | main : Frames [] [] p 0
  | rule {name : String} {q body : Pattern} {a address : Nat} {c : Branch}
    {own outer cs : List Branch} (hf : Frames outer cs q a)
    (hi : q.Inside a c.pc (own.map Branch.pc)) (ho : ∀ o ∈ own, o.returns = c.returns)
    (hc : Arrives program style c (own ++ outer) cs)
    (hcall : program.get? c.pc = some (.call address)) (hr : (name, body) ∈ rules)
    (ha : addresses.lookup name = some address) :
    Frames (own ++ outer) (c :: cs) body address

/-- The branch is in the code that is running, with the captures open that are open there. -/
inductive Stands (b : Branch) : List Branch → List Branch → Prop
  | intro {q : Pattern} {a : Nat} {own outer cs : List Branch}
    (hf : Frames program style addresses rules p outer cs q a)
    (hi : q.Inside a b.pc (own.map Branch.pc)) (ho : ∀ o ∈ own, o.returns = b.returns) :
    Stands b (own ++ outer) cs

end

variable {addresses : List (String × Nat)} {rules : List (String × Pattern)} {p q : Pattern}
  {a : Nat} {outer : List Branch}

theorem Frames.placed (hl : Layout program addresses rules p)
    (h : Frames program style addresses rules p outer cs q a) :
    Placed program addresses a q.code := by
  cases h with
  | main => exact hl.main
  | rule _ _ _ _ _ hr ha => exact (hl.toRuleLayout.placed hr ha).1

/-- Behind its code comes the end of the program, or the way back. -/
theorem Frames.get?_stop (hl : Layout program addresses rules p)
    (h : Frames program style addresses rules p outer cs q a) :
    program.get? (a + q.code.length) = some .ret ∨
      outer = [] ∧ cs = [] ∧ a + q.code.length = p.code.length
        ∧ (program.get? p.code.length = none ∨ program.get? p.code.length = some .done) := by
  cases h with
  | main =>
    right
    rw [Nat.zero_add]
    exact ⟨rfl, rfl, rfl, hl.exit⟩
  | rule _ _ _ _ _ hr ha =>
    left
    exact (hl.toRuleLayout.placed hr ha).2

theorem Frames.inst_stop (hl : Layout program addresses rules p)
    (h : Frames program style addresses rules p outer cs q a) {i : Inst}
    (hi : program.get? (a + q.code.length) = some i) : i = .ret ∨ i = .done := by
  rcases h.get?_stop hl with hret | ⟨-, -, heq, hnone | hdone⟩
  · left
    exact Option.some.inj (hi.symm.trans hret)
  · rw [heq, hnone] at hi
    cases hi
  · right
    rw [heq] at hi
    exact Option.some.inj (hi.symm.trans hdone)

/-- The place behind a call is in the code from where the rule was called. -/
theorem Frames.inside_succ (hl : Layout program addresses rules p)
    (h : Frames program style addresses rules p outer cs q a) {x address : Nat} {ys : List Nat}
    (hi : q.Inside a x ys) (hcall : program.get? x = some (.call address)) :
    q.Inside a (x + 1) ys := by
  rcases hi.stop_or_stays (h.placed hl) with ⟨rfl, -⟩ | ⟨i, hget, hs⟩
  · rcases h.inst_stop hl hcall with hi | hi <;> cases hi
  · obtain rfl : .call address = i := Option.some.inj (hcall.symm.trans hget)
    cases hs with
    | call _ h => exact h

/-- Where nothing has been opened in the code that is running. -/
theorem Frames.stands (hf : Frames program style addresses rules p outer cs q a)
    (hi : q.Inside a b.pc []) : Stands program style addresses rules p b outer cs := by
  have hi : q.Inside a b.pc (([] : List Branch).map Branch.pc) := hi
  have ho : ∀ o ∈ ([] : List Branch), o.returns = b.returns := nofun
  exact .intro hf hi ho

/-! ## One move -/

section

variable {own : List Branch} {b' : Branch} {m : Move}

/-- An instruction that stays in the code leaves the branch there, or in the code of the rule
that it calls. -/
theorem Frames.stands_of_stays (hl : Layout program addresses rules p)
    (hf : Frames program style addresses rules p outer cs q a)
    (hi : q.Inside a b.pc (own.map Branch.pc)) (ho : ∀ o ∈ own, o.returns = b.returns)
    (h : Arrives program style b (own ++ outer) cs) (hm : Moves program style b m b') {i : Inst}
    (hget : program.get? b.pc = some i) (hs : q.Stays addresses a b.pc (own.map Branch.pc) i) :
    Stands program style addresses rules p b' (b.openersAfter program (own ++ outer))
      (b.callersAfter program cs) := by
  cases hs with
  | consume hn =>
    obtain ⟨e, v, -, -, rfl⟩ := hm.of_consume hget
    simp only [openersAfter, callersAfter, hget]
    exact .intro hf hn ho
  | jump hn =>
    obtain ⟨-, rfl⟩ := hm.of_jump hget
    simp only [openersAfter, callersAfter, hget]
    exact .intro hf hn ho
  | split hn hn' =>
    simp only [openersAfter, callersAfter, hget]
    obtain ⟨-, rfl | rfl⟩ := hm.of_split hget
    · exact .intro hf hn ho
    · exact .intro hf hn' ho
  | capStart hn =>
    obtain ⟨-, rfl⟩ := hm.of_capStart hget
    simp only [openersAfter, callersAfter, hget]
    have hall : ∀ o ∈ b :: own, o.returns = b.returns := List.forall_mem_cons.mpr ⟨rfl, ho⟩
    exact @Stands.intro _ _ _ _ _ _ _ _ (b :: own) _ _ hf hn hall
  | capEnd hq hx hys hn =>
    obtain ⟨-, rfl⟩ := hm.of_capEnd hget
    simp only [openersAfter, callersAfter, hget]
    cases own with
    | nil => simp at hys
    | cons o own =>
      obtain ⟨-, rfl⟩ := List.cons.inj hys
      exact .intro hf hn fun o' ho' => ho o' (List.mem_cons_of_mem _ ho')
  | done => exact absurd hm (Moves.of_done hget)
  | @call name address ha hn =>
    obtain ⟨-, rfl⟩ := hm.of_call hget
    simp only [openersAfter, callersAfter, hget]
    obtain ⟨body, hr⟩ := hl.known name address ha
    have hbody := Frames.rule hf hi ho h hget hr ha
    exact hbody.stands (.start body address)

/-- Behind the code, a branch goes back to where the rule was called, with the captures open
that were open there. -/
theorem Frames.stands_of_stop (hl : Layout program addresses rules p)
    (hf : Frames program style addresses rules p outer cs q a)
    (h : Arrives program style b outer cs) (hm : Moves program style b m b')
    (hx : b.pc = a + q.code.length) :
    Stands program style addresses rules p b' (b.openersAfter program outer)
      (b.callersAfter program cs) := by
  rcases hf.get?_stop hl with hret | ⟨-, -, heq, hnone | hdone⟩
  · rw [← hx] at hret
    obtain ⟨-, address, rest, hreturns, rfl⟩ := hm.of_ret hret
    rw [h.returns_eq] at hreturns
    simp only [openersAfter, callersAfter, hret]
    cases hf with
    | main => simp at hreturns
    | @rule name _ _ _ _ c own outer cs hf hi ho hc hcall hr ha =>
      obtain ⟨rfl, rfl⟩ := List.cons.inj hreturns
      refine .intro hf (hf.inside_succ hl hi hcall) ?_
      intro o hmem
      rw [ho o hmem, hc.returns_eq]
  · -- The match is complete, and there are no moves.
    rw [← heq, ← hx] at hnone
    exact absurd hm (Complete.not_moves (.inl hnone))
  · rw [← heq, ← hx] at hdone
    exact absurd hm (Complete.not_moves (.inr (.inl hdone)))

end

/-- Wherever it has come, a branch stands in the code that is running. -/
theorem Arrives.stands (hl : Layout program addresses rules p)
    (h : Arrives program style b os cs) : Stands program style addresses rules p b os cs := by
  induction h with
  | start => exact Frames.main.stands (.start p 0)
  | @move b b' os cs m h hm ih =>
    obtain @⟨q, a, own, outer, _, hf, hi, ho⟩ := ih
    rcases hi.stop_or_stays (hf.placed hl) with ⟨hx, hnil⟩ | ⟨i, hget, hs⟩
    · obtain rfl : own = [] := List.map_eq_nil_iff.mp hnil
      exact hf.stands_of_stop hl h hm hx
    · exact hf.stands_of_stays hl hi ho h hm hget hs

end Branch

end Keymap
