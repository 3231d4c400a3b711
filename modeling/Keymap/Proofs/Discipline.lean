-- The stacks of a branch while a compiled program runs: each capture that closes is the one
-- that was opened last, each rule goes back to where it was called from, and a match that is
-- complete has left nothing open.
import Keymap.Proofs.Moments
import Keymap.Proofs.Soundness
import Keymap.Proofs.Stacks

namespace Keymap

namespace Branch

/-! ## What the stacks hold -/

/-- The pattern or one of the rules has `r` in it, and the code of `r` begins at `n`. -/
inductive Node (addresses : List (String × Nat)) (rules : List (String × Pattern)) (p : Pattern) :
    Pattern → Nat → Prop
  | main {r : Pattern} {n : Nat} (h : p.Part 0 r n) : Node addresses rules p r n
  | rule {name : String} {body r : Pattern} {address n : Nat} (hr : (name, body) ∈ rules)
    (ha : addresses.lookup name = some address) (h : body.Part address r n) :
    Node addresses rules p r n

/-- The capture that the branch closes is the one that it has opened as `o`. Since then the
stacks have only got its mark. -/
def Closes (program : Program) (addresses : List (String × Nat)) (rules : List (String × Pattern))
    (p : Pattern) (template : String) (b o : Branch) : Prop :=
  (∃ r, Node addresses rules p (.capture r template) o.pc ∧ b.pc = o.pc + 1 + r.code.length)
    ∧ program.get? o.pc = some .capStart
    ∧ b.marks = o.consumed :: o.marks ∧ b.returns = o.returns

/-- The rule that the branch comes back from is the one that it has called as `c`. Since then
the stacks have only got the address behind the call. -/
def ComesBack (program : Program) (addresses : List (String × Nat))
    (rules : List (String × Pattern)) (b c : Branch) : Prop :=
  (∃ name body address, (name, body) ∈ rules ∧ addresses.lookup name = some address
      ∧ program.get? c.pc = some (.call address) ∧ b.pc = address + body.code.length)
    ∧ b.returns = (c.pc + 1) :: c.returns ∧ b.marks = c.marks

/-- The stacks of a branch, which has opened captures as `os` says and called rules as `cs`
says, are in order. -/
structure Ordered (program : Program) (addresses : List (String × Nat))
    (rules : List (String × Pattern)) (p : Pattern) (b : Branch) (os cs : List Branch) : Prop where
  pc_le : b.pc ≤ program.size
  closes : ∀ template, program.get? b.pc = some (.capEnd template) →
    ∃ o rest, os = o :: rest ∧ Closes program addresses rules p template b o
  back : program.get? b.pc = some .ret →
    ∃ c rest, cs = c :: rest ∧ ComesBack program addresses rules b c
  /-- Past the last instruction nothing is open. -/
  ends : program.get? b.pc = none → b.marks = [] ∧ b.returns = []
  /-- In the program of a grammar there is no such place. The match is complete behind the
  call of the root. -/
  grammar : ∀ g : Grammar, g.compile = .ok program →
    b.pc < program.size ∧ (b.pc = 1 → b.marks = [] ∧ b.returns = [])

variable {program : Program} {style : CaptureStyle} {addresses : List (String × Nat)}
  {rules : List (String × Pattern)} {p q : Pattern} {a : Nat} {b : Branch}
  {outer os cs : List Branch}

theorem Frames.node {r : Pattern} {n : Nat}
    (hf : Frames program style addresses rules p outer cs q a) (h : q.Part a r n) :
    Node addresses rules p r n := by
  cases hf with
  | main => exact .main h
  | rule hf hi ho hc hcall hr ha => exact .rule hr ha h

theorem Arrives.pc_le (hl : Layout program addresses rules p) (h : Arrives program style b os cs) :
    b.pc ≤ program.size := by
  obtain @⟨q, a, own, outer, _, hf, hi, ho⟩ := h.stands hl
  rcases hi.stop_or_stays (hf.placed hl) with ⟨hx, -⟩ | ⟨i, hget, -⟩
  · obtain ⟨i, hget, -⟩ := Pattern.exists_stays_start q (hf.placed hl)
    rw [hx]
    exact (hf.placed hl).le_size (Nat.le_of_lt (Program.lt_size hget))
  · exact Nat.le_of_lt (Program.lt_size hget)

theorem Arrives.closes (hl : Layout program addresses rules p) (h : Arrives program style b os cs)
    {template : String} (hend : program.get? b.pc = some (.capEnd template)) :
    ∃ o rest, os = o :: rest ∧ Closes program addresses rules p template b o := by
  obtain @⟨q, a, own, outer, _, hf, hi, ho⟩ := h.stands hl
  rcases hi.stop_or_stays (hf.placed hl) with ⟨hx, -⟩ | ⟨i, hget, hs⟩
  · rw [hx] at hend
    rcases hf.inst_stop hl hend with h | h <;> cases h
  · obtain rfl : .capEnd template = i := Option.some.inj (hend.symm.trans hget)
    cases hs with
    | @capEnd r _ y _ hr hx hys hn =>
      cases own with
      | nil => simp at hys
      | cons o own =>
        obtain ⟨rfl, -⟩ := List.cons.inj hys
        obtain ⟨cs', hopener⟩ := h.of_opener (List.suffix_refl _)
        have hstart := (hr.placed (hf.placed hl)).capture.1
        refine ⟨o, own ++ outer, rfl, ⟨r, hf.node hr, hx⟩, hstart, ?_, ?_⟩
        · rw [h.marks_eq, hopener.marks_eq]
          rfl
        · exact (ho o (List.mem_cons_self ..)).symm

theorem Arrives.back (hl : Layout program addresses rules p) (h : Arrives program style b os cs)
    (hret : program.get? b.pc = some .ret) :
    ∃ c rest, cs = c :: rest ∧ ComesBack program addresses rules b c := by
  obtain @⟨q, a, own, outer, _, hf, hi, ho⟩ := h.stands hl
  rcases hi.stop_or_stays (hf.placed hl) with ⟨hx, hnil⟩ | ⟨i, hget, hs⟩
  · obtain rfl : own = [] := List.map_eq_nil_iff.mp hnil
    cases hf with
    | main =>
      rw [hx, Nat.zero_add] at hret
      rcases hl.exit with hexit | hexit <;> simp [hexit] at hret
    | @rule name _ _ _ _ c own outer rest hf hi ho hc hcall hr ha =>
      refine ⟨c, rest, rfl, ⟨name, q, a, hr, ha, hcall, hx⟩, ?_, ?_⟩
      · rw [h.returns_eq, hc.returns_eq]
        rfl
      · rw [h.marks_eq, hc.marks_eq]
        rfl
  · obtain rfl : .ret = i := Option.some.inj (hret.symm.trans hget)
    cases hs

theorem Arrives.ends (hl : Layout program addresses rules p) (h : Arrives program style b os cs)
    (hnone : program.get? b.pc = none) : b.marks = [] ∧ b.returns = [] := by
  obtain @⟨q, a, own, outer, _, hf, hi, ho⟩ := h.stands hl
  rcases hi.stop_or_stays (hf.placed hl) with ⟨hx, hnil⟩ | ⟨i, hget, -⟩
  · obtain rfl : own = [] := List.map_eq_nil_iff.mp hnil
    rw [hx] at hnone
    rcases hf.get?_stop hl with hret | ⟨rfl, rfl, -, -⟩
    · simp [hret] at hnone
    · exact ⟨h.marks_eq, h.returns_eq⟩
  · simp [hget] at hnone

/-- In the program of a grammar the address after the call of the root is not the last. -/
theorem one_lt_size {g : Grammar} (hl : Layout program addresses g.rules (.rule g.root)) :
    1 < program.size := by
  obtain ⟨⟨address, ha, -⟩, -⟩ := placed_callRule.mp hl.main
  obtain ⟨body, hr⟩ := hl.known g.root address ha
  obtain ⟨address', ha', hp⟩ := hl.rule g.root body hr
  have hlater := hl.later g.root address' ha'
  rw [Pattern.code_rule, List.length_singleton] at hlater
  obtain ⟨-, hret⟩ := placed_append.mp hp
  have := Program.lt_size (placed_inst.mp hret).1
  omega

theorem Arrives.of_grammar {g : Grammar} (hl : Layout program addresses g.rules (.rule g.root))
    (h : Arrives program style b os cs) :
    b.pc < program.size ∧ (b.pc = 1 → b.marks = [] ∧ b.returns = []) := by
  obtain @⟨q, a, own, outer, _, hf, hi, ho⟩ := h.stands hl
  constructor
  · rcases hi.stop_or_stays (hf.placed hl) with ⟨hx, -⟩ | ⟨i, hget, -⟩
    · rcases hf.get?_stop hl with hret | ⟨-, -, heq, -⟩
      · rw [hx]
        exact Program.lt_size hret
      · rw [hx, heq]
        exact one_lt_size hl
    · exact Program.lt_size hget
  · intro hone
    rw [hone] at hi
    cases hf with
    | main =>
      obtain rfl : own = [] := List.map_eq_nil_iff.mp hi.eq_nil
      exact ⟨h.marks_eq, h.returns_eq⟩
    | @rule name _ _ _ _ c own' outer rest hf hi' ho' hc hcall hr ha =>
      -- The rules come later.
      have hlater := hl.later name a ha
      have hle := hi.le
      rw [Pattern.code_rule, List.length_singleton] at hlater
      omega

theorem Arrives.ordered (hl : Layout program addresses rules p)
    (h : Arrives program style b os cs) : Ordered program addresses rules p b os cs where
  pc_le := h.pc_le hl
  closes _ := h.closes hl
  back := h.back hl
  ends := h.ends hl
  grammar g hg := by
    obtain ⟨addresses', hl'⟩ := (Compiled.grammar hg).layout
    exact h.of_grammar hl'

/-- What only the limits look at has nothing to do with the order of the stacks. -/
theorem Ordered.of_still (h : Ordered program addresses rules p b.still os cs) :
    Ordered program addresses rules p b os cs :=
  ⟨h.pc_le, h.closes, h.back, h.ends, h.grammar⟩

end Branch

namespace Session

variable {s : Session}

/-- Every branch has come from the start, at each moment while an event is taken. -/
theorem Reachable.exists_arrives (h : s.Reachable) (e : Input) :
    ∀ bs ∈ s.moments e, ∀ b ∈ bs.toList,
      ∃ os cs, Branch.Arrives s.program s.settings.style b.still os cs := by
  refine h.forall_moments_still (P := fun b => ∃ os cs, Branch.Arrives _ _ b os cs) ?_ ?_ e
  · exact ⟨[], [], .start⟩
  · rintro b m b' ⟨os, cs, hb⟩ hm
    exact ⟨_, _, .move hb hm⟩

/-- While a compiled program runs, at each moment, each branch has its stacks in order: a
capture closes that was opened last, a rule goes back behind the call that it was called by,
and when the match is complete nothing is open. -/
theorem a_compiled_program_keeps_its_stacks_in_order (hs : s.Reachable)
    {rules : List (String × Pattern)} {p : Pattern} (hp : Compiled s.program rules p) :
    ∃ addresses, Layout s.program addresses rules p
      ∧ ∀ e, ∀ bs ∈ s.moments e, ∀ b ∈ bs.toList,
        (∃ os cs, Branch.Arrives s.program s.settings.style b.still os cs)
          ∧ ∀ os cs, Branch.Arrives s.program s.settings.style b.still os cs →
            Branch.Ordered s.program addresses rules p b os cs := by
  obtain ⟨addresses, hl⟩ := hp.layout
  refine ⟨addresses, hl, ?_⟩
  intro e bs hbs b hb
  refine ⟨hs.exists_arrives e bs hbs b hb, ?_⟩
  intro os cs hb
  exact (hb.ordered hl).of_still

/-- A digit may complete the count, which then goes back to the rule that has called for it. -/
theorem a_count_keeps_its_stacks_in_order :
    let s := start gotoLineProgram {}
    (∃ bs ∈ s.moments (.typed '4'), ∃ b ∈ bs.toList, b.pc = 11)
      ∧ ∀ bs ∈ s.moments (.typed '4'), ∀ b ∈ bs.toList,
        b.pc < 12 ∧ (b.pc = 11 → ∃ c : Branch, b.returns = (c.pc + 1) :: c.returns)
          ∧ (b.pc = 1 → b.marks = [] ∧ b.returns = []) := by
  intro s
  have hs : s.Reachable := .start _ _
  obtain ⟨addresses, -, hordered⟩ :=
    a_compiled_program_keeps_its_stacks_in_order hs (.grammar compile_gotoLine)
  refine ⟨by decide +kernel, ?_⟩
  intro bs hbs b hb
  obtain ⟨⟨os, cs, harrives⟩, hall⟩ := hordered (.typed '4') bs hbs b hb
  have ho := hall os cs harrives
  obtain ⟨hlt, hone⟩ := ho.grammar gotoLine compile_gotoLine
  refine ⟨hlt, ?_, hone⟩
  intro hpc
  obtain ⟨c, -, -, -, hreturns, -⟩ := ho.back (by rw [hpc]; rfl)
  exact ⟨c, hreturns⟩

end Session

end Keymap
