-- Where the codes of patterns stand in a compiled program.
import Keymap.Branch
import Keymap.Program.Code
import Mathlib.Data.List.Nodup

namespace Keymap

/-- What linking makes of a slot. -/
def Slot.link? (addresses : List (String × Nat)) : Slot → Option Inst
  | .inst i => some i
  | .callRule name => (addresses.lookup name).map .call

/-- The code stands in the program, linked, from the address on. -/
def Placed (program : Program) (addresses : List (String × Nat)) : Nat → List Slot → Prop
  | _, [] => True
  | a, s :: rest =>
    (∃ i, s.link? addresses = some i ∧ program.get? a = some i)
      ∧ Placed program addresses (a + 1) rest

/-- The instruction at `a` is a jump to `n`. -/
def JumpsTo (program : Program) (a n : Nat) : Prop :=
  ∃ offset, program.get? a = some (.jump offset) ∧ Branch.target a offset = n

/-- The instruction at `a` is a split that goes on at `n`, with a fork at
`n'`. -/
def SplitsTo (program : Program) (a n n' : Nat) : Prop :=
  ∃ first second, program.get? a = some (.split first second)
    ∧ Branch.target a first = n ∧ Branch.target a second = n'

variable {program : Program} {addresses : List (String × Nat)} {a : Nat}

/-! ## Codes in a program -/

@[simp] theorem placed_nil : Placed program addresses a [] := trivial

@[simp] theorem placed_inst {i : Inst} {rest : List Slot} :
    Placed program addresses a (.inst i :: rest)
      ↔ program.get? a = some i ∧ Placed program addresses (a + 1) rest := by
  simp [Placed, Slot.link?]

@[simp] theorem placed_callRule {name : String} {rest : List Slot} :
    Placed program addresses a (.callRule name :: rest)
      ↔ (∃ address, addresses.lookup name = some address
          ∧ program.get? a = some (.call address))
        ∧ Placed program addresses (a + 1) rest := by
  simp [Placed, Slot.link?]

@[simp] theorem placed_append {code code' : List Slot} :
    Placed program addresses a (code ++ code')
      ↔ Placed program addresses a code ∧ Placed program addresses (a + code.length) code' := by
  induction code generalizing a with
  | nil => simp
  | cons s rest ih =>
    simp only [List.cons_append, Placed, ih, List.length_cons, and_assoc]
    rw [Nat.add_right_comm, Nat.add_assoc a]

theorem target_eq {n : Nat} {offset : Int} (h : a + offset = n) : Branch.target a offset = n := by
  unfold Branch.target
  rw [h, if_pos (Int.natCast_nonneg n)]
  rfl

section

variable {p q : Pattern}

theorem end_alt (a : Nat) (p q : Pattern) :
    a + p.code.length + 2 + q.code.length = a + (Pattern.alt p q).code.length := by
  simp only [Pattern.code_alt, List.length_append, List.length_cons]
  omega

theorem end_opt (a : Nat) (p : Pattern) :
    a + 1 + p.code.length = a + (Pattern.opt p).code.length := by
  simp only [Pattern.code_opt, List.length_cons]
  omega

theorem end_capture (a : Nat) (p : Pattern) (template : String) :
    a + 1 + p.code.length + 1 = a + (Pattern.capture p template).code.length := by
  simp only [Pattern.code_capture, List.length_append, List.length_cons, List.length_nil]
  omega

theorem Placed.alt (h : Placed program addresses a (Pattern.alt p q).code) :
    SplitsTo program a (a + 1) (a + p.code.length + 2)
      ∧ Placed program addresses (a + 1) p.code
      ∧ JumpsTo program (a + 1 + p.code.length) (a + (Pattern.alt p q).code.length)
      ∧ Placed program addresses (a + p.code.length + 2) q.code := by
  simp only [Pattern.code_alt, List.cons_append, placed_inst, placed_append] at h ⊢
  obtain ⟨hs, hp, hj, hq⟩ := h
  refine ⟨⟨_, _, hs, ?_, ?_⟩, hp, ⟨_, hj, ?_⟩, ?_⟩
  · exact target_eq (by omega)
  · exact target_eq (by omega)
  · simp only [List.length_cons, List.length_append]
    exact target_eq (by omega)
  · rw [Nat.add_right_comm a 1] at hq
    exact hq

theorem Placed.star (h : Placed program addresses a (Pattern.star p).code) :
    SplitsTo program a (a + 1) (a + (Pattern.star p).code.length)
      ∧ Placed program addresses (a + 1) p.code
      ∧ JumpsTo program (a + 1 + p.code.length) a := by
  simp only [Pattern.code_star, List.cons_append, placed_inst, placed_append] at h ⊢
  obtain ⟨hs, hp, hj, -⟩ := h
  refine ⟨⟨_, _, hs, ?_, ?_⟩, hp, ⟨_, hj, ?_⟩⟩
  · exact target_eq (by omega)
  · simp only [List.length_cons, List.length_append, List.length_nil]
    exact target_eq (by omega)
  · exact target_eq (by omega)

theorem Placed.plus (h : Placed program addresses a (Pattern.plus p).code) :
    Placed program addresses a p.code
      ∧ SplitsTo program (a + p.code.length) a (a + (Pattern.plus p).code.length) := by
  simp only [Pattern.code_plus, placed_inst, placed_append] at h ⊢
  obtain ⟨hp, hs, -⟩ := h
  refine ⟨hp, _, _, hs, ?_, ?_⟩
  · exact target_eq (by omega)
  · simp only [List.length_append, List.length_cons, List.length_nil]
    exact target_eq (by omega)

theorem Placed.opt (h : Placed program addresses a (Pattern.opt p).code) :
    SplitsTo program a (a + 1) (a + (Pattern.opt p).code.length)
      ∧ Placed program addresses (a + 1) p.code := by
  simp only [Pattern.code_opt, placed_inst] at h ⊢
  obtain ⟨hs, hp⟩ := h
  refine ⟨⟨_, _, hs, ?_, ?_⟩, hp⟩
  · exact target_eq (by omega)
  · simp only [List.length_cons]
    exact target_eq (by omega)

theorem Placed.capture {template : String}
    (h : Placed program addresses a (Pattern.capture p template).code) :
    program.get? a = some .capStart
      ∧ Placed program addresses (a + 1) p.code
      ∧ program.get? (a + 1 + p.code.length) = some (.capEnd template) := by
  simp only [Pattern.code_capture, List.cons_append, placed_inst, placed_append] at h
  exact ⟨h.1, h.2.1, h.2.2.1⟩

end

/-! ## Linked programs -/

/-- Linking turns each slot into its instruction. -/
theorem map_link? {code : List Slot} {insts : List Inst} (h : link addresses code = .ok insts) :
    code.map (Slot.link? addresses) = insts.map some := by
  induction code generalizing insts with
  | nil =>
    simp only [link, Except.ok.injEq] at h
    rw [← h]
    rfl
  | cons s rest ih =>
    have hrest : ∀ i, (link addresses rest).map (i :: ·) = .ok insts →
        ∃ insts', link addresses rest = .ok insts' ∧ insts = i :: insts' := by
      intro i hi
      cases hl : link addresses rest with
      | error e => simp [hl, Except.map] at hi
      | ok insts' =>
        simp only [hl, Except.map, Except.ok.injEq] at hi
        exact ⟨insts', rfl, hi.symm⟩
    cases s with
    | inst i =>
      obtain ⟨insts', hl, rfl⟩ := hrest i h
      simp [Slot.link?, ih hl]
    | callRule name =>
      simp only [link] at h
      split at h
      · simp at h
      · next address ha =>
        obtain ⟨insts', hl, rfl⟩ := hrest _ h
        simp [Slot.link?, ha, ih hl]

theorem length_link {code : List Slot} {insts : List Inst} (h : link addresses code = .ok insts) :
    insts.length = code.length := by
  have := congrArg List.length (map_link? h)
  simpa using this.symm

/-- A linked code stands in its program after the instructions before it. -/
theorem placed_link {code : List Slot} {insts : List Inst} (before : List Inst)
    (h : code.map (Slot.link? addresses) = insts.map some) :
    Placed (.ofList (before ++ insts)) addresses before.length code := by
  induction code generalizing insts before with
  | nil => exact placed_nil
  | cons s rest ih =>
    cases insts with
    | nil => simp at h
    | cons i insts =>
      simp only [List.map_cons, List.cons.injEq] at h
      refine ⟨⟨i, h.1, by simp⟩, ?_⟩
      have hr := ih (before ++ [i]) h.2
      simpa using hr

/-! ## The rules of a grammar -/

/-- A list in which no name is repeated, nor stands in `seen`. -/
theorem nodup_of_firstRepeated {seen names : List String} (h : firstRepeated seen names = none) :
    names.Nodup ∧ ∀ n ∈ names, n ∉ seen := by
  induction names generalizing seen with
  | nil => simp
  | cons n names ih =>
    simp only [firstRepeated] at h
    split at h
    · simp at h
    · next hn =>
      obtain ⟨hd, hs⟩ := ih h
      refine ⟨List.nodup_cons.mpr ⟨?_, hd⟩, ?_⟩
      · intro hm
        exact hs n hm (List.mem_cons_self ..)
      · intro m hm
        rcases List.mem_cons.mp hm with rfl | hm
        · exact hn
        · exact fun hms => hs m hm (List.mem_cons_of_mem _ hms)

/-- The code of each rule stands where its address says, if no two rules have
the same name. -/
theorem placed_rule {rules : List (String × Pattern)}
    (hn : (rules.map Prod.fst).Nodup)
    (hp : Placed program addresses a (rules.flatMap fun (_, body) => ruleCode body))
    {name : String} {body : Pattern} (h : (name, body) ∈ rules) :
    ∃ address, (addressesFrom a rules).lookup name = some address
      ∧ Placed program addresses address (ruleCode body) := by
  induction rules generalizing a with
  | nil => simp at h
  | cons rule rules ih =>
    obtain ⟨name', body'⟩ := rule
    simp only [List.map_cons, List.nodup_cons] at hn
    simp only [List.flatMap_cons, placed_append] at hp
    simp only [addressesFrom, List.lookup_cons]
    rcases List.mem_cons.mp h with heq | hm
    · obtain ⟨rfl, rfl⟩ := Prod.mk.inj heq
      exact ⟨a, by simp, hp.1⟩
    · have hne : (name == name') = false := by
        rw [beq_eq_false_iff_ne]
        rintro rfl
        exact hn.1 (List.mem_map_of_mem hm)
      rw [hne]
      exact ih hn.2 hp.2 hm

/-- Only rules have an address. -/
theorem exists_rule_of_lookup {rules : List (String × Pattern)} {name : String} {address : Nat}
    (h : (addressesFrom a rules).lookup name = some address) :
    ∃ body, (name, body) ∈ rules := by
  induction rules generalizing a with
  | nil => simp [addressesFrom] at h
  | cons rule rules ih =>
    obtain ⟨name', body'⟩ := rule
    simp only [addressesFrom, List.lookup_cons] at h
    split at h
    · next heq =>
      rw [beq_iff_eq] at heq
      exact ⟨body', by simp [heq]⟩
    · obtain ⟨body, hm⟩ := ih h
      exact ⟨body, List.mem_cons_of_mem _ hm⟩

theorem le_of_lookup {rules : List (String × Pattern)} {name : String} {address : Nat}
    (h : (addressesFrom a rules).lookup name = some address) : a ≤ address := by
  induction rules generalizing a with
  | nil => simp [addressesFrom] at h
  | cons rule rules ih =>
    obtain ⟨name', body'⟩ := rule
    simp only [addressesFrom, List.lookup_cons] at h
    split at h
    · simp only [Option.some.injEq] at h
      omega
    · have := ih h
      omega

/-! ## Compiled programs -/

/-- The program is what the pattern is compiled to, with the rules that it may
refer to. The pattern of a grammar is its root rule. -/
inductive Compiled : Program → List (String × Pattern) → Pattern → Prop
  | pattern {p : Pattern} {program : Program} (h : p.compile = .ok program) :
    Compiled program [] p
  | grammar {g : Grammar} {program : Program} (h : g.compile = .ok program) :
    Compiled program g.rules (.rule g.root)

/-- Where the rules stand in a compiled program. -/
structure RuleLayout (program : Program) (addresses : List (String × Nat))
    (rules : List (String × Pattern)) : Prop where
  rule : ∀ name body, (name, body) ∈ rules →
    ∃ address, addresses.lookup name = some address
      ∧ Placed program addresses address (ruleCode body)
  known : ∀ name address, addresses.lookup name = some address → ∃ body, (name, body) ∈ rules

/-- The call of a rule goes to where its code stands. -/
theorem RuleLayout.of_call {rules : List (String × Pattern)} {name : String} {body : Pattern}
    (hl : RuleLayout program addresses rules) (hr : (name, body) ∈ rules)
    (hp : Placed program addresses a (Pattern.rule name).code) :
    ∃ address, program.get? a = some (.call address) ∧ Placed program addresses address body.code
      ∧ program.get? (address + body.code.length) = some .ret := by
  simp only [Pattern.code_rule, placed_callRule] at hp
  obtain ⟨⟨address, ha, hcall⟩, -⟩ := hp
  obtain ⟨address', ha', hbody⟩ := hl.rule name body hr
  rw [ha, Option.some.injEq] at ha'
  subst ha'
  simp only [ruleCode, placed_append, placed_inst] at hbody
  exact ⟨address, hcall, hbody.1, hbody.2.1⟩

/-- A call that stands in the program is the call of a rule. -/
theorem RuleLayout.exists_body {rules : List (String × Pattern)} {name : String}
    (hl : RuleLayout program addresses rules)
    (hp : Placed program addresses a (Pattern.rule name).code) : ∃ body, (name, body) ∈ rules := by
  simp only [Pattern.code_rule, placed_callRule] at hp
  obtain ⟨⟨address, ha, -⟩, -⟩ := hp
  exact hl.known name address ha

/-- Where the pattern and the rules stand. -/
structure Layout (program : Program) (addresses : List (String × Nat))
    (rules : List (String × Pattern)) (p : Pattern) : Prop
    extends RuleLayout program addresses rules where
  main : Placed program addresses 0 p.code
  /-- What comes after the pattern completes the match. -/
  exit : program.get? p.code.length = none ∨ program.get? p.code.length = some .done
  /-- The rules come later. -/
  later : ∀ name address, addresses.lookup name = some address → p.code.length < address

theorem Compiled.layout {rules : List (String × Pattern)} {p : Pattern}
    (h : Compiled program rules p) : ∃ addresses, Layout program addresses rules p := by
  cases h with
  | pattern h =>
    rw [Pattern.compile_eq] at h
    cases hl : link [] p.code with
    | error e => simp [hl, Except.map] at h
    | ok insts =>
      simp only [hl, Except.map, Except.ok.injEq] at h
      subst h
      refine ⟨[], ⟨by simp, by simp⟩, placed_link [] (map_link? hl), .inl ?_, by simp⟩
      simp [← length_link hl]
  | @grammar g _ h =>
    rw [Grammar.compile_eq] at h
    split at h
    · simp at h
    · next hn =>
      cases hl : link g.addresses g.code with
      | error e => simp [hl, Except.map] at h
      | ok insts =>
        simp only [hl, Except.map, Except.ok.injEq] at h
        subst h
        have hp := placed_link [] (map_link? hl)
        simp only [Grammar.code, placed_callRule, placed_inst] at hp
        refine ⟨g.addresses, ⟨?_, ?_⟩, ?_, .inr hp.2.1, ?_⟩
        · intro name body hm
          exact placed_rule (nodup_of_firstRepeated hn).1 hp.2.2 hm
        · intro name address ha
          exact exists_rule_of_lookup ha
        · simpa [Pattern.code_rule] using hp.1
        · intro name address ha
          exact le_of_lookup ha

end Keymap
