-- What is wrong with a grammar that is refused. The error names the first rule whose name has been
-- given before, or else the first reference to a rule that there is not.
import Keymap.Proofs.Prospects

namespace Keymap

/-! ## References in a code -/

/-- The names of the rules that are called in a code. -/
def callees : List Slot → List String
  | [] => []
  | .inst _ :: rest => callees rest
  | .callRule name :: rest => name :: callees rest

@[simp] theorem callees_nil : callees [] = [] := rfl

@[simp] theorem callees_inst (i : Inst) (rest : List Slot) :
    callees (.inst i :: rest) = callees rest := rfl

@[simp] theorem callees_callRule (name : String) (rest : List Slot) :
    callees (.callRule name :: rest) = name :: callees rest := rfl

@[simp] theorem callees_append (code code' : List Slot) :
    callees (code ++ code') = callees code ++ callees code' := by
  induction code with
  | nil => rfl
  | cons s rest ih => cases s <;> simp [ih]

/-- The calls in the code of a pattern are its references, in the same order. -/
theorem Pattern.callees_code (p : Pattern) : callees p.code = p.names := by
  induction p with
  | event m => rfl
  | seq a b iha ihb => simp [code_seq, iha, ihb, names]
  | alt a b iha ihb => simp [code_alt, iha, ihb, names]
  | star p ih => simp [code_star, ih, names]
  | plus p ih => simp [code_plus, ih, names]
  | opt p ih => simp [code_opt, ih, names]
  | capture p template ih => simp [code_capture, ih, names]
  | done => rfl
  | rule name => rfl

theorem callees_ruleCode (body : Pattern) : callees (ruleCode body) = body.names := by
  simp [ruleCode, Pattern.callees_code]

theorem callees_flatMap {α : Type} (rules : List α) (f : α → List Slot) :
    callees (rules.flatMap f) = rules.flatMap fun rule => callees (f rule) := by
  induction rules with
  | nil => rfl
  | cons rule rest ih => rw [List.flatMap_cons, callees_append, ih, List.flatMap_cons]

namespace Grammar

/-- The names of the rules. -/
def names (g : Grammar) : List String := g.rules.map Prod.fst

/-- The names that the grammar refers to: the root, and those in the bodies of the rules. -/
def references (g : Grammar) : List String := g.root :: g.rules.flatMap fun rule => rule.2.names

/-- It is the first rule that has the name of a rule before it. -/
def FirstRepeated (g : Grammar) (name : String) : Prop :=
  ∃ front body back, g.rules = front ++ (name, body) :: back
    ∧ (front.map Prod.fst).Nodup ∧ name ∈ front.map Prod.fst

/-- It is the first reference to a rule that there is not. -/
def FirstUndefined (g : Grammar) (name : String) : Prop :=
  ∃ before after, g.references = before ++ name :: after
    ∧ (∀ n ∈ before, n ∈ g.names) ∧ name ∉ g.names

theorem callees_code (g : Grammar) : callees g.code = g.references := by
  rw [code, callees_callRule, callees_inst, callees_flatMap, references]
  simp only [callees_ruleCode]

end Grammar

/-! ## Repeated names -/

variable {seen names : List String} {name : String} {addresses : List (String × Nat)}
  {code : List Slot}

theorem exists_of_firstRepeated (h : firstRepeated seen names = some name) :
    ∃ front back, names = front ++ name :: back ∧ front.Nodup ∧ (∀ n ∈ front, n ∉ seen)
      ∧ (name ∈ front ∨ name ∈ seen) := by
  induction names generalizing seen with
  | nil => cases h
  | cons n names ih =>
    rw [firstRepeated] at h
    split at h
    · next hn =>
      obtain rfl := Option.some.inj h
      exact ⟨[], names, rfl, List.nodup_nil, List.forall_mem_nil _, .inr hn⟩
    · next hn =>
      obtain ⟨front, back, rfl, hd, hs, hname⟩ := ih h
      have hnot : n ∉ front := fun hm => hs n hm List.mem_cons_self
      refine ⟨n :: front, back, rfl, List.nodup_cons.mpr ⟨hnot, hd⟩, ?_, ?_⟩
      · refine List.forall_mem_cons.mpr ⟨hn, fun m hm hseen => ?_⟩
        exact hs m hm (List.mem_cons_of_mem n hseen)
      · rcases hname with hfront | hseen
        · exact .inl (List.mem_cons_of_mem n hfront)
        · rcases List.mem_cons.mp hseen with rfl | hseen
          · exact .inl List.mem_cons_self
          · exact .inr hseen

theorem Grammar.firstRepeated_of_eq_some {g : Grammar} (h : firstRepeated [] g.names = some name) :
    g.FirstRepeated name := by
  obtain ⟨front, back, hnames, hd, -, hname⟩ := exists_of_firstRepeated h
  obtain ⟨before, rest, hrules, rfl, hrest⟩ := List.map_eq_append_iff.mp hnames
  obtain ⟨⟨_, body⟩, after, rfl, rfl, -⟩ := List.map_eq_cons_iff.mp hrest
  exact ⟨before, body, after, hrules, hd, by simpa using hname⟩

/-! ## Linking -/

/-- The rules that have an address are those of the list. -/
theorem isSome_lookup_addressesFrom {a : Nat} {rules : List (String × Pattern)} :
    ((addressesFrom a rules).lookup name).isSome ↔ name ∈ rules.map Prod.fst := by
  induction rules generalizing a with
  | nil => simp [addressesFrom]
  | cons rule rest ih =>
    obtain ⟨first, body⟩ := rule
    rw [addressesFrom, List.lookup_cons, List.map_cons, List.mem_cons]
    by_cases hn : name = first
    · simp [hn]
    · have hne : (name == first) = false := beq_eq_false_iff_ne.mpr hn
      simp [hne, hn, ih]

/-- Linking fails at the first call of a rule that has no address. -/
theorem link_eq_error {before after : List String}
    (h : callees code = before ++ name :: after)
    (hbefore : ∀ n ∈ before, (addresses.lookup n).isSome) (hname : addresses.lookup name = none) :
    link addresses code = .error (.unknownRule name) := by
  induction code generalizing before with
  | nil => simp at h
  | cons s rest ih =>
    cases s with
    | inst i => rw [link, ih h hbefore]; rfl
    | callRule n =>
      have h : n :: callees rest = before ++ name :: after := h
      cases before with
      | nil =>
        obtain ⟨rfl, -⟩ := List.cons.inj h
        simp only [link, hname]
      | cons m before =>
        obtain ⟨rfl, hrest⟩ := List.cons.inj h
        obtain ⟨hfirst, hbefore⟩ := List.forall_mem_cons.mp hbefore
        obtain ⟨address, ha⟩ := Option.isSome_iff_exists.mp hfirst
        simp only [link, ha, ih hrest hbefore]
        rfl

/-- Linking succeeds if each rule that is called has an address. -/
theorem exists_link (h : ∀ n ∈ callees code, (addresses.lookup n).isSome) :
    ∃ insts, link addresses code = .ok insts := by
  induction code with
  | nil => exact ⟨[], rfl⟩
  | cons s rest ih =>
    cases s with
    | inst i =>
      obtain ⟨insts, hl⟩ := ih h
      exact ⟨i :: insts, by rw [link, hl]; rfl⟩
    | callRule name =>
      obtain ⟨hname, hrest⟩ := List.forall_mem_cons.mp h
      obtain ⟨address, ha⟩ := Option.isSome_iff_exists.mp hname
      obtain ⟨insts, hl⟩ := ih hrest
      exact ⟨.call address :: insts, by simp only [link, ha, hl]; rfl⟩

/-! ## The first fault -/

theorem Pattern.compile_eq_error {p : Pattern} {rest : List String} (h : p.names = name :: rest) :
    p.compile = .error (.unknownRule name) := by
  have hcode : callees p.code = [] ++ name :: rest := p.callees_code.trans h
  rw [compile_eq, link_eq_error hcode (List.forall_mem_nil _) rfl]
  rfl

namespace Grammar

variable {g : Grammar}

theorem firstRepeated_eq_none (h : g.names.Nodup) : firstRepeated [] g.names = none :=
  firstRepeated_eq_none_iff.mpr ⟨h, fun _ _ => List.not_mem_nil⟩

/-- Without repeated names, compiling is linking. -/
theorem compile_eq_link (h : g.names.Nodup) :
    g.compile = (link g.addresses g.code).map .ofList := by
  rw [compile_eq]
  have hnone : firstRepeated [] (g.rules.map Prod.fst) = none := firstRepeated_eq_none h
  rw [hnone]

theorem exists_firstRepeated (h : ¬ g.names.Nodup) :
    ∃ name, g.FirstRepeated name ∧ g.compile = .error (.duplicateRule name) := by
  rw [compile_eq]
  cases hr : firstRepeated [] (g.rules.map Prod.fst) with
  | none => exact absurd (firstRepeated_eq_none_iff.mp hr).1 h
  | some name => exact ⟨name, firstRepeated_of_eq_some hr, rfl⟩

theorem isSome_lookup_addresses : (g.addresses.lookup name).isSome ↔ name ∈ g.names :=
  isSome_lookup_addressesFrom

theorem compile_eq_unknownRule (hn : g.names.Nodup) (h : g.FirstUndefined name) :
    g.compile = .error (.unknownRule name) := by
  obtain ⟨before, after, hreferences, hbefore, hname⟩ := h
  have hcode := g.callees_code.trans hreferences
  have hlookup : g.addresses.lookup name = none := by
    rw [← Option.not_isSome_iff_eq_none, isSome_lookup_addresses]
    exact hname
  rw [compile_eq_link hn, link_eq_error hcode _ hlookup]
  · rfl
  · exact fun n hm => isSome_lookup_addresses.mpr (hbefore n hm)

theorem exists_firstUndefined (h : ∃ name ∈ g.references, name ∉ g.names) :
    ∃ name, g.FirstUndefined name := by
  obtain ⟨name, hm, hn⟩ := h
  cases hf : g.references.find? (· ∉ g.names) with
  | none => exact absurd hn (by simpa using List.find?_eq_none.mp hf name hm)
  | some first =>
    obtain ⟨hfirst, before, after, hreferences, hbefore⟩ := List.find?_eq_some_iff_append.mp hf
    exact ⟨first, before, after, hreferences, by simpa using hbefore, by simpa using hfirst⟩

theorem exists_compile (hn : g.names.Nodup) (h : ∀ name ∈ g.references, name ∈ g.names) :
    ∃ program, g.compile = .ok program := by
  obtain ⟨insts, hl⟩ : ∃ insts, link g.addresses g.code = .ok insts := by
    refine exists_link fun name hm => isSome_lookup_addresses.mpr (h name ?_)
    rwa [callees_code] at hm
  exact ⟨.ofList insts, by rw [compile_eq_link hn, hl]; rfl⟩

end Grammar

/-- A grammar in which a name is given twice is refused for the first rule whose name has been given
before. One in which all names differ is refused for the first reference to a rule that there is
not, and it is compiled if there is none. A pattern is compiled if and only if it refers to no rule,
and it is refused for the first one. -/
theorem a_grammar_is_refused_for_its_first_fault :
    (∀ g : Grammar,
      (¬ g.names.Nodup → ∃ name, g.FirstRepeated name ∧ g.compile = .error (.duplicateRule name))
        ∧ (g.names.Nodup → (∃ name ∈ g.references, name ∉ g.names) →
          ∃ name, g.FirstUndefined name ∧ g.compile = .error (.unknownRule name))
        ∧ (g.names.Nodup → (∀ name ∈ g.references, name ∈ g.names) →
          ∃ program, g.compile = .ok program))
      ∧ ∀ p : Pattern, ((∃ program, p.compile = .ok program) ↔ p.names = [])
        ∧ ∀ name rest, p.names = name :: rest → p.compile = .error (.unknownRule name) := by
  refine ⟨?_, ?_⟩
  · intro g
    refine ⟨Grammar.exists_firstRepeated, ?_, Grammar.exists_compile⟩
    intro hn h
    obtain ⟨name, hname⟩ := Grammar.exists_firstUndefined h
    exact ⟨name, hname, Grammar.compile_eq_unknownRule hn hname⟩
  · intro p
    exact ⟨Pattern.exists_compile_iff, fun name rest h => Pattern.compile_eq_error h⟩

/-- Two names are given twice, and one that is not given is referred to before. -/
def twiceDefined : Grammar :=
  ⟨"delete", [("delete", .rule "motion"), ("count", .done), ("count", .done), ("delete", .done)]⟩

/-- Two names that are not given, the first of them in a rule that nothing refers to. -/
def undefinedMotion : Grammar :=
  ⟨"delete", [("yank", .alt (.rule "delete") (.plus (.rule "motion"))), ("delete", .rule "register")]⟩

theorem the_first_fault_of_two :
    (twiceDefined.FirstRepeated "count" ∧ twiceDefined.compile = .error (.duplicateRule "count"))
      ∧ (undefinedMotion.FirstUndefined "motion"
        ∧ undefinedMotion.compile = .error (.unknownRule "motion"))
      ∧ (Pattern.seq (.opt (.rule "motion")) (.rule "count")).compile
        = .error (.unknownRule "motion") := by
  obtain ⟨hgrammar, hpattern⟩ := a_grammar_is_refused_for_its_first_fault
  obtain ⟨name, hname, hrepeated⟩ := (hgrammar twiceDefined).1 (by decide)
  obtain ⟨name', hname', hundefined⟩ := (hgrammar undefinedMotion).2.1 (by decide) (by decide)
  have hcount : twiceDefined.compile = .error (.duplicateRule "count") := rfl
  have hmotion : undefinedMotion.compile = .error (.unknownRule "motion") := rfl
  obtain rfl : "count" = name := by simpa [hcount] using hrepeated
  obtain rfl : "motion" = name' := by simpa [hmotion] using hundefined
  exact ⟨⟨hname, hcount⟩, ⟨hname', hmotion⟩, (hpattern _).2 "motion" ["count"] rfl⟩

end Keymap
