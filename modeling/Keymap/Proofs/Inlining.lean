-- The bodies of rules in the places of their names. Where no rule comes back to itself, this
-- makes one pattern of a grammar, which refers to no rule.
import Keymap.Proofs.Prospects
import Mathlib.Data.Set.Finite.Basic

namespace Keymap

namespace Pattern

/-- The second pattern is the first with a body in the place of each name. In the bodies the same
has been done. -/
inductive Inlines (rules : List (String × Pattern)) : Pattern → Pattern → Prop
  | event (m : Matcher) : Inlines rules (.event m) (.event m)
  | seq {p p' q q' : Pattern} (hp : Inlines rules p p') (hq : Inlines rules q q') :
    Inlines rules (.seq p q) (.seq p' q')
  | alt {p p' q q' : Pattern} (hp : Inlines rules p p') (hq : Inlines rules q q') :
    Inlines rules (.alt p q) (.alt p' q')
  | star {p p' : Pattern} (hp : Inlines rules p p') : Inlines rules (.star p) (.star p')
  | plus {p p' : Pattern} (hp : Inlines rules p p') : Inlines rules (.plus p) (.plus p')
  | opt {p p' : Pattern} (hp : Inlines rules p p') : Inlines rules (.opt p) (.opt p')
  | capture {p p' : Pattern} {template : String} (hp : Inlines rules p p') :
    Inlines rules (.capture p template) (.capture p' template)
  | done : Inlines rules .done .done
  | rule {name : String} {body p : Pattern} (hr : (name, body) ∈ rules)
    (hp : Inlines rules body p) : Inlines rules (.rule name) p

variable {rules : List (String × Pattern)} {p q q' : Pattern}

theorem Inlines.names_eq (h : Inlines rules p q) : q.names = [] := by
  induction h with
  | event | done => rfl
  | seq _ _ ihp ihq | alt _ _ ihp ihq => rw [names, ihp, ihq, List.append_nil]
  | star _ ih | plus _ ih | opt _ ih | capture _ ih | rule _ _ ih => exact ih

/-- If no two rules have the same name, there is only one such pattern. -/
theorem Inlines.unique (hn : (rules.map Prod.fst).Nodup) (h : Inlines rules p q)
    (h' : Inlines rules p q') : q' = q := by
  induction h generalizing q' with
  | event m =>
    cases h' with
    | event => rfl
  | seq _ _ ihp ihq =>
    cases h' with
    | seq hp hq => rw [ihp hp, ihq hq]
  | alt _ _ ihp ihq =>
    cases h' with
    | alt hp hq => rw [ihp hp, ihq hq]
  | star _ ih =>
    cases h' with
    | star hp => rw [ih hp]
  | plus _ ih =>
    cases h' with
    | plus hp => rw [ih hp]
  | opt _ ih =>
    cases h' with
    | opt hp => rw [ih hp]
  | capture _ ih =>
    cases h' with
    | capture hp => rw [ih hp]
  | done =>
    cases h' with
    | done => rfl
  | rule hr _ ih =>
    cases h' with
    | rule hr' hp =>
      obtain ⟨-, rfl⟩ := Prod.mk.inj (List.inj_on_of_nodup_map hn hr hr' rfl)
      exact ih hp

/-- There is one, if there is one for each of the names. -/
theorem exists_inlines_of_names (h : ∀ name ∈ p.names, ∃ q, Inlines rules (.rule name) q) :
    ∃ q, Inlines rules p q := by
  induction p with
  | event m => exact ⟨_, .event m⟩
  | seq p q ihp ihq =>
    obtain ⟨hp, hq⟩ := List.forall_mem_append.mp h
    obtain ⟨p', hp⟩ := ihp hp
    obtain ⟨q', hq⟩ := ihq hq
    exact ⟨_, .seq hp hq⟩
  | alt p q ihp ihq =>
    obtain ⟨hp, hq⟩ := List.forall_mem_append.mp h
    obtain ⟨p', hp⟩ := ihp hp
    obtain ⟨q', hq⟩ := ihq hq
    exact ⟨_, .alt hp hq⟩
  | star p ih =>
    obtain ⟨p', hp⟩ := ih h
    exact ⟨_, .star hp⟩
  | plus p ih =>
    obtain ⟨p', hp⟩ := ih h
    exact ⟨_, .plus hp⟩
  | opt p ih =>
    obtain ⟨p', hp⟩ := ih h
    exact ⟨_, .opt hp⟩
  | capture p template ih =>
    obtain ⟨p', hp⟩ := ih h
    exact ⟨_, .capture hp⟩
  | done => exact ⟨_, .done⟩
  | rule name => exact h name (List.mem_singleton_self name)

/-- The two patterns are the same, but that either may have a name where the other has the body. -/
inductive Resembles (rules rules' : List (String × Pattern)) : Pattern → Pattern → Prop
  | event (m : Matcher) : Resembles rules rules' (.event m) (.event m)
  | seq {p p' q q' : Pattern} (hp : Resembles rules rules' p p')
    (hq : Resembles rules rules' q q') : Resembles rules rules' (.seq p q) (.seq p' q')
  | alt {p p' q q' : Pattern} (hp : Resembles rules rules' p p')
    (hq : Resembles rules rules' q q') : Resembles rules rules' (.alt p q) (.alt p' q')
  | star {p p' : Pattern} (hp : Resembles rules rules' p p') :
    Resembles rules rules' (.star p) (.star p')
  | plus {p p' : Pattern} (hp : Resembles rules rules' p p') :
    Resembles rules rules' (.plus p) (.plus p')
  | opt {p p' : Pattern} (hp : Resembles rules rules' p p') :
    Resembles rules rules' (.opt p) (.opt p')
  | capture {p p' : Pattern} {template : String} (hp : Resembles rules rules' p p') :
    Resembles rules rules' (.capture p template) (.capture p' template)
  | done : Resembles rules rules' .done .done
  | first {name : String} {body p : Pattern} (hr : (name, body) ∈ rules)
    (hp : Resembles rules rules' body p) : Resembles rules rules' (.rule name) p
  | second {name : String} {body p : Pattern} (hr : (name, body) ∈ rules')
    (hp : Resembles rules rules' p body) : Resembles rules rules' p (.rule name)

theorem Resembles.symm {rules' : List (String × Pattern)} (h : Resembles rules rules' p q) :
    Resembles rules' rules q p := by
  induction h with
  | event m => exact .event m
  | seq _ _ ihp ihq => exact .seq ihp ihq
  | alt _ _ ihp ihq => exact .alt ihp ihq
  | star _ ih => exact .star ih
  | plus _ ih => exact .plus ih
  | opt _ ih => exact .opt ih
  | capture _ ih => exact .capture ih
  | done => exact .done
  | first hr _ ih => exact .second hr ih
  | second hr _ ih => exact .first hr ih

theorem Inlines.resembles (h : Inlines rules p q) : Resembles rules [] p q := by
  induction h with
  | event m => exact .event m
  | seq _ _ ihp ihq => exact .seq ihp ihq
  | alt _ _ ihp ihq => exact .alt ihp ihq
  | star _ ih => exact .star ih
  | plus _ ih => exact .plus ih
  | opt _ ih => exact .opt ih
  | capture _ ih => exact .capture ih
  | done => exact .done
  | rule hr _ ih => exact .first hr ih

end Pattern

/-! ## References -/

namespace Grammar

/-- The body of the first rule refers to the second one. -/
def Refers (g : Grammar) (name name' : String) : Prop :=
  ∃ body, (name, body) ∈ g.rules ∧ name' ∈ body.names

/-- No rule comes back to itself. -/
def Acyclic (g : Grammar) : Prop := ∀ name, ¬ Relation.TransGen g.Refers name name

variable {g : Grammar}

/-- Rules have no cycle if each refers only to rules that are lower. -/
theorem acyclic_of_lower (rank : String → Nat)
    (h : ∀ name body, (name, body) ∈ g.rules → ∀ name' ∈ body.names, rank name' < rank name) :
    g.Acyclic := by
  have hlower : ∀ name name', Relation.TransGen g.Refers name name' → rank name' < rank name := by
    intro name name' ht
    induction ht with
    | single hr =>
      obtain ⟨body, hbody, hname⟩ := hr
      exact h _ _ hbody _ hname
    | tail _ hr ih =>
      obtain ⟨body, hbody, hname⟩ := hr
      exact (h _ _ hbody _ hname).trans ih
  intro name ht
  exact Nat.lt_irrefl _ (hlower name name ht)

/-- The rules that a rule of a compiled grammar refers to are rules of the grammar. -/
theorem exists_rule_of_refers {program : Program} {addresses : List (String × Nat)}
    (hl : RuleLayout program addresses g.rules) {name name' : String} (h : g.Refers name name') :
    ∃ body, (name', body) ∈ g.rules := by
  obtain ⟨body, hbody, hname⟩ := h
  obtain ⟨address, -, hp⟩ := hl.rule name body hbody
  obtain ⟨front, back, hcode⟩ := List.append_of_mem (Pattern.callRule_mem_code_iff.mpr hname)
  rw [ruleCode, hcode, placed_append, placed_append, placed_callRule] at hp
  obtain ⟨⟨-, ⟨address', ha, -⟩, -⟩, -⟩ := hp
  exact hl.known name' address' ha

/-- A rule of a compiled grammar without cycles can be inlined. -/
theorem Acyclic.exists_inlines (h : g.Acyclic) {program : Program}
    {addresses : List (String × Nat)} (hl : RuleLayout program addresses g.rules) {name : String}
    (hname : ∃ body, (name, body) ∈ g.rules) :
    ∃ q, Pattern.Inlines g.rules (.rule name) q := by
  let names : Set String := {name | ∃ body, (name, body) ∈ g.rules}
  have hfinite : names.Finite := by
    refine (List.finite_toSet (g.rules.map Prod.fst)).subset ?_
    rintro name ⟨body, hbody⟩
    have hmem : (name, body).1 ∈ g.rules.map Prod.fst := List.mem_map_of_mem hbody
    exact hmem
  have := hfinite.to_subtype
  -- The induction is on what a rule refers to, directly or through other rules.
  let below : names → names → Prop := fun n n' => Relation.TransGen g.Refers n' n
  have : IsTrans names below := ⟨fun _ _ _ hab hbc => hbc.trans hab⟩
  have : Std.Irrefl below := ⟨fun n => h n⟩
  have hwf : WellFounded below := Finite.wellFounded_of_trans_of_irrefl below
  have hall : ∀ n : names, ∃ q, Pattern.Inlines g.rules (.rule n) q := by
    intro n
    induction n using hwf.induction with
    | _ n ih =>
      obtain ⟨name, body, hbody⟩ := n
      have hnames : ∀ name' ∈ body.names, ∃ q, Pattern.Inlines g.rules (.rule name') q := by
        intro name' hname'
        have hr : g.Refers name name' := ⟨body, hbody, hname'⟩
        exact ih ⟨name', exists_rule_of_refers hl hr⟩ (.single hr)
      obtain ⟨q, hq⟩ := Pattern.exists_inlines_of_names hnames
      exact ⟨q, .rule hbody hq⟩
  exact hall ⟨name, hname⟩

end Grammar

end Keymap
