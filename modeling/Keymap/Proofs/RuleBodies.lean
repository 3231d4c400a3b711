-- Rules behave like their bodies: a grammar without cycles does the same as the one pattern that
-- has the body of a rule in the place of each name.
import Keymap.Proofs.Unhindered

namespace Keymap

namespace Grammar

/-- A compiled grammar without cycles makes one pattern, which refers to no rule and is compiled
too. -/
theorem exists_inlined {g : Grammar} {program : Program} (hg : g.compile = .ok program)
    (ha : g.Acyclic) :
    ∃ p program', Pattern.Inlines g.rules (.rule g.root) p
      ∧ (∀ q, Pattern.Inlines g.rules (.rule g.root) q → q = p) ∧ p.compile = .ok program' := by
  obtain ⟨addresses, hl⟩ := (Compiled.grammar hg).layout
  obtain ⟨p, hp⟩ := ha.exists_inlines hl.toRuleLayout (hl.exists_body hl.main)
  obtain ⟨program', hprogram⟩ := Pattern.exists_compile_iff.mpr hp.names_eq
  have hn := (Grammar.compile_eq_ok_iff.mp hg).1
  exact ⟨p, program', hp, fun q hq => hp.unique hn hq, hprogram⟩

end Grammar

namespace Session

variable {s s' : Session} {earlier : List Input} {e : Input}

/-- An unhindered session has an action as soon as a match is complete. -/
theorem Unhindered.isSome_action_iff (h : s.Unhindered e) (hq : s.Quiet) :
    (s.feed e).2.action.isSome ↔ ∃ d, d ∈ s.completes e := by
  rw [Session.isSome_action_iff hq.running h.drops]
  exact ⟨List.exists_mem_of_ne_nil _, fun ⟨_, hd⟩ => List.ne_nil_of_mem hd⟩

/-- Sessions whose programs show the same complete matches with the same captures. -/
theorem exists_completes_iff_of_shows (hs : s.Fresh) (hs' : s'.Fresh)
    (h : s.UnhinderedAll (earlier ++ [e])) (h' : s'.UnhinderedAll (earlier ++ [e]))
    (hshows : ∀ es stop, Branch.Shows s.program s.settings.style {} es stop
      ↔ Branch.Shows s'.program s'.settings.style {} es stop) (P : Captures → Prop) :
    (∃ d ∈ (s'.feedAll earlier).completes e, P d.captures)
      ↔ ∃ d ∈ (s.feedAll earlier).completes e, P d.captures := by
  have hcaptures : ∀ c, (∃ d ∈ (s'.feedAll earlier).completes e, d.captures = c)
      ↔ ∃ d ∈ (s.feedAll earlier).completes e, d.captures = c := by
    intro c
    rw [hs.exists_completes_iff h, hs'.exists_completes_iff h', hshows, hshows]
  constructor
  · rintro ⟨d', hd', hP⟩
    obtain ⟨d, hd, heq⟩ := (hcaptures d'.captures).mp ⟨d', hd', rfl⟩
    exact ⟨d, hd, heq ▸ hP⟩
  · rintro ⟨d, hd, hP⟩
    obtain ⟨d', hd', heq⟩ := (hcaptures d.captures).mpr ⟨d, hd, rfl⟩
    exact ⟨d', hd', heq ▸ hP⟩

/-- A compiled grammar without cycles does the same as its root with the bodies of rules in the
places of their names, as long as neither session drops a fork and no branch of theirs fails for a
limit: an event completes a match for both or for neither, with the same commands and values, and
both may go on or neither. -/
theorem rules_behave_like_their_bodies {g : Grammar} {program : Program}
    (hg : g.compile = .ok program) (ha : g.Acyclic) :
    ∃ p program', Pattern.Inlines g.rules (.rule g.root) p
      ∧ (∀ q, Pattern.Inlines g.rules (.rule g.root) q → q = p) ∧ p.compile = .ok program'
      ∧ ∀ (settings : Settings) (earlier : List Input) (e : Input),
        (start program settings).UnhinderedAll (earlier ++ [e]) →
        (start program' settings).UnhinderedAll (earlier ++ [e]) →
          let s := (start program settings).feedAll earlier
          let s' := (start program' settings).feedAll earlier
          (s'.feed e).2.action.isSome = (s.feed e).2.action.isSome
            ∧ (s'.feed e).2.mayContinue = (s.feed e).2.mayContinue
            ∧ ∀ action, (∃ d ∈ s'.completes e, d.captures.action = action)
              ↔ ∃ d ∈ s.completes e, d.captures.action = action := by
  obtain ⟨p, program', hp, hunique, hprogram⟩ := Grammar.exists_inlined hg ha
  refine ⟨p, program', hp, hunique, hprogram, ?_⟩
  intro settings earlier e h h'
  obtain ⟨addresses, hl⟩ := (Compiled.grammar hg).layout
  obtain ⟨addresses', hl'⟩ := (Compiled.pattern hprogram).layout
  have hshows : ∀ es stop, Branch.Shows program settings.style {} es stop
      ↔ Branch.Shows program' settings.style {} es stop :=
    fun _ _ => Branch.shows_iff_of_resembles hl hl' hp.resembles
  have hfresh : (start program settings).Fresh := .new _ _
  have hfresh' : (start program' settings).Fresh := .new _ _
  have hcompletes := exists_completes_iff_of_shows hfresh hfresh' h h' hshows
  refine ⟨?_, ?_, fun action => hcompletes fun c => c.action = action⟩
  · have hany := hcompletes fun _ => True
    simp only [and_true] at hany
    obtain ⟨-, hlast, -⟩ := unhinderedAll_append.mp h
    obtain ⟨-, hlast', -⟩ := unhinderedAll_append.mp h'
    have hq := (hfresh.reachable.feedAll earlier).quiet
    have hq' := (hfresh'.reachable.feedAll earlier).quiet
    rw [Bool.eq_iff_iff, hlast.isSome_action_iff hq, hlast'.isSome_action_iff hq', hany]
  · rw [Bool.eq_iff_iff, hfresh.mayContinue_iff h, hfresh'.mayContinue_iff h']
    exact (hshows _ _).symm

theorem acyclic_gotoLine : gotoLine.Acyclic := by
  refine Grammar.acyclic_of_lower (fun name => if name = "goto" then 1 else 0) ?_
  intro name body hbody name' hname
  have hbody : (name, body) = ("goto", .capture (.seq (.rule "count")
      (.event (.range 'G' 'G'))) "goto $1") ∨ (name, body) = ("count",
        .capture (.plus (.event (.range '0' '9'))) "$0") := by
    simpa [gotoLine] using hbody
  rcases hbody with h | h
  · obtain ⟨rfl, rfl⟩ := Prod.mk.inj h
    obtain rfl : name' = "count" := by simpa [Pattern.names] using hname
    decide
  · obtain ⟨rfl, rfl⟩ := Prod.mk.inj h
    simp [Pattern.names] at hname

/-- The rules of `gotoLine` in one pattern. -/
def gotoPattern : Pattern := .capture (.seq (.capture (.plus (.event (.range '0' '9'))) "$0")
  (.event (.range 'G' 'G'))) "goto $1"

def gotoPatternProgram : Program := .ofList
  [.capStart, .capStart, .consume (.range '0' '9'), .split (-1) 1, .capEnd "$0",
    .consume (.range 'G' 'G'), .capEnd "goto $1"]

theorem compile_gotoPattern : gotoPattern.compile = .ok gotoPatternProgram := by rfl

theorem inlines_gotoLine : Pattern.Inlines gotoLine.rules (.rule gotoLine.root) gotoPattern := by
  have hgoto : ("goto", .capture (.seq (.rule "count") (.event (.range 'G' 'G'))) "goto $1")
      ∈ gotoLine.rules := List.mem_cons_self
  have hcount : ("count", .capture (.plus (.event (.range '0' '9'))) "$0") ∈ gotoLine.rules :=
    List.mem_cons_of_mem _ List.mem_cons_self
  exact .rule hgoto (.capture (.seq (.rule hcount (.capture (.plus (.event _)))) (.event _)))

/-- With a count and a G, the two calls are not seen. -/
theorem a_goto_behaves_like_its_bodies :
    gotoLine.Acyclic
      ∧ (start gotoLineProgram {}).UnhinderedAll [.typed '4', .typed 'G']
      ∧ (start gotoPatternProgram {}).UnhinderedAll [.typed '4', .typed 'G']
      ∧ ∀ action,
        (∃ d ∈ ((start gotoPatternProgram {}).feedAll [.typed '4']).completes (.typed 'G'),
            d.captures.action = action)
          ↔ ∃ d ∈ ((start gotoLineProgram {}).feedAll [.typed '4']).completes (.typed 'G'),
            d.captures.action = action := by
  have hgrammar : (start gotoLineProgram {}).UnhinderedAll ([.typed '4'] ++ [.typed 'G']) :=
    ⟨⟨by decide +kernel, by decide +kernel⟩, ⟨by decide +kernel, by decide +kernel⟩, trivial⟩
  have hpattern : (start gotoPatternProgram {}).UnhinderedAll ([.typed '4'] ++ [.typed 'G']) :=
    ⟨⟨by decide +kernel, by decide +kernel⟩, ⟨by decide +kernel, by decide +kernel⟩, trivial⟩
  obtain ⟨p, program', -, hunique, hprogram, hall⟩ :=
    rules_behave_like_their_bodies compile_gotoLine acyclic_gotoLine
  obtain rfl : gotoPattern = p := hunique _ inlines_gotoLine
  obtain rfl : gotoPatternProgram = program' :=
    Except.ok.inj (compile_gotoPattern.symm.trans hprogram)
  obtain ⟨-, -, hactions⟩ := hall {} [.typed '4'] (.typed 'G') hgrammar hpattern
  exact ⟨acyclic_gotoLine, hgrammar, hpattern, hactions⟩

end Session

end Keymap
