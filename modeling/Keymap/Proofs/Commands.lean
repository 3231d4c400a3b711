-- Which command a match gives, when one capture spans all of it.
import Keymap.Proofs.Soundness
import Keymap.Proofs.TemplatePieces

namespace Keymap

/-- The pattern refers to no rule, and nothing in it completes the match before its end. -/
def Pattern.Plain : Pattern → Prop
  | .event _ => True
  | .seq p q => p.Plain ∧ q.Plain
  | .alt p q => p.Plain ∧ q.Plain
  | .star p => p.Plain
  | .plus p => p.Plain
  | .opt p => p.Plain
  | .capture p _ => p.Plain
  | .done => False
  | .rule _ => False

/-- What comes after a plain pattern is always read next. -/
theorem Derives.eq_goesOn {style : CaptureStyle} {rules : List (String × Pattern)} {p : Pattern}
    {c c' : Captures} {path : Path} {k : Ending} (h : Derives style rules p c path c' k)
    (hp : p.Plain) : k = .goesOn := by
  induction h with
  | event | altFirst | starNone | plusOnce | optNone | capture | rule => rfl
  | seq _ _ _ ih => exact ih hp.2
  | seqEnds _ ih => exact ih hp.1
  | altFirstEnds _ ih => exact ih hp.1
  | altSecond _ ih => exact ih hp.2
  | starMore _ _ _ ih => exact ih hp
  | starEnds _ ih => exact ih hp
  | plusMore _ _ _ ih => exact ih hp
  | plusEnds _ ih => exact ih hp
  | optSome _ ih => exact ih hp
  | captureEnds _ ih => exact ih hp
  | done => exact hp.elim
  | ruleEnds => exact hp.elim

namespace Captures

/-- A capture that closes leaves its own result on top of those that its template does not
take. -/
theorem exists_results_close (style : CaptureStyle) (template : String) (span : List Value)
    (c : Captures) :
    ∃ own, (c.close style template span).results = own :: c.results.drop (taken template) := by
  unfold close
  split
  · exact ⟨_, rfl⟩
  · exact ⟨_, rfl⟩

/-- The command is the result on top if there is no other, and else the oldest of the others. -/
theorem command_eq {c : Captures} {own : String} {left : List String}
    (h : c.results = own :: left) : c.action.command = left.getLast?.getD own := by
  unfold action
  rw [h, List.getLast?_cons]
  rfl

end Captures

namespace Session

variable {s : Session}

/-- A match that is complete comes of a run through the events that it has consumed. -/
theorem Fresh.exists_run (hs : s.Fresh) {earlier : List Input} {e : Input} {d : Branch}
    (hd : d ∈ (s.feedAll earlier).completes e) :
    Branch.Complete s.program d.still
      ∧ ∃ path, Branch.Runs s.program s.settings.style {} path d.still
        ∧ (Path.events path = earlier ++ [e] ∨ earlier = [] ∧ Path.events path = []) := by
  have hq : (s.feedAll earlier).Quiet := (hs.reachable.feedAll earlier).quiet
  have hevents : (s.feedAll earlier).events.toList = earlier := by
    rw [events_feedAll, hs.eq_start]
    rfl
  obtain ⟨hcomplete, path, hr, he⟩ :=
    (hs.traced.feedAll hs.reachable.quiet earlier).of_mem_completes hq hd
  rw [program_feedAll] at hcomplete hr
  rw [settings_feedAll] at hr
  refine ⟨hcomplete, path, hr, ?_⟩
  have htake := hq.take_of_mem_completes hd
  rwa [hevents, ← he] at htake

/-- And it has been derived from them. -/
theorem Fresh.exists_derives (hs : s.Fresh) {rules : List (String × Pattern)} {p : Pattern}
    (hp : Compiled s.program rules p) {earlier : List Input} {e : Input} {d : Branch}
    (hd : d ∈ (s.feedAll earlier).completes e) :
    ∃ path k, Derives s.settings.style rules p {} path d.captures k
      ∧ (Path.events path = earlier ++ [e] ∨ earlier = [] ∧ Path.events path = []) := by
  obtain ⟨addresses, hl⟩ := hp.layout
  obtain ⟨hcomplete, path, hr, hevents⟩ := hs.exists_run hd
  obtain ⟨k, hder⟩ := (Branch.exists_derives_iff hl).mpr ⟨d.still, hr, hcomplete, rfl⟩
  exact ⟨path, k, hder, hevents⟩

/-- Where one capture spans the pattern, the command is its own result only if it leaves none
of the results that its pattern has made. Else it is the oldest of those. -/
theorem a_command_is_the_oldest_result (hs : s.Fresh) {p : Pattern} (hp : p.Plain)
    {template : String} (hc : (Pattern.capture p template).compile = .ok s.program)
    {earlier : List Input} {e : Input} {action : Action}
    (ha : ((s.feedAll earlier).feed e).2.action = some action) :
    ∃ path c own, Derives s.settings.style [] p {} path c .goesOn
      ∧ (Path.events path = earlier ++ [e] ∨ earlier = [] ∧ Path.events path = [])
      ∧ (c.close s.settings.style template (Path.values path)).results
        = own :: c.results.drop (Captures.taken template)
      ∧ (c.results.length ≤ Captures.taken template → action.command = own)
      ∧ (Captures.taken template < c.results.length →
        some action.command = c.results.getLast?) := by
  have hq : (s.feedAll earlier).Quiet := (hs.reachable.feedAll earlier).quiet
  obtain ⟨d, hd, rfl⟩ := exists_complete_of_action hq.running ha
  obtain ⟨path, k, hder, hevents⟩ := hs.exists_derives (.pattern hc) hd
  generalize hcaptures : d.captures = c' at hder
  cases hder with
  | captureEnds h => cases h.eq_goesOn hp
  | @capture _ _ _ c path h =>
    obtain ⟨own, hown⟩ :=
      Captures.exists_results_close s.settings.style template (Path.values path) c
    have hcommand := Captures.command_eq hown
    refine ⟨path, c, own, h, by simpa using hevents, hown, ?_, ?_⟩
    · intro hle
      rw [hcommand, List.drop_eq_nil_of_le hle]
      rfl
    · intro hlt
      rw [hcommand, List.getLast?_drop, if_neg (Nat.not_le.mpr hlt)]
      have hne : c.results ≠ [] := List.ne_nil_of_length_pos (Nat.zero_lt_of_lt hlt)
      rw [List.getLast?_eq_some_getLast hne]
      rfl

/-- A letter in two captures. The template of the outer one takes no result. -/
def letterTwice : Pattern := .capture (.capture (.event (.key (.typed 'a') {})) "X") "Y"

def letterTwiceProgram : Program := .ofList
  [.capStart, .capStart, .consume (.key (.typed 'a') {}), .capEnd "X", .capEnd "Y"]

theorem compile_letterTwice : letterTwice.compile = .ok letterTwiceProgram := by cbv

theorem a_letter_gives_the_oldest_result :
    ∃ path c own,
      Derives .inline [] (.capture (.event (.key (.typed 'a') {})) "X") {} path c .goesOn
      ∧ (c.close .inline "Y" (Path.values path)).results = own :: c.results
      ∧ (0 < c.results.length → c.results.getLast? = some "X") := by
  have ha : (((start letterTwiceProgram {}).feedAll []).feed (.typed 'a')).2.action
      = some ⟨"X", []⟩ := by
    decide +kernel
  have hp : (Pattern.capture (.event (.key (.typed 'a') {})) "X").Plain := trivial
  have htaken : Captures.taken "Y" = 0 := by cbv
  obtain ⟨path, c, own, hder, -, hown, -, hleft⟩ :=
    a_command_is_the_oldest_result (.new _ _) hp compile_letterTwice ha
  rw [htaken] at hown hleft
  exact ⟨path, c, own, hder, hown, fun hlt => (hleft hlt).symm⟩

/-- The outer capture makes a Y of whatever it takes, but the command is the X of the inner
one. -/
theorem a_command_may_come_from_an_inner_capture :
    letterTwice.compile = .ok letterTwiceProgram
      ∧ (∀ args, Template.expand "Y" args = "Y")
      ∧ ((start letterTwiceProgram {}).feed (.typed 'a')).2.action = some ⟨"X", []⟩ := by
  refine ⟨compile_letterTwice, ?_, by decide +kernel⟩
  intro args
  rw [Template.expand_eq, String.toList_ofList, Template.pieces_char (by decide),
    Template.pieces_nil]
  rfl

end Session

end Keymap
