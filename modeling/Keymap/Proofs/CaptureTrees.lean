-- The captures of a match as a tree. Where every capture takes just the results of the captures
-- right inside it, what is on the stack of results is what an evaluation of the tree gives.
import Keymap.Proofs.Commands
import Keymap.Proofs.Dependence

namespace Keymap

/-! ## Readings -/

/-- What a match has read: events, and captures around some of them. -/
inductive Reading where
  | nothing
  /-- An event with what is kept of it, and then the rest. -/
  | event (e : Input) (v : Value) (rest : Reading)
  /-- A capture around `inner`, and then the rest. -/
  | capture (template : String) (inner rest : Reading)
deriving DecidableEq

/-- What stands for a captured value in a command, when `n` values have been captured before. -/
def CaptureStyle.token (style : CaptureStyle) (n : Nat) (v : Value) : String :=
  match style with
  | .inline => v.toText
  | .reference => "$" ++ toString n

namespace Reading

/-- One after the other. -/
def append : Reading → Reading → Reading
  | .nothing, s => s
  | .event e v rest, s => .event e v (rest.append s)
  | .capture template inner rest, s => .capture template inner (rest.append s)

instance : Append Reading := ⟨append⟩

/-- The events, in order. -/
def events : Reading → List Input
  | .nothing => []
  | .event e _ rest => e :: rest.events
  | .capture _ inner rest => inner.events ++ rest.events

/-- What is kept of them. -/
def values : Reading → List Value
  | .nothing => []
  | .event _ v rest => v :: rest.values
  | .capture _ inner rest => inner.values ++ rest.values

/-- The number of captures that are in no other one. -/
def width : Reading → Nat
  | .nothing => 0
  | .event _ _ rest => rest.width
  | .capture _ _ rest => rest.width + 1

/-- The values of the captures with `$0` in their templates, in the order in which the captures
close. -/
def vars : Reading → List Value
  | .nothing => []
  | .event _ _ rest => rest.vars
  | .capture template inner rest =>
    let own := if Template.usesZero template then [Value.ofSpan inner.values] else []
    inner.vars ++ own ++ rest.vars

/-- The strings of the captures that are in no other one, from left to right. That of a capture
is its template, with its own value for `$0` and the strings of the captures right inside it for
the other arguments. `n` values have been captured before. -/
def strings (style : CaptureStyle) : Nat → Reading → List String
  | _, .nothing => []
  | n, .event _ _ rest => rest.strings style n
  | n, .capture template inner rest =>
    let m := n + inner.vars.length
    let own := style.token m (.ofSpan inner.values)
    Template.expand template (own :: inner.strings style n)
      :: rest.strings style (if Template.usesZero template then m + 1 else m)

variable {r s : Reading}

@[simp] theorem event_append (e : Input) (v : Value) :
    Reading.event e v r ++ s = .event e v (r ++ s) := rfl

@[simp] theorem capture_append (template : String) (inner : Reading) :
    Reading.capture template inner r ++ s = .capture template inner (r ++ s) := rfl

@[simp] theorem append_nothing : r ++ Reading.nothing = r := by
  induction r with
  | nothing => rfl
  | event e v rest ih => rw [event_append, ih]
  | capture template inner rest _ ih => rw [capture_append, ih]

@[simp] theorem events_append : (r ++ s).events = r.events ++ s.events := by
  induction r with
  | nothing => rfl
  | event e v rest ih => simp [events, ih]
  | capture template inner rest _ ih => simp [events, ih]

@[simp] theorem values_append : (r ++ s).values = r.values ++ s.values := by
  induction r with
  | nothing => rfl
  | event e v rest ih => simp [values, ih]
  | capture template inner rest _ ih => simp [values, ih]

@[simp] theorem width_append : (r ++ s).width = r.width + s.width := by
  induction r with
  | nothing => exact (Nat.zero_add _).symm
  | event e v rest ih => exact ih
  | capture template inner rest _ ih =>
    simp only [capture_append, width, ih]
    omega

@[simp] theorem vars_append : (r ++ s).vars = r.vars ++ s.vars := by
  induction r with
  | nothing => rfl
  | event e v rest ih => exact ih
  | capture template inner rest _ ih => simp [vars, ih]

/-- What comes first has captured its values before the rest. -/
theorem strings_append (style : CaptureStyle) (n : Nat) :
    (r ++ s).strings style n = r.strings style n ++ s.strings style (n + r.vars.length) := by
  induction r generalizing n with
  | nothing => rfl
  | event e v rest ih => exact ih n
  | capture template inner rest _ ih =>
    simp only [capture_append, strings, ih, vars, List.cons_append, List.length_append]
    congr 3
    split <;> simp <;> omega

theorem length_strings (style : CaptureStyle) (n : Nat) :
    (r.strings style n).length = r.width := by
  induction r generalizing n with
  | nothing => rfl
  | event e v rest ih => exact ih n
  | capture template inner rest _ ih => simp [strings, width, ih]

end Reading

namespace Pattern

/-- The pattern matches with this reading. -/
inductive Matches : Pattern → Reading → Ending → Prop
  | event {m : Matcher} {e : Input} {v : Value} (h : m.accept? e = some v) :
    Matches (.event m) (.event e v .nothing) .goesOn
  | seq {p q : Pattern} {r s : Reading} {k : Ending} (hp : Matches p r .goesOn)
    (hq : Matches q s k) : Matches (.seq p q) (r ++ s) k
  | seqEnds {p q : Pattern} {r : Reading} (hp : Matches p r .ends) : Matches (.seq p q) r .ends
  | altFirst {p q : Pattern} {r : Reading} {k : Ending} (hp : Matches p r k) :
    Matches (.alt p q) r k
  | altSecond {p q : Pattern} {r : Reading} {k : Ending} (hq : Matches q r k) :
    Matches (.alt p q) r k
  | starNone {p : Pattern} : Matches (.star p) .nothing .goesOn
  | starMore {p : Pattern} {r s : Reading} {k : Ending} (hp : Matches p r .goesOn)
    (hs : Matches (.star p) s k) : Matches (.star p) (r ++ s) k
  | starEnds {p : Pattern} {r : Reading} (hp : Matches p r .ends) : Matches (.star p) r .ends
  | plusOnce {p : Pattern} {r : Reading} {k : Ending} (hp : Matches p r k) :
    Matches (.plus p) r k
  | plusMore {p : Pattern} {r s : Reading} {k : Ending} (hp : Matches p r .goesOn)
    (hs : Matches (.plus p) s k) : Matches (.plus p) (r ++ s) k
  | optNone {p : Pattern} : Matches (.opt p) .nothing .goesOn
  | optSome {p : Pattern} {r : Reading} {k : Ending} (hp : Matches p r k) : Matches (.opt p) r k
  | capture {p : Pattern} {template : String} {r : Reading} (hp : Matches p r .goesOn) :
    Matches (.capture p template) (.capture template r .nothing) .goesOn
  /-- The match is complete before the capture closes. -/
  | captureEnds {p : Pattern} {template : String} {r : Reading} (hp : Matches p r .ends) :
    Matches (.capture p template) r .ends
  | done : Matches .done .nothing .ends

/-! ## Captures that fit -/

/-- The pattern refers to no rule, and no capture in it completes the match. Every match of the
pattern of a capture makes as many captures right inside it as its template takes. -/
def Fitting : Pattern → Prop
  | .event _ => True
  | .seq p q => p.Fitting ∧ q.Fitting
  | .alt p q => p.Fitting ∧ q.Fitting
  | .star p => p.Fitting
  | .plus p => p.Fitting
  | .opt p => p.Fitting
  | .capture p template =>
    p.Plain ∧ p.Fitting ∧ ∀ r, p.Matches r .goesOn → r.width = Captures.taken template
  | .done => True
  | .rule _ => False

/-- The number of captures in no other one that each match makes, where this can be read off the
pattern and the captures in it fit. -/
def width? : Pattern → Option Nat
  | .event _ => some 0
  | .seq p q => p.width?.bind fun n => q.width?.map (n + ·)
  | .alt p q => if p.width? = q.width? then p.width? else none
  | .star p => if p.width? = some 0 then some 0 else none
  | .plus p => if p.width? = some 0 then some 0 else none
  | .opt p => if p.width? = some 0 then some 0 else none
  | .capture p template => if p.width? = some (Captures.taken template) then some 1 else none
  | .done => none
  | .rule _ => none

variable {p : Pattern} {n : Nat}

theorem width?_seq_eq_some_iff {q : Pattern} :
    (Pattern.seq p q).width? = some n
      ↔ ∃ i j, p.width? = some i ∧ q.width? = some j ∧ i + j = n := by
  simp [width?, Option.bind_eq_some_iff]

theorem width?_alt_eq_some_iff {q : Pattern} :
    (Pattern.alt p q).width? = some n ↔ p.width? = some n ∧ q.width? = some n := by
  rw [width?]
  split <;> grind

theorem width?_star_eq_some_iff :
    (Pattern.star p).width? = some n ↔ p.width? = some 0 ∧ n = 0 := by
  simp [width?, eq_comm]

theorem width?_plus_eq_some_iff :
    (Pattern.plus p).width? = some n ↔ p.width? = some 0 ∧ n = 0 := width?_star_eq_some_iff

theorem width?_opt_eq_some_iff :
    (Pattern.opt p).width? = some n ↔ p.width? = some 0 ∧ n = 0 := width?_star_eq_some_iff

theorem width?_capture_eq_some_iff {template : String} :
    (Pattern.capture p template).width? = some n
      ↔ p.width? = some (Captures.taken template) ∧ n = 1 := by
  simp [width?, eq_comm]

/-- What can be read off the pattern is right: nothing in it completes the match, and every match
makes that many captures. -/
theorem Matches.width_eq {r : Reading} {k : Ending} (h : p.Matches r k)
    (hn : p.width? = some n) : k = .goesOn ∧ r.width = n := by
  induction h generalizing n with
  | event =>
    cases hn
    exact ⟨rfl, rfl⟩
  | seq _ _ ihp ihq =>
    obtain ⟨i, j, hi, hj, rfl⟩ := width?_seq_eq_some_iff.mp hn
    rw [Reading.width_append, (ihp hi).2, (ihq hj).2]
    exact ⟨(ihq hj).1, rfl⟩
  | seqEnds _ ih =>
    obtain ⟨i, j, hi, -, -⟩ := width?_seq_eq_some_iff.mp hn
    cases (ih hi).1
  | altFirst _ ih => exact ih (width?_alt_eq_some_iff.mp hn).1
  | altSecond _ ih => exact ih (width?_alt_eq_some_iff.mp hn).2
  | starNone =>
    obtain ⟨-, rfl⟩ := width?_star_eq_some_iff.mp hn
    exact ⟨rfl, rfl⟩
  | starMore _ _ ihp ihs =>
    obtain ⟨hp, rfl⟩ := width?_star_eq_some_iff.mp hn
    rw [Reading.width_append, (ihp hp).2, (ihs hn).2]
    exact ⟨(ihs hn).1, rfl⟩
  | starEnds _ ih => cases (ih (width?_star_eq_some_iff.mp hn).1).1
  | plusOnce _ ih =>
    obtain ⟨hp, rfl⟩ := width?_plus_eq_some_iff.mp hn
    exact ih hp
  | plusMore _ _ ihp ihs =>
    obtain ⟨hp, rfl⟩ := width?_plus_eq_some_iff.mp hn
    rw [Reading.width_append, (ihp hp).2, (ihs hn).2]
    exact ⟨(ihs hn).1, rfl⟩
  | optNone =>
    obtain ⟨-, rfl⟩ := width?_opt_eq_some_iff.mp hn
    exact ⟨rfl, rfl⟩
  | optSome _ ih =>
    obtain ⟨hp, rfl⟩ := width?_opt_eq_some_iff.mp hn
    exact ih hp
  | capture _ _ =>
    obtain ⟨-, rfl⟩ := width?_capture_eq_some_iff.mp hn
    exact ⟨rfl, rfl⟩
  | captureEnds _ ih => cases (ih (width?_capture_eq_some_iff.mp hn).1).1
  | done => cases hn

/-- A pattern with a width is plain, and its captures fit. -/
theorem fitting_of_width? (hn : p.width? = some n) : p.Plain ∧ p.Fitting := by
  induction p generalizing n with
  | event => exact ⟨trivial, trivial⟩
  | seq p q ihp ihq =>
    obtain ⟨i, j, hi, hj, -⟩ := width?_seq_eq_some_iff.mp hn
    exact ⟨⟨(ihp hi).1, (ihq hj).1⟩, (ihp hi).2, (ihq hj).2⟩
  | alt p q ihp ihq =>
    obtain ⟨hp, hq⟩ := width?_alt_eq_some_iff.mp hn
    exact ⟨⟨(ihp hp).1, (ihq hq).1⟩, (ihp hp).2, (ihq hq).2⟩
  | star p ih => exact ih (width?_star_eq_some_iff.mp hn).1
  | plus p ih => exact ih (width?_plus_eq_some_iff.mp hn).1
  | opt p ih => exact ih (width?_opt_eq_some_iff.mp hn).1
  | capture p template ih =>
    have hp := (width?_capture_eq_some_iff.mp hn).1
    obtain ⟨hplain, hfit⟩ := ih hp
    exact ⟨hplain, hplain, hfit, fun r hr => (hr.width_eq hp).2⟩
  | done => cases hn
  | rule => cases hn

end Pattern

/-! ## The stack of results -/

namespace Template

/-- The argument for `$0` makes no difference to a template without it. -/
theorem expand_cons_of_not_usesZero {template : String} (h : usesZero template = false)
    (a b : String) (args : List String) :
    expand template (a :: args) = expand template (b :: args) := by
  refine expand_congr fun n hn => ?_
  cases n with
  | zero => simp [usesZero_iff.mpr hn] at h
  | succ n => rfl

end Template

/-- The reading tells what the path has read, and what it has made of the captures. -/
structure Reading.Tells (style : CaptureStyle) (c : Captures) (path : Path) (c' : Captures)
    (r : Reading) : Prop where
  events : r.events = Path.events path
  values : r.values = Path.values path
  vars : c'.vars = r.vars.reverse ++ c.vars
  results : c'.results = (r.strings style c.vars.length).reverse ++ c.results

namespace Reading.Tells

variable {style : CaptureStyle} {c c' c'' : Captures} {path path' : Path} {r s : Reading}

theorem nil : Tells style c [] c .nothing := ⟨rfl, rfl, rfl, rfl⟩

theorem quiet : Tells style c [.quiet] c .nothing := ⟨rfl, rfl, rfl, rfl⟩

theorem take (e : Input) (v : Value) : Tells style c [.take e v] c (.event e v .nothing) :=
  ⟨rfl, rfl, rfl, rfl⟩

theorem append (h : Tells style c path c' r) (h' : Tells style c' path' c'' s) :
    Tells style c (path ++ path') c'' (r ++ s) := by
  have hlength : c'.vars.length = c.vars.length + r.vars.length := by
    rw [h.vars, List.length_append, List.length_reverse]
    omega
  constructor
  · rw [Reading.events_append, Path.events_append, h.events, h'.events]
  · rw [Reading.values_append, Path.values_append, h.values, h'.values]
  · rw [h'.vars, h.vars, Reading.vars_append, List.reverse_append, List.append_assoc]
  · rw [h'.results, h.results, Reading.strings_append, hlength, List.reverse_append,
      List.append_assoc]

theorem cons_quiet (h : Tells style c path c' r) : Tells style c (.quiet :: path) c' r :=
  quiet.append h

theorem append_quiet (h : Tells style c path c' r) : Tells style c (path ++ [.quiet]) c' r := by
  have hr := h.append quiet
  rwa [Reading.append_nothing] at hr

/-- A capture that closes takes the strings of the captures inside it, if these are as many as
its template takes, and leaves its own. -/
theorem close {template : String} (h : Tells style c path c' r)
    (hwidth : r.width = Captures.taken template) :
    Tells style c path (c'.close style template (Path.values path))
      (.capture template r .nothing) := by
  have hlength : (r.strings style c.vars.length).reverse.length = Captures.taken template := by
    rw [List.length_reverse, Reading.length_strings, hwidth]
  have hnested : c'.nested template = r.strings style c.vars.length := by
    rw [Captures.nested, h.results, List.take_left' hlength, List.reverse_reverse]
  have hleft : c'.results.drop (Captures.taken template) = c.results := by
    rw [h.results, List.drop_left' hlength]
  have hvars : c'.vars.length = c.vars.length + r.vars.length := by
    rw [h.vars, List.length_append, List.length_reverse]
    omega
  have htoken : ∀ v, c'.token style v = style.token (c.vars.length + r.vars.length) v := by
    intro v
    rw [← hvars]
    rfl
  constructor
  · simp [Reading.events, h.events]
  · simp [Reading.values, h.values]
  · unfold Captures.close
    split
    · next hzero => simp [Reading.vars, hzero, h.vars, h.values]
    · next hzero => simp [Reading.vars, hzero, h.vars]
  · unfold Captures.close
    -- Without `$0` the first argument is empty, and the template does not ask for it.
    split
    · simp [Reading.strings, hnested, hleft, htoken, h.values]
    · next hzero =>
      have hzero : Template.usesZero template = false := by simpa using hzero
      simp only [Reading.strings, hnested, hleft]
      simp [Template.expand_cons_of_not_usesZero hzero _ ""]

end Reading.Tells

/-- A derivation of a fitting pattern has a reading, and its captures are those of the
reading. -/
theorem Derives.exists_tells {style : CaptureStyle} {p : Pattern} {c c' : Captures} {path : Path}
    {k : Ending} (h : Derives style [] p c path c' k) (hp : p.Fitting) :
    ∃ r, p.Matches r k ∧ r.Tells style c path c' := by
  induction h with
  | event hv => exact ⟨_, .event hv, .take _ _⟩
  | seq _ _ ihp ihq =>
    obtain ⟨r, hr, ht⟩ := ihp hp.1
    obtain ⟨s, hs, ht'⟩ := ihq hp.2
    exact ⟨r ++ s, .seq hr hs, ht.append ht'⟩
  | seqEnds _ ih =>
    obtain ⟨r, hr, ht⟩ := ih hp.1
    exact ⟨r, .seqEnds hr, ht⟩
  | altFirst _ ih =>
    obtain ⟨r, hr, ht⟩ := ih hp.1
    exact ⟨r, .altFirst hr, ht.cons_quiet.append_quiet⟩
  | altFirstEnds _ ih =>
    obtain ⟨r, hr, ht⟩ := ih hp.1
    exact ⟨r, .altFirst hr, ht.cons_quiet⟩
  | altSecond _ ih =>
    obtain ⟨r, hr, ht⟩ := ih hp.2
    exact ⟨r, .altSecond hr, ht.cons_quiet⟩
  | starNone => exact ⟨.nothing, .starNone, .quiet⟩
  | starMore _ _ ihp ihs =>
    obtain ⟨r, hr, ht⟩ := ihp hp
    obtain ⟨s, hs, ht'⟩ := ihs hp
    exact ⟨r ++ s, .starMore hr hs, ht.cons_quiet.append ht'.cons_quiet⟩
  | starEnds _ ih =>
    obtain ⟨r, hr, ht⟩ := ih hp
    exact ⟨r, .starEnds hr, ht.cons_quiet⟩
  | plusOnce _ ih =>
    obtain ⟨r, hr, ht⟩ := ih hp
    exact ⟨r, .plusOnce hr, ht.append_quiet⟩
  | plusMore _ _ ihp ihs =>
    obtain ⟨r, hr, ht⟩ := ihp hp
    obtain ⟨s, hs, ht'⟩ := ihs hp
    exact ⟨r ++ s, .plusMore hr hs, ht.append ht'.cons_quiet⟩
  | plusEnds _ ih =>
    obtain ⟨r, hr, ht⟩ := ih hp
    exact ⟨r, .plusOnce hr, ht⟩
  | optNone => exact ⟨.nothing, .optNone, .quiet⟩
  | optSome _ ih =>
    obtain ⟨r, hr, ht⟩ := ih hp
    exact ⟨r, .optSome hr, ht.cons_quiet⟩
  | capture _ ih =>
    obtain ⟨-, hfit, hwidth⟩ := hp
    obtain ⟨r, hr, ht⟩ := ih hfit
    have hclose := (ht.close (hwidth r hr)).cons_quiet.append_quiet
    exact ⟨_, .capture hr, by simpa using hclose⟩
  | captureEnds h =>
    -- Nothing in a capture completes the match.
    cases h.eq_goesOn hp.1
  | done => exact ⟨.nothing, .done, .nil⟩
  | rule hr => cases hr
  | ruleEnds hr => cases hr

namespace Session

variable {s : Session}

/-- Where the captures fit, an action is what a reading of the events says: the command is the
string of the first capture that is in no other one, and the values are those of the captures
with `$0`, as they have closed. At the first event the reading may have no events. -/
theorem an_action_evaluates_the_tree_of_captures (hs : s.Fresh) {p : Pattern}
    (hc : p.compile = .ok s.program) (hp : p.Fitting) {earlier : List Input} {e : Input}
    {action : Action} (ha : ((s.feedAll earlier).feed e).2.action = some action) :
    ∃ r k, p.Matches r k
      ∧ (r.events = earlier ++ [e] ∨ earlier = [] ∧ r.events = [])
      ∧ action.command = (r.strings s.settings.style 0).head?.getD ""
      ∧ action.vars = r.vars := by
  have hq : (s.feedAll earlier).Quiet := (hs.reachable.feedAll earlier).quiet
  obtain ⟨d, hd, rfl⟩ := exists_complete_of_action hq.running ha
  obtain ⟨path, k, hder, hevents⟩ := hs.exists_derives (.pattern hc) hd
  obtain ⟨r, hr, ht⟩ := hder.exists_tells hp
  refine ⟨r, k, hr, ?_, ?_, ?_⟩
  · rw [ht.events]
    exact hevents
  · simp [Captures.action, ht.results]
  · simp [Captures.action, ht.vars]

/-- Digits and then G, which go to a line. The capture of the digits is in that of the whole. -/
def gotoCount : Pattern :=
  .capture
    (.seq (.capture (.plus (.event (.range '0' '9'))) "$0") (.event (.range 'G' 'G'))) "goto $1"

def gotoCountProgram : Program := .ofList [
  .capStart, .capStart, .consume (.range '0' '9'), .split (-1) 1, .capEnd "$0",
  .consume (.range 'G' 'G'), .capEnd "goto $1"]

theorem compile_gotoCount : gotoCount.compile = .ok gotoCountProgram := by cbv

theorem a_count_evaluates_the_tree_of_captures :
    gotoCount.Fitting ∧ ∃ r k, gotoCount.Matches r k
      ∧ (r.events = [.typed '4', .typed '2'] ++ [.typed 'G']
        ∨ [Input.typed '4', .typed '2'] = [] ∧ r.events = [])
      ∧ "goto 42" = (r.strings .inline 0).head?.getD ""
      ∧ [.text "42"] = r.vars := by
  have hp : gotoCount.Fitting := (Pattern.fitting_of_width? (by decide +kernel : _ = some 1)).2
  have ha : (((start gotoCountProgram {}).feedAll [.typed '4', .typed '2']).feed
      (.typed 'G')).2.action = some ⟨"goto 42", [.text "42"]⟩ := by
    decide +kernel
  exact ⟨hp, an_action_evaluates_the_tree_of_captures (.new _ _) compile_gotoCount hp ha⟩

end Session

end Keymap
