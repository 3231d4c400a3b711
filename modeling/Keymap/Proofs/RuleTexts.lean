-- Definitions one after the other. Nothing marks the end of a definition but the head of the next
-- one, and yet each is read as it is by itself, if it ends with its line.
import Keymap.Proofs.Expressible

namespace Keymap.Notation

/-! ## Tokens behind a pattern -/

/-- The reader goes over the tokens and on with those behind them. -/
theorem Reader.run_append {r last : Reader} {ts : List Lexeme}
    (h : r.after (ts.map Lexeme.token) = some last) (rest : List Lexeme) :
    r.run (ts ++ rest) = last.run rest := by
  induction ts generalizing r with
  | nil =>
    cases h
    rfl
  | cons t ts ih =>
    obtain ⟨next, hturn, hrest⟩ := exists_of_after_cons h
    rw [List.cons_append, run, hturn]
    exact ih hrest

/-- The tokens begin with the head of a definition, or there are none. -/
def EndsPattern (ts : List Token) : Prop := ∀ t ∈ ts.head?, ∃ word, t = .name word true

/-- A pattern ends before the head of the next definition. -/
theorem run_of_makes {ts rest : List Lexeme} {p : Pattern} (h : Makes (ts.map Lexeme.token) p)
    (hrest : EndsPattern (rest.map Lexeme.token)) :
    Reader.start.run (ts ++ rest) = .ok (p, rest) := by
  obtain ⟨d, hafter, hd⟩ := h
  have hfinish : (Reader.inside d []).finish = .ok p := Reader.finish_eq_ok_iff.mpr ⟨d, rfl, hd⟩
  rw [Reader.run_append hafter]
  cases rest with
  | nil => rw [Reader.run, hfinish]
  | cons t rest =>
    obtain ⟨word, hword⟩ := hrest t.token rfl
    have hturn : (Reader.inside d []).turn t.token = .ok (.ends p) := by
      rw [hword, Reader.turn, Reader.insideTurn, Reader.endTurn, hfinish]
      rfl
    rw [Reader.run, hturn]

/-! ## The texts of rules -/

/-- The name of a rule and the text of its body, with what the text is read as. -/
structure RuleText where
  name : String
  text : String
  body : Pattern

namespace RuleText

/-- The rule has a name, and the text is read as its body. -/
structure Reads (r : RuleText) : Prop where
  name : IsName r.name.toList
  text : Pattern.parse r.text = .ok r.body

/-- The rule itself. -/
def rule (r : RuleText) : String × Pattern := (r.name, r.body)

/-- A definition of the rule, and the end of its line. -/
def line (r : RuleText) : String := r.name ++ " <- " ++ r.text ++ "\n"

/-- The tokens of the definition. -/
def tokens (r : RuleText) : List Token :=
  .name r.name true :: .arrow :: Notation.tokens r.text.toList

end RuleText

/-- The lines of the rules, one after the other. -/
def linesOf (rules : List RuleText) : String := String.join (rules.map RuleText.line)

variable {rules : List RuleText}

theorem endsPattern_tokens (rules : List RuleText) :
    EndsPattern (rules.flatMap RuleText.tokens) := by
  cases rules with
  | nil => exact nofun
  | cons r rules =>
    rintro t ⟨⟩
    exact ⟨r.name, rfl⟩

/-- Rules are read from their tokens. -/
theorem readDefinitions_of_tokens (h : ∀ r ∈ rules, r.Reads) {ts : List Lexeme}
    (hts : ts.map Lexeme.token = rules.flatMap RuleText.tokens) :
    readDefinitions ts = .ok (rules.map RuleText.rule) := by
  induction rules generalizing ts with
  | nil =>
    obtain rfl : ts = [] := List.map_eq_nil_iff.mp hts
    rw [readDefinitions]
    rfl
  | cons r rules ih =>
    obtain ⟨hr, hrules⟩ := List.forall_mem_cons.mp h
    rw [List.flatMap_cons, RuleText.tokens, List.cons_append, List.cons_append] at hts
    obtain ⟨head, ts', rfl, hhead, hts'⟩ := List.map_eq_cons_iff.mp hts
    obtain ⟨⟨token, first, after⟩, inner, rfl, harrow, hinner⟩ := List.map_eq_cons_iff.mp hts'
    obtain ⟨body, rest, rfl, hbody, hrest⟩ := List.map_eq_append_iff.mp hinner
    obtain rfl : token = .arrow := harrow
    have hmakes : Makes (body.map Lexeme.token) r.body := hbody ▸ parse_eq_ok_iff.mp hr.text
    have hrun := run_of_makes hmakes (hrest ▸ endsPattern_tokens rules)
    rw [readDefinitions, hhead]
    simp only
    split
    · next o ho =>
      rw [hrun] at ho
      cases ho
    · next p left hp =>
      rw [hrun] at hp
      cases hp
      rw [ih hrules hrest]
      rfl

/-! ## The tokens of the lines -/

theorem toList_linesOf_cons (r : RuleText) (rules : List RuleText) :
    (linesOf (r :: rules)).toList
      = r.name.toList ++ (" <- ".toList ++ (r.text.toList ++ '\n' :: (linesOf rules).toList)) := by
  simp [linesOf, RuleText.line]

/-- A name is a word of the text. -/
theorem IsName.exists_word {name : String} (h : IsName name.toList) :
    ∃ w : Word, w.isName = true ∧ w.text = name.toList
      ∧ ∀ heads, w.gist heads = .name name heads := by
  obtain ⟨c, rest, hname, hc, hrest⟩ := h
  have hf : isNameStart c = true := by simpa [isNameStart] using hc
  have hr : ∀ d ∈ rest, isNameChar d = true := by simpa [isNameChar] using hrest
  refine ⟨.name c rest hf hr, rfl, hname.symm, fun heads => ?_⟩
  rw [Word.gist, ← hname, String.ofList_toList]

/-- The lines of rules do not begin with an arrow. -/
theorem arrowFollows_linesOf (h : ∀ r ∈ rules, r.Reads) :
    arrowFollows (linesOf rules).toList = false := by
  cases rules with
  | nil => rfl
  | cons r rules =>
    obtain ⟨w, hw, htext, -⟩ := (h r List.mem_cons_self).name.exists_word
    rw [toList_linesOf_cons, ← htext, Word.arrowFollows_text]
    cases w with
    | name => rfl
    | _ => cases hw

theorem tokens_head {name : String} (h : IsName name.toList) (rest : List Char) :
    tokens (name.toList ++ (" <- ".toList ++ rest)) = .name name true :: .arrow :: tokens rest := by
  obtain ⟨w, -, htext, hgist⟩ := h.exists_word
  have hends : w.EndsBefore (" <- ".toList ++ rest) := by
    rintro - c ⟨⟩
    decide
  have harrow : arrowFollows (" <- ".toList ++ rest) = true := rfl
  have hblank : tokens (" <- ".toList ++ rest) = tokens (Word.arrow.text ++ ' ' :: rest) :=
    tokens_congr rfl
  have hblank' : tokens (' ' :: rest) = tokens rest := tokens_congr rfl
  rw [← htext, tokens_word hends (by rw [hgist]; rfl), hgist, harrow, hblank,
    tokens_word (w := .arrow) nofun rfl, hblank']
  rfl

theorem tokens_linesOf (h : ∀ r ∈ rules, r.Reads) :
    tokens (linesOf rules).toList = rules.flatMap RuleText.tokens := by
  induction rules with
  | nil => exact tokens_nil
  | cons r rules ih =>
    obtain ⟨hr, hrules⟩ := List.forall_mem_cons.mp h
    obtain ⟨d, hafter, -⟩ := parse_eq_ok_iff.mp hr.text
    rw [toList_linesOf_cons, tokens_head hr.name,
      tokens_append_line (Reader.isFaulty_of_after hafter) (arrowFollows_linesOf hrules), ih hrules]
    rfl

/-- A list of definitions, each on lines of its own, is read as the grammar of the rules in their
order. The first one is the root. Neither what a body ends with nor a name that comes twice makes a
difference. -/
theorem definitions_are_read_apart {first : RuleText} {others : List RuleText}
    (h : ∀ r ∈ first :: others, r.Reads) :
    Grammar.parse (linesOf (first :: others))
      = .ok ⟨first.name, (first :: others).map RuleText.rule⟩ := by
  have hread : readDefinitions (lex (linesOf (first :: others)).toList)
      = .ok ((first :: others).map RuleText.rule) :=
    readDefinitions_of_tokens h (tokens_linesOf h)
  rw [Grammar.parse, readGrammar, hread]
  rfl

/-- Three rules, two of them with the same name. The first body ends in a name, and the second one
in a remark. -/
def moveRules : List RuleText := [
  ⟨"move", "'j' / count", .alt (.event (.key (.typed 'j') {})) (.rule "count")⟩,
  ⟨"count", "move # once <-", .rule "move"⟩,
  ⟨"move", "count?", .opt (.rule "count")⟩]

theorem move_rules_are_read_apart :
    (∀ r ∈ moveRules, r.Reads)
      ∧ linesOf moveRules = "move <- 'j' / count\ncount <- move # once <-\nmove <- count?\n"
      ∧ Grammar.parse (linesOf moveRules) = .ok ⟨"move", moveRules.map RuleText.rule⟩ := by
  have hmove : IsName "move".toList := isName_of_isNameStart rfl ['o', 'v', 'e']
  have hcount : IsName "count".toList := isName_of_isNameStart rfl ['o', 'u', 'n', 't']
  have hreads : ∀ r ∈ moveRules, r.Reads := by
    simp only [moveRules, List.forall_mem_cons]
    refine ⟨⟨hmove, ?_⟩, ⟨hcount, ?_⟩, ⟨hmove, ?_⟩, List.forall_mem_nil _⟩
    all_goals exact eq_ok_of_toOption (by decide +kernel)
  exact ⟨hreads, by decide +kernel, definitions_are_read_apart hreads⟩

end Keymap.Notation
