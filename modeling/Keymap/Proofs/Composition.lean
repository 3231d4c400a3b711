-- Texts that are put together as their patterns are. A text in brackets may stand for its pattern
-- in a longer text, whatever blanks and comments are in it.
import Keymap.Proofs.Brackets

namespace Keymap.Notation

/-! ## Putting texts together -/

/-- A text in round brackets. The line end closes a comment at its end. -/
def grouped (text : String) : String := "(" ++ text ++ "\n)"

/-- A text in braces. -/
def braced (text : String) : String := "\x7b" ++ text ++ "\n\x7d"

/-- A character as it is written in quotes. -/
def Quote.escape (q : Quote) (c : Char) : List Char :=
  if c = q.char ∨ c = '\\' then ['\\', c] else [c]

/-- A text in quotes. -/
def Quote.write (q : Quote) (content : String) : String :=
  String.ofList (q.char :: (content.toList.flatMap q.escape ++ [q.char]))

/-! ## Literals -/

/-- What is written one after the other is read one after the other. -/
theorem Loops.written {β : Type} {stop : Char} {step : List Char → Except Fault (β × List Char)}
    {read : List Char → List Char → Except Fault (List β × List Char)}
    (h : Loops stop step read) {write : β → List Char}
    (hfirst : ∀ b, ∃ c after, write b = c :: after ∧ c ≠ stop) {bs : List β}
    (hstep : ∀ b ∈ bs, ∀ rest, step (write b ++ rest) = .ok (b, rest)) (start rest : List Char) :
    read start (bs.flatMap write ++ stop :: rest) = .ok (bs, rest) := by
  induction bs with
  | nil => exact h.nil start rest
  | cons b bs ih =>
    obtain ⟨hb, hbs⟩ := List.forall_mem_cons.mp hstep
    obtain ⟨c, after, hcons, hc⟩ := hfirst b
    have hread := hb (bs.flatMap write ++ stop :: rest)
    rw [List.flatMap_cons, List.append_assoc]
    rw [hcons, List.cons_append] at hread ⊢
    rw [h.ok hc hread, ih hbs]
    rfl

theorem Quote.escape_eq_cons (q : Quote) (c : Char) :
    ∃ d rest, q.escape c = d :: rest ∧ d ≠ q.char := by
  unfold escape
  by_cases hc : c = q.char ∨ c = '\\'
  · rw [if_pos hc]
    exact ⟨'\\', [c], rfl, by cases q <;> decide⟩
  · rw [if_neg hc]
    exact ⟨c, [], rfl, fun h => hc (.inl h)⟩

theorem Quote.readChar_escape (q : Quote) (c : Char) (rest : List Char) :
    readChar (q.escape c ++ rest) = .ok (c, rest) := by
  unfold escape
  by_cases hc : c = q.char ∨ c = '\\'
  · rw [if_pos hc]
    have hnamed : namedEscape c = some c := by
      rcases hc with rfl | rfl
      · cases q <;> rfl
      · rfl
    simp [readChar, hnamed]
  · rw [if_neg hc]
    obtain ⟨-, hslash⟩ := not_or.mp hc
    rw [List.singleton_append, readChar]
    · exact fun h => absurd h hslash
    · exact fun _ _ h => absurd h hslash

theorem Quote.readQuotedBody_write (q : Quote) (content start rest : List Char) :
    readQuotedBody q.char start (content.flatMap q.escape ++ q.char :: rest)
      = .ok (content, rest) :=
  (loops_readQuotedBody q.char).written q.escape_eq_cons (fun c _ => q.readChar_escape c) start rest

/-- A text in quotes is one token. -/
theorem Quote.tokens_write (q : Quote) {content : String} (h : content ≠ "") :
    tokens (q.write content).toList = [.quoted (.ok content)] := by
  have hread : readQuoted q.char (content.toList.flatMap q.escape ++ [q.char])
      = .ok (content, []) := by
    rw [readQuoted, q.readQuotedBody_write]
    cases hcontent : content.toList with
    | nil => exact absurd (String.toList_eq_nil_iff.mp hcontent) h
    | cons c rest => simp [← hcontent]
  have htoken : ∀ rest, readToken q.char rest = tokenOf .quoted (readQuoted q.char rest) := by
    intro rest
    cases q <;> rfl
  have hskip : skipBlanks false (q.write content).toList
      = q.char :: (content.toList.flatMap q.escape ++ [q.char]) := by
    rw [write, String.toList_ofList]
    cases q <;> rfl
  rw [tokens_of_skipBlanks_cons hskip, htoken, hread, tokenOf, tokens_nil]

/-! ## Brackets -/

/-- The tokens of a text in brackets are those of the text, between the brackets. -/
theorem tokens_between {text : List Char} {p : Pattern} (h : Makes (tokens text) p) (b : Bracket)
    (more : List Char) :
    tokens (b.opening :: text ++ '\n' :: b.closing :: more)
      = .opens b :: tokens text ++ .closes b :: tokens more := by
  obtain ⟨d, hafter, -⟩ := h
  have hopen : ∀ rest, tokens (b.opening :: rest) = .opens b :: tokens rest :=
    fun rest => tokens_word (w := .opens b) nofun rfl
  have hclose : tokens (b.closing :: more) = .closes b :: tokens more :=
    tokens_word (w := .closes b) nofun rfl
  have harrow : arrowFollows (b.closing :: more) = false := by
    cases b <;> rfl
  rw [List.cons_append, hopen, tokens_append_line (Reader.isFaulty_of_after hafter) harrow, hclose]
  rfl

theorem after_grouped {text : String} {p : Pattern} (h : Pattern.parse text = .ok p)
    (draft : Draft) (frames : List Frame) (more : List Char) :
    (Reader.inside draft frames).after (tokens ((grouped text).toList ++ more))
      = (Reader.inside (draft.add p) frames).after (tokens more) := by
  have hmakes := parse_eq_ok_iff.mp h
  have htext : (grouped text).toList ++ more
      = Bracket.group.opening :: text.toList ++ '\n' :: Bracket.group.closing :: more := by
    simp [grouped, Bracket.opening, Bracket.closing]
  rw [htext, tokens_between hmakes, Reader.after_group hmakes]

/-! ## Patterns -/

variable {text text' : String} {p p' : Pattern}

theorem parse_grouped (h : Pattern.parse text = .ok p) : Pattern.parse (grouped text) = .ok p := by
  rw [parse_eq_ok_iff]
  refine ⟨Draft.add {} p, ?_, rfl⟩
  rw [← List.append_nil (grouped text).toList, Reader.start, after_grouped h, tokens_nil]
  rfl

theorem parse_seq (h : Pattern.parse text = .ok p) (h' : Pattern.parse text' = .ok p') :
    Pattern.parse (grouped text ++ grouped text') = .ok (.seq p p') := by
  rw [parse_eq_ok_iff, String.toList_append]
  refine ⟨(Draft.add {} p).add p', ?_, rfl⟩
  rw [Reader.start, after_grouped h, ← List.append_nil (grouped text').toList, after_grouped h',
    tokens_nil]
  rfl

theorem parse_alt (h : Pattern.parse text = .ok p) (h' : Pattern.parse text' = .ok p') :
    Pattern.parse (grouped text ++ "/" ++ grouped text') = .ok (.alt p p') := by
  have hslash : ∀ rest, tokens ('/' :: rest) = .slash :: tokens rest :=
    fun rest => tokens_word (w := .slash) nofun rfl
  rw [parse_eq_ok_iff, String.append_assoc, String.toList_append, String.toList_append]
  refine ⟨Draft.add ⟨[p], []⟩ p', ?_, rfl⟩
  rw [Reader.start, after_grouped h]
  change (Reader.inside (Draft.add {} p) []).after (tokens ('/' :: (grouped text').toList)) = _
  rw [hslash, Reader.after_cons rfl, ← List.append_nil (grouped text').toList, after_grouped h',
    tokens_nil]
  rfl

/-- The pattern with the mark behind it. -/
def Mark.apply : Mark → Pattern → Pattern
  | .star => .star
  | .plus => .plus
  | .opt => .opt

theorem parse_marked (h : Pattern.parse text = .ok p) (m : Mark) :
    Pattern.parse (grouped text ++ String.ofList [m.char]) = .ok (m.apply p) := by
  have hmark : ∀ rest, tokens (m.char :: rest) = .mark m :: tokens rest :=
    fun rest => tokens_word (w := .mark m) nofun rfl
  rw [parse_eq_ok_iff, String.toList_append, String.toList_ofList]
  refine ⟨Draft.add {} (m.apply p), ?_, rfl⟩
  rw [Reader.start, after_grouped h, hmark, tokens_nil]
  cases m <;> rfl

theorem parse_capture (h : Pattern.parse text = .ok p) (q : Quote) {template : String}
    (ht : template ≠ "") :
    Pattern.parse (braced text ++ q.write template) = .ok (.capture p template) := by
  have hmakes := parse_eq_ok_iff.mp h
  have htext : (braced text ++ q.write template).toList
      = Bracket.capture.opening :: text.toList
        ++ '\n' :: Bracket.capture.closing :: (q.write template).toList := by
    simp [braced, Bracket.opening, Bracket.closing]
  rw [parse_eq_ok_iff, htext, tokens_between hmakes, q.tokens_write ht]
  refine ⟨Draft.add {} (.capture p template), ?_, rfl⟩
  rw [Reader.start, Reader.after_capture hmakes]
  rfl

/-- Texts that are put together with brackets, a slash, a mark or a template are read as the
patterns that are put together in the same way, whatever blanks and comments are in them. -/
theorem texts_are_put_together_like_patterns (h : Pattern.parse text = .ok p)
    (h' : Pattern.parse text' = .ok p') (q : Quote) {template : String} (ht : template ≠ "") :
    Pattern.parse (grouped text) = .ok p
      ∧ Pattern.parse (grouped text ++ grouped text') = .ok (.seq p p')
      ∧ Pattern.parse (grouped text ++ "/" ++ grouped text') = .ok (.alt p p')
      ∧ Pattern.parse (grouped text ++ "*") = .ok (.star p)
      ∧ Pattern.parse (grouped text ++ "+") = .ok (.plus p)
      ∧ Pattern.parse (grouped text ++ "?") = .ok (.opt p)
      ∧ Pattern.parse (braced text ++ q.write template) = .ok (.capture p template) :=
  ⟨parse_grouped h, parse_seq h h', parse_alt h h', parse_marked h .star, parse_marked h .plus,
    parse_marked h .opt, parse_capture h q ht⟩

theorem a_command_is_put_together_from_two_texts :
    let cut := "'d' # cut"
    let count := "[0-9]+ / all"
    let key := Pattern.event (.key (.typed 'd') {})
    let amount := Pattern.alt (.plus (.event (.oneOf (.range '0' '9')))) (.rule "all")
    Pattern.parse cut = .ok key ∧ Pattern.parse count = .ok amount
      ∧ Pattern.parse (grouped cut ++ grouped count) = .ok (.seq key amount)
      ∧ Pattern.parse (braced cut ++ Quote.single.write "don't") = .ok (.capture key "don't") := by
  intro cut count key amount
  have hcut : Pattern.parse cut = .ok key := eq_ok_of_toOption (by decide +kernel)
  have hcount : Pattern.parse count = .ok amount := eq_ok_of_toOption (by decide +kernel)
  have hne : "don't" ≠ "" := by decide
  obtain ⟨-, hseq, -, -, -, -, hcapture⟩ :=
    texts_are_put_together_like_patterns hcut hcount .single hne
  exact ⟨hcut, hcount, hseq, hcapture⟩

end Keymap.Notation
