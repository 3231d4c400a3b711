-- Texts one after the other. The tokens of a text do not depend on what comes after it, if a line
-- ends in between: the line end closes a comment, and no token goes on behind it.
import Keymap.Proofs.Gaps

namespace Keymap.Notation

/-! ## Inside a literal or a class -/

variable {α : Type}

/-- What is found in a text is also found when a line end and more text come after it. -/
def IgnoresLines (read : List Char → Except Fault (α × List Char)) : Prop :=
  ∀ {text left : List Char} {a : α}, read text = .ok (a, left) → ∀ more,
    read (text ++ '\n' :: more) = .ok (a, left ++ '\n' :: more)

theorem octalDigits_append (text more : List Char) :
    octalDigits (text ++ '\n' :: more) = octalDigits text := by
  have hline : isOctal '\n' = false := by decide
  -- Either the digits end in the text, or the line end is no digit.
  have htake : ∀ n, ((text ++ '\n' :: more).take n).takeWhile isOctal
      = (text.take n).takeWhile isOctal := by
    induction text with
    | nil =>
      intro n
      cases n <;> simp [hline]
    | cons c text ih =>
      intro n
      cases n with
      | zero => rfl
      | succ n => simp only [List.cons_append, List.take_succ_cons, List.takeWhile_cons, ih n]
  exact htake 3

theorem ignoresLines_readChar : IgnoresLines readChar := by
  intro text left c h more
  unfold readChar at h
  split at h
  · cases h
  · cases h
  · next c' rest =>
    rw [List.cons_append, List.cons_append, readChar]
    cases hc : namedEscape c' with
    | some d =>
      simp only [hc] at h
      cases h
      rfl
    | none =>
      simp only [hc] at h
      have hdigits := octalDigits_append (c' :: rest) more
      rw [List.cons_append] at hdigits
      simp only [hdigits]
      split at h
      · cases h
      · cases h
        have hle : (octalDigits (c' :: rest)).length ≤ (c' :: rest).length := by
          unfold octalDigits
          exact ((List.takeWhile_prefix _).trans (List.take_prefix _ _)).length_le
        rw [← List.cons_append, List.drop_append_of_le_length hle]
  · next c' rest hend hescape =>
    cases h
    have hc : c ≠ '\\' := by
      rintro rfl
      cases left with
      | nil => exact hend rfl rfl
      | cons d left => exact hescape d left rfl rfl
    rw [List.cons_append, readChar]
    · simp [hc]
    · simp [hc]

/-- A reader that takes one thing after the other finds its end before the text ends. -/
theorem Loops.append {β : Type} {stop : Char} {step : List Char → Except Fault (β × List Char)}
    {read : List Char → List Char → Except Fault (List β × List Char)}
    (h : Loops stop step read) (hnil : ∀ start, ∃ f, read start [] = .error f)
    (hlt : ∀ {text rest b}, step text = .ok (b, rest) → rest.length < text.length)
    (hstep : IgnoresLines step) {start text left : List Char} {bs : List β}
    (hread : read start text = .ok (bs, left)) (start' more : List Char) :
    read start' (text ++ '\n' :: more) = .ok (bs, left ++ '\n' :: more) := by
  match text with
  | [] =>
    obtain ⟨f, hf⟩ := hnil start
    rw [hf] at hread
    cases hread
  | c :: after =>
    by_cases hc : c = stop
    · subst hc
      rw [h.nil] at hread
      cases hread
      exact h.nil _ _
    · cases hs : step (c :: after) with
      | error f =>
        rw [h.error hc hs] at hread
        cases hread
      | ok x =>
        obtain ⟨b, rest⟩ := x
        rw [h.ok hc hs] at hread
        cases hrest : read start rest with
        | error f =>
          rw [hrest] at hread
          cases hread
        | ok x =>
          obtain ⟨bs', left'⟩ := x
          rw [hrest] at hread
          cases hread
          have hs' := hstep hs more
          rw [List.cons_append] at hs' ⊢
          rw [h.ok hc hs', h.append hnil hlt hstep hrest start' more]
          rfl
termination_by text.length
decreasing_by exact hlt hs

theorem ignoresLines_readQuoted (quote : Char) : IgnoresLines (readQuoted quote) := by
  intro text left content h more
  unfold readQuoted at h
  split at h
  · cases h
  · cases h
  · next body rest hne hbody =>
    cases h
    have happend := (loops_readQuotedBody quote).append (fun start => ⟨_, by rw [readQuotedBody]⟩)
      length_readChar ignoresLines_readChar hbody (quote :: (text ++ '\n' :: more)) more
    rw [readQuoted, happend]
    split <;> simp_all

theorem ignoresLines_readHigh (low : Char) : IgnoresLines (readHigh low) := by
  intro text left high h more
  unfold readHigh at h
  split at h
  · cases h
    rfl
  · next rest hclose =>
    rw [List.cons_append, readHigh]
    · exact ignoresLines_readChar h more
    · intro tail heq
      cases rest with
      | nil => cases h
      | cons c rest =>
        rw [List.cons_append] at heq
        cases heq
        exact hclose rest rfl
  · next hclose hdash =>
    cases h
    cases text with
    | nil => rfl
    | cons c rest =>
      rw [List.cons_append, readHigh]
      · intro tail heq
        obtain ⟨rfl, -⟩ := List.cons.inj heq
        exact hdash _ rfl
      · intro rest' heq
        obtain ⟨rfl, -⟩ := List.cons.inj heq
        exact hdash _ rfl

theorem ignoresLines_readRange : IgnoresLines readRange := by
  intro text left r h more
  unfold readRange at h
  split at h
  · cases h
  · next low rest hlow =>
    split at h
    · cases h
    · next high rest' hhigh =>
      split at h
      · cases h
      · next hle =>
        cases h
        rw [readRange, ignoresLines_readChar hlow more]
        simp only
        rw [ignoresLines_readHigh low hhigh more]
        simp only [if_neg hle]

theorem ignoresLines_readClass : IgnoresLines readClass := by
  intro text left set h more
  have hranges : ∀ {start body rest ranges}, readRanges start body = .ok (ranges, rest) →
      ∀ start', readRanges start' (body ++ '\n' :: more) = .ok (ranges, rest ++ '\n' :: more) :=
    fun h start' => loops_readRanges.append (fun start => ⟨_, by rw [readRanges]⟩)
      length_readRange ignoresLines_readRange h start' more
  have hbody : classBody (text ++ '\n' :: more)
      = ((classBody text).1, (classBody text).2 ++ '\n' :: more) := by
    cases text with
    | nil => rfl
    | cons c text =>
      by_cases hc : c = '^'
      · subst hc
        rfl
      · simp [classBody, hc]
  unfold readClass at h ⊢
  rw [hbody]
  simp only at h ⊢
  split at h
  · cases h
  · cases h
  · next hread =>
    cases h
    rw [hranges hread]
    split <;> simp_all

/-! ## How a token begins -/

/-- A token that its first characters say all about. -/
def Token.isSign : Token → Bool
  | .name .. => false
  | .quoted _ => false
  | .oneOf _ => false
  | _ => true

/-- What the lexer goes on with from the first character of a token. -/
inductive Begins (c : Char) : Prop
  | sign (t : Token) (ht : t.isSign = true) (h : ∀ rest, readToken c rest = (t, rest))
  | angle (hc : c = '<')
  | name (hc : isNameStart c = true)
  | quoted (h : ∀ rest, readToken c rest = tokenOf .quoted (readQuoted c rest))
  | oneOf (h : ∀ rest, readToken c rest = tokenOf .oneOf (readClass rest))

theorem begins (c : Char) : Begins c := by
  by_cases hname : isNameStart c = true
  · exact .name hname
  by_cases hsign : c ∈ signs
  · simp only [signs, List.mem_cons, List.not_mem_nil, or_false] at hsign
    rcases hsign with rfl | rfl | rfl | rfl | rfl | rfl | rfl | rfl | rfl | hsign
    case inr.inr.inr.inr.inr.inr.inr.inr.inr =>
      rcases hsign with rfl | rfl | rfl | rfl
      · exact .angle rfl
      · exact .quoted fun _ => rfl
      · exact .quoted fun _ => rfl
      · exact .oneOf fun _ => rfl
    all_goals exact .sign _ rfl fun _ => rfl
  · refine .sign (.other c) rfl fun rest => ?_
    unfold readToken
    split
    case h_13 =>
      rw [if_neg hname]
      split
      · exact absurd (by simp [signs]) hsign
      · rfl
    all_goals exact absurd (by simp [signs]) hsign

/-! ## The tokens of a text -/

theorem arrowFollows_append (text : List Char) {more : List Char}
    (hmore : arrowFollows more = false) :
    arrowFollows (text ++ '\n' :: more) = arrowFollows text := by
  have hline : Text.isBlank '\n' = true := by decide
  unfold arrowFollows at hmore ⊢
  rw [List.dropWhile_append]
  cases htext : text.dropWhile Text.isBlank with
  | nil => simpa [hline] using hmore
  | cons c rest => cases rest <;> simp [List.isPrefixOf]

theorem nameChars_append (text more : List Char) :
    (text ++ '\n' :: more).takeWhile isNameChar = text.takeWhile isNameChar
      ∧ (text ++ '\n' :: more).dropWhile isNameChar
        = text.dropWhile isNameChar ++ '\n' :: more := by
  have hline : isNameChar '\n' = false := by decide
  have hend : ∀ c ∈ (text.dropWhile isNameChar ++ '\n' :: more).head?, isNameChar c = false := by
    intro c hc
    have hdrop := List.head?_dropWhile_not isNameChar text
    cases hrest : text.dropWhile isNameChar with
    | nil =>
      rw [hrest] at hc
      cases hc
      exact hline
    | cons d rest =>
      rw [hrest] at hc hdrop
      cases hc
      exact hdrop
  have hall : ∀ c ∈ text.takeWhile isNameChar, isNameChar c = true :=
    List.all_eq_true.mp List.all_takeWhile
  have hsplit := takeWhile_name hall hend
  rwa [← List.append_assoc, List.takeWhile_append_dropWhile] at hsplit

theorem readToken_angle {d : Char} (hd : d ≠ '-') (rest : List Char) :
    readToken '<' (d :: rest) = (.other '<', d :: rest) := by
  simp [readToken, isNameStart, hd]

/-- A token that is well formed does not go on behind a line end. -/
theorem readToken_append {c : Char} {text : List Char}
    (h : (readToken c text).1.isFaulty = false) {more : List Char}
    (hmore : arrowFollows more = false) :
    readToken c (text ++ '\n' :: more)
      = ((readToken c text).1, (readToken c text).2 ++ '\n' :: more) := by
  cases begins c with
  | sign t _ hread => simp only [hread]
  | angle hc =>
    subst hc
    cases text with
    | nil => rfl
    | cons d text =>
      by_cases hd : d = '-'
      · subst hd
        rfl
      · rw [List.cons_append, readToken_angle hd, readToken_angle hd]
        rfl
  | name hc =>
    obtain ⟨htake, hdrop⟩ := nameChars_append text more
    simp only [readToken_of_isNameStart hc, htake, hdrop, arrowFollows_append _ hmore]
  | quoted hread =>
    rw [hread] at h ⊢
    rw [hread]
    cases hquoted : readQuoted c text with
    | error f =>
      rw [hquoted] at h
      cases h
    | ok found =>
      rw [ignoresLines_readQuoted c hquoted more]
      rfl
  | oneOf hread =>
    rw [hread] at h ⊢
    rw [hread]
    cases hclass : readClass text with
    | error f =>
      rw [hclass] at h
      cases h
    | ok found =>
      rw [ignoresLines_readClass hclass more]
      rfl

/-- A line end closes a comment. -/
theorem skipBlanks_append_of_nil {inComment : Bool} {text : List Char}
    (h : skipBlanks inComment text = []) (more : List Char) :
    skipBlanks inComment (text ++ '\n' :: more) = skipBlanks false more := by
  have hline : Text.isBlank '\n' = true := by decide
  fun_induction skipBlanks inComment text with
  | case1 inComment => cases inComment <;> simp [skipBlanks, hline]
  | case2 c rest ih => simpa [skipBlanks] using ih h
  | case3 inComment c rest hcomment hblank ih => simpa [skipBlanks, hcomment, hblank] using ih h
  | case4 inComment rest hcomment hblank ih => simpa [skipBlanks, hcomment, hblank] using ih h
  | case5 => cases h

theorem skipBlanks_append_of_cons {inComment : Bool} {text rest : List Char} {c : Char}
    (h : skipBlanks inComment text = c :: rest) (more : List Char) :
    skipBlanks inComment (text ++ more) = c :: (rest ++ more) := by
  fun_induction skipBlanks inComment text with
  | case1 => cases h
  | case2 d rest' ih => simpa [skipBlanks] using ih h
  | case3 inComment d rest' hcomment hblank ih => simpa [skipBlanks, hcomment, hblank] using ih h
  | case4 inComment rest' hcomment hblank ih => simpa [skipBlanks, hcomment, hblank] using ih h
  | case5 inComment d rest' hcomment hblank hhash =>
    cases h
    simp [skipBlanks, hcomment, hblank, hhash]

/-- The tokens of a text, without their places. -/
def tokens (text : List Char) : List Token := (lex text).map Lexeme.token

theorem tokens_of_skipBlanks_nil {text : List Char} (h : skipBlanks false text = []) :
    tokens text = [] := by
  rw [tokens, lex_of_skipBlanks_nil h]
  rfl

theorem tokens_of_skipBlanks_cons {text rest : List Char} {c : Char}
    (h : skipBlanks false text = c :: rest) :
    tokens text = (readToken c rest).1 :: tokens (readToken c rest).2 := by
  rw [tokens, lex_of_skipBlanks_cons h]
  rfl

@[simp] theorem tokens_nil : tokens [] = [] := tokens_of_skipBlanks_nil rfl

theorem Token.gist_of_not_faulty {t : Token} (h : t.isFaulty = false) : t.gist = t := by
  unfold gist
  split
  · cases h
  · cases h
  · rfl

/-- A word that is well formed is one token. -/
theorem tokens_word {w : Word} {after : List Char} (ha : w.EndsBefore after)
    (hw : (w.gist (arrowFollows after)).isFaulty = false) :
    tokens (w.text ++ after) = w.gist (arrowFollows after) :: tokens after := by
  obtain ⟨t, ht, hgist⟩ := exists_readToken w ha
  have hfaulty : t.isFaulty = false := by rw [← Token.isFaulty_gist, hgist, hw]
  rw [tokens_of_skipBlanks_cons (w.skipBlanks_text after), ht, ← hgist,
    Token.gist_of_not_faulty hfaulty, hfaulty]
  rfl

theorem tokens_congr {text text' : List Char}
    (h : skipBlanks false text = skipBlanks false text') : tokens text = tokens text' := by
  rw [tokens, lex_congr h, tokens]

/-- The tokens of two texts with a line end between them are those of the one and then those of
the other. The second text must not begin with an arrow, which would make the head of a definition
of a name at the end of the first. -/
theorem tokens_append_line {text : List Char} (h : ∀ t ∈ tokens text, t.isFaulty = false)
    {more : List Char} (hmore : arrowFollows more = false) :
    tokens (text ++ '\n' :: more) = tokens text ++ tokens more := by
  fun_induction lex text with
  | case1 text hskip =>
    rw [tokens_of_skipBlanks_nil hskip, List.nil_append]
    exact tokens_congr (skipBlanks_append_of_nil hskip more)
  | case2 text c rest hskip hs hle ih =>
    rw [tokens_of_skipBlanks_cons hskip] at h ⊢
    obtain ⟨ht, hrest⟩ := List.forall_mem_cons.mp h
    have happend := skipBlanks_append_of_cons hskip ('\n' :: more)
    rw [tokens_of_skipBlanks_cons happend, readToken_append ht hmore, ih hrest, List.cons_append]

end Keymap.Notation
