-- The words of a grammar text: names, signs, literals and classes. What the lexer makes of a word
-- does not depend on what follows the word, except that it looks for an arrow behind a name.
import Keymap.Notation.Token

namespace Keymap.Notation

/-! ## Inside quotes and square brackets -/

/-- A piece of a literal or of a class that ends with `stop`. -/
inductive Piece (stop : Char) where
  | plain (c : Char) (h : c ≠ '\\' ∧ c ≠ stop)
  /-- A backslash and the character after it. -/
  | escaped (c : Char)
deriving DecidableEq

variable {stop : Char} {α : Type}

/-- The text of the pieces, the character that ends them, and then `after`. -/
def closed : List (Piece stop) → List Char → List Char
  | [], after => stop :: after
  | .plain c _ :: body, after => c :: closed body after
  | .escaped c :: body, after => '\\' :: c :: closed body after

@[simp] theorem closed_append (body : List (Piece stop)) (after more : List Char) :
    closed body after ++ more = closed body (after ++ more) := by
  fun_induction closed body after <;> simp_all [closed]

/-- What is read from the pieces does not depend on what comes after them. -/
inductive Steady (read : List Char → Except Fault (α × List Char)) (n : Nat)
    (body : List (Piece stop)) : Prop
  | refused (h : ∀ after, ∃ f, read (closed body after) = .error f)
  /-- Fewer than `n` pieces are left. -/
  | found (a : α) (left : List (Piece stop)) (hn : left.length < n)
    (h : ∀ after, read (closed body after) = .ok (a, closed left after))

/-- At most `n` digits in front are the same, whatever comes after the pieces. -/
theorem exists_octal (hs : isOctal stop = false) (n : Nat) (body : List (Piece stop)) :
    ∃ digits, ∃ left : List (Piece stop), left.length ≤ body.length ∧ ∀ after,
      ((closed body after).take n).takeWhile isOctal = digits
        ∧ (closed body after).drop digits.length = closed left after := by
  induction n generalizing body with
  | zero => exact ⟨[], body, Nat.le_refl _, fun after => ⟨rfl, rfl⟩⟩
  | succ n ih =>
    -- Neither a backslash nor the stop is a digit, so the digits end before them.
    have hnone : ∀ (c : Char) (rest : List Char), isOctal c = false →
        ((c :: rest).take (n + 1)).takeWhile isOctal = [] := by
      intro c rest hc
      rw [List.take_succ_cons, List.takeWhile_cons_of_neg (by simp [hc])]
    cases body with
    | nil => exact ⟨[], [], Nat.le_refl _, fun after => ⟨hnone _ _ hs, rfl⟩⟩
    | cons p body =>
      cases p with
      | escaped c => exact ⟨[], _, Nat.le_refl _, fun after => ⟨hnone _ _ rfl, rfl⟩⟩
      | plain c h =>
        cases hc : isOctal c with
        | false => exact ⟨[], _, Nat.le_refl _, fun after => ⟨hnone _ _ hc, rfl⟩⟩
        | true =>
          obtain ⟨digits, left, hle, hread⟩ := ih body
          refine ⟨c :: digits, left, Nat.le_succ_of_le hle, fun after => ⟨?_, (hread after).2⟩⟩
          rw [closed, List.take_succ_cons, List.takeWhile_cons_of_pos hc, (hread after).1]

/-- A character is read from the first piece, and from digits after it if the piece begins an
octal code. -/
theorem steady_readChar (hs : isOctal stop = false) (p : Piece stop) (body : List (Piece stop)) :
    Steady readChar (body.length + 1) (p :: body) := by
  cases p with
  | plain c h =>
    refine .found c body (Nat.lt_succ_self _) ?_
    intro after
    rw [closed, readChar]
    · exact fun hc => absurd hc h.1
    · exact fun _ _ hc => absurd hc h.1
  | escaped c =>
    cases hc : namedEscape c with
    | some d =>
      refine .found d body (Nat.lt_succ_self _) ?_
      intro after
      simp only [closed, readChar, hc]
    | none =>
      cases ho : isOctal c with
      | false =>
        refine .refused ?_
        intro after
        simp [closed, readChar, hc, octalDigits, ho]
      | true =>
        obtain ⟨digits, left, hle, hread⟩ := exists_octal hs 2 body
        refine .found (octalChar (c :: digits)) left (Nat.lt_succ_of_le hle) ?_
        intro after
        obtain ⟨htake, hdrop⟩ := hread after
        simp [closed, readChar, hc, octalDigits, ho, htake, hdrop]

/-- The text of the pieces begins with none of the characters that would end them. -/
theorem closed_cons_eq (hb : stop ≠ '\\') (p : Piece stop) (body : List (Piece stop))
    (after : List Char) : ∃ c rest, closed (p :: body) after = c :: rest ∧ c ≠ stop := by
  cases p with
  | plain c h => exact ⟨c, _, rfl, h.2⟩
  | escaped c => exact ⟨'\\', _, rfl, hb.symm⟩

/-- What is read up to the end of the pieces, and whether it is refused, does not depend on what
comes after them. The first argument of `read` only says where it has begun. -/
inductive Closes (read : List Char → List Char → Except Fault (α × List Char))
    (body : List (Piece stop)) : Prop
  | refused (h : ∀ start after, ∃ f, read start (closed body after) = .error f)
  | found (a : α) (h : ∀ start after, read start (closed body after) = .ok (a, after))

/-- A reader that takes one thing after the other up to the end, each by `step`. -/
structure Loops {β : Type} (stop : Char) (step : List Char → Except Fault (β × List Char))
    (read : List Char → List Char → Except Fault (List β × List Char)) : Prop where
  nil : ∀ start after, read start (stop :: after) = .ok ([], after)
  error : ∀ {start c after f}, c ≠ stop → step (c :: after) = .error f →
    read start (c :: after) = .error f
  ok : ∀ {start c after b rest}, c ≠ stop → step (c :: after) = .ok (b, rest) →
    read start (c :: after) = (read start rest).map fun (bs, left) => (b :: bs, left)

theorem Loops.closes {β : Type} {step : List Char → Except Fault (β × List Char)}
    {read : List Char → List Char → Except Fault (List β × List Char)}
    (h : Loops stop step read) (hb : stop ≠ '\\')
    (hstep : ∀ (p : Piece stop) body, Steady step (body.length + 1) (p :: body))
    (body : List (Piece stop)) : Closes read body := by
  -- A step takes one piece at least, but it may take the digits of an octal code with it. So the
  -- recursion is on the number of pieces.
  match body with
  | [] => exact .found [] h.nil
  | p :: body =>
    cases hstep p body with
    | refused hrefused =>
      refine .refused fun start after => ?_
      obtain ⟨f, hf⟩ := hrefused after
      obtain ⟨c, rest, hclosed, hc⟩ := closed_cons_eq hb p body after
      rw [hclosed] at hf ⊢
      exact ⟨f, h.error hc hf⟩
    | found b left hn hfound =>
      have hmore : ∀ start after, read start (closed (p :: body) after)
          = (read start (closed left after)).map fun (bs, rest) => (b :: bs, rest) := by
        intro start after
        have hd := hfound after
        obtain ⟨c, rest, hclosed, hc⟩ := closed_cons_eq hb p body after
        rw [hclosed] at hd ⊢
        exact h.ok hc hd
      cases h.closes hb hstep left with
      | refused hrefused =>
        refine .refused fun start after => ?_
        obtain ⟨f, hf⟩ := hrefused start after
        exact ⟨f, by rw [hmore, hf]; rfl⟩
      | found bs hrest => exact .found (b :: bs) fun start after => by rw [hmore, hrest]; rfl
termination_by body.length

/-! ## Literals -/

theorem loops_readQuotedBody (quote : Char) : Loops quote readChar (readQuotedBody quote) where
  nil start after := by simp [readQuotedBody]
  error hc h := by
    rw [readQuotedBody, if_neg hc]
    split <;> simp_all
  ok hc h := by
    rw [readQuotedBody, if_neg hc]
    split <;> simp_all

theorem closes_readQuoted (hs : isOctal stop = false) (hb : stop ≠ '\\')
    (body : List (Piece stop)) : Closes (fun _ => readQuoted stop) body := by
  cases (loops_readQuotedBody stop).closes hb (steady_readChar hs) body with
  | refused h =>
    refine .refused fun start after => ?_
    obtain ⟨f, hf⟩ := h (stop :: closed body after) after
    exact ⟨f, by rw [readQuoted, hf]⟩
  | found ds h =>
    cases ds with
    | nil => exact .refused fun start after => ⟨_, by rw [readQuoted, h]⟩
    | cons d ds =>
      exact .found (String.ofList (d :: ds)) fun start after => by rw [readQuoted, h]

/-! ## Classes -/

theorem steady_readHigh (low : Char) (body : List (Piece ']')) :
    Steady (readHigh low) (body.length + 1) body := by
  match body with
  | [] => exact .found low [] (Nat.lt_succ_self _) fun after => rfl
  | .escaped c :: body => exact .found low _ (Nat.lt_succ_self _) fun after => rfl
  | .plain c h :: body =>
    by_cases hc : c = '-'
    · subst hc
      match body with
      | [] => exact .found low _ (Nat.lt_succ_self _) fun after => rfl
      | p :: body =>
        have hhigh : ∀ after, readHigh low (closed (.plain '-' h :: p :: body) after)
            = readChar (closed (p :: body) after) := by
          intro after
          obtain ⟨c, rest, hclosed, hc⟩ := closed_cons_eq (by decide) p body after
          rw [closed, hclosed, readHigh]
          simpa using hc
        cases steady_readChar rfl p body with
        | refused h' => exact .refused fun after => (hhigh after).symm ▸ h' after
        | found d left hn h' =>
          refine .found d left ?_ fun after => (hhigh after).trans (h' after)
          simp only [List.length_cons]
          omega
    · refine .found low _ (Nat.lt_succ_self _) fun after => ?_
      rw [closed, readHigh]
      · simp_all
      · simp_all

theorem steady_readRange (p : Piece ']') (body : List (Piece ']')) :
    Steady readRange (body.length + 1) (p :: body) := by
  cases steady_readChar rfl p body with
  | refused h =>
    refine .refused fun after => ?_
    obtain ⟨f, hf⟩ := h after
    exact ⟨f, by rw [readRange, hf]⟩
  | found low rest hn h =>
    cases steady_readHigh low rest with
    | refused h' =>
      refine .refused fun after => ?_
      obtain ⟨f, hf⟩ := h' after
      exact ⟨f, by simp only [readRange, h, hf]⟩
    | found high left hn' h' =>
      by_cases hlt : high < low
      · refine .refused fun after => ⟨⟨.invalidRange low high, closed left after⟩, ?_⟩
        simp only [readRange, h, h', if_pos hlt]
      · refine .found (low, high) left (Nat.lt_of_lt_of_le hn' hn) fun after => ?_
        simp only [readRange, h, h', if_neg hlt]

theorem loops_readRanges : Loops ']' readRange readRanges where
  nil start after := by simp [readRanges]
  error hc h := by
    rw [readRanges]
    · split <;> simp_all
    · exact hc
  ok hc h := by
    rw [readRanges]
    · split <;> simp_all
    · exact hc

/-- The caret in front of a class is its first piece. -/
theorem exists_classBody (body : List (Piece ']')) :
    ∃ negated, ∃ rest : List (Piece ']'),
      ∀ after, classBody (closed body after) = (negated, closed rest after) := by
  match body with
  | [] => exact ⟨false, [], fun after => rfl⟩
  | .escaped c :: body => exact ⟨false, .escaped c :: body, fun after => rfl⟩
  | .plain c h :: body =>
    by_cases hc : c = '^'
    · subst hc
      exact ⟨true, body, fun after => rfl⟩
    · refine ⟨false, .plain c h :: body, fun after => ?_⟩
      rw [closed, classBody]
      simp_all

theorem closes_readClass (body : List (Piece ']')) : Closes (fun _ => readClass) body := by
  obtain ⟨negated, rest, hbody⟩ := exists_classBody body
  cases loops_readRanges.closes (by decide) steady_readRange rest with
  | refused h =>
    refine .refused fun start after => ?_
    obtain ⟨f, hf⟩ := h ('[' :: closed body after) after
    exact ⟨f, by simp only [readClass, hbody, hf]⟩
  | found rs h =>
    cases rs with
    | nil => exact .refused fun start after => ⟨_, by simp only [readClass, hbody, h]; rfl⟩
    | cons r rs =>
      exact .found ⟨r :: rs, negated⟩ fun start after => by simp only [readClass, hbody, h]

/-! ## Words -/

/-- The character that opens a bracket. -/
def Bracket.opening : Bracket → Char
  | .group => '('
  | .capture => '\x7b'

/-- The character of a mark. -/
def Mark.char : Mark → Char
  | .star => '*'
  | .plus => '+'
  | .opt => '?'

/-- The character around a literal. -/
inductive Quote where
  | single
  | double
deriving DecidableEq

/-- The character itself. -/
def Quote.char : Quote → Char
  | .single => '\''
  | .double => '"'

/-- A word of a grammar text. What is in a literal or a class need not be well formed. -/
inductive Word where
  | opens (b : Bracket)
  | closes (b : Bracket)
  | mark (m : Mark)
  | slash
  | dot
  | arrow
  | name (first : Char) (rest : List Char) (hf : isNameStart first = true)
    (hr : ∀ c ∈ rest, isNameChar c = true)
  | quoted (quote : Quote) (body : List (Piece quote.char))
  | oneOf (body : List (Piece ']'))
deriving DecidableEq

namespace Word

/-- The first character of a word. -/
def first : Word → Char
  | .opens b => b.opening
  | .closes b => b.closing
  | .mark m => m.char
  | .slash => '/'
  | .dot => '.'
  | .arrow => '<'
  | .name c _ _ _ => c
  | .quoted q _ => q.char
  | .oneOf _ => '['

/-- The other characters of a word. -/
def others : Word → List Char
  | .opens _ => []
  | .closes _ => []
  | .mark _ => []
  | .slash => []
  | .dot => []
  | .arrow => ['-']
  | .name _ rest _ _ => rest
  | .quoted _ body => closed body []
  | .oneOf body => closed body []

/-- The text of a word. -/
def text (w : Word) : List Char := w.first :: w.others

def isName : Word → Bool
  | .name .. => true
  | _ => false

def isArrow : Word → Bool
  | .arrow => true
  | _ => false

theorem eq_arrow_of_isArrow {w : Word} (h : w.isArrow = true) : w = .arrow := by
  cases w with
  | arrow => rfl
  | _ => cases h

end Word

/-- A token that is not well formed. -/
def Token.isFaulty : Token → Bool
  | .quoted (.error _) => true
  | .oneOf (.error _) => true
  | _ => false

/-- What a token says. Of one that is not well formed, only that it is not. -/
def Token.gist : Token → Token
  | .quoted (.error _) => .quoted (.error ⟨.unexpectedEnd, []⟩)
  | .oneOf (.error _) => .oneOf (.error ⟨.unexpectedEnd, []⟩)
  | t => t

/-- What the token of a lexeme says. -/
def Lexeme.gist (t : Lexeme) : Token := t.token.gist

@[simp] theorem Token.isFaulty_gist (t : Token) : t.gist.isFaulty = t.isFaulty := by
  unfold Token.gist
  split <;> rfl

/-- What the token of a word says. A name heads a definition if an arrow follows. -/
def Word.gist (heads : Bool) : Word → Token
  | .opens b => .opens b
  | .closes b => .closes b
  | .mark m => .mark m
  | .slash => .slash
  | .dot => .dot
  | .arrow => .arrow
  | .name c rest _ _ => .name (String.ofList (c :: rest)) heads
  | .quoted q body => (tokenOf .quoted (readQuoted q.char (closed body []))).1.gist
  | .oneOf body => (tokenOf .oneOf (readClass (closed body []))).1.gist

/-- The text after a word does not go on with it. -/
def Word.EndsBefore (w : Word) (after : List Char) : Prop :=
  w.isName → ∀ c ∈ after.head?, isNameChar c = false

theorem takeWhile_name {rest after : List Char} (hr : ∀ c ∈ rest, isNameChar c = true)
    (ha : ∀ c ∈ after.head?, isNameChar c = false) :
    (rest ++ after).takeWhile isNameChar = rest
      ∧ (rest ++ after).dropWhile isNameChar = after := by
  rw [List.takeWhile_append_of_pos hr, List.dropWhile_append_of_pos hr]
  cases after with
  | nil => simp
  | cons c after =>
    have hc : isNameChar c = false := ha c rfl
    simp [hc]

theorem readToken_of_isNameStart {c : Char} (hc : isNameStart c = true) (rest : List Char) :
    readToken c rest = (.name (String.ofList (c :: rest.takeWhile isNameChar))
      (arrowFollows (rest.dropWhile isNameChar)), rest.dropWhile isNameChar) := by
  unfold readToken
  split
  case h_13 => rw [if_pos hc]
  all_goals exact absurd hc (by decide)

/-- A token that does not depend on what comes after its pieces. -/
theorem tokenOf_closes {token : Except Fault α → Token}
    {read : List Char → Except Fault (α × List Char)} {body : List (Piece stop)}
    (hok : ∀ a, (token (.ok a)).isFaulty = false)
    (herror : ∀ f, (token (.error f)).isFaulty = true)
    (hgist : ∀ f f', (token (.error f)).gist = (token (.error f')).gist)
    (h : Closes (fun _ => read) body) (after : List Char) :
    ∃ t, tokenOf token (read (closed body after)) = (t, if t.isFaulty then [] else after)
      ∧ t.gist = (tokenOf token (read (closed body []))).1.gist := by
  cases h with
  | refused h =>
    obtain ⟨f, hf⟩ := h [] after
    obtain ⟨f', hf'⟩ := h [] []
    rw [hf, hf']
    exact ⟨_, by simp [tokenOf, herror], hgist f f'⟩
  | found a h =>
    rw [h [] after, h [] []]
    exact ⟨_, by simp [tokenOf, hok], rfl⟩

/-- The lexer reads a word as one token. Nothing follows a token that is not well formed. -/
theorem exists_readToken (w : Word) {after : List Char} (ha : w.EndsBefore after) :
    ∃ t, readToken w.first (w.others ++ after) = (t, if t.isFaulty then [] else after)
      ∧ t.gist = w.gist (arrowFollows after) := by
  cases w with
  | opens b => cases b <;> exact ⟨_, rfl, rfl⟩
  | closes b => cases b <;> exact ⟨_, rfl, rfl⟩
  | mark m => cases m <;> exact ⟨_, rfl, rfl⟩
  | slash => exact ⟨_, rfl, rfl⟩
  | dot => exact ⟨_, rfl, rfl⟩
  | arrow => exact ⟨_, rfl, rfl⟩
  | name c rest hf hr =>
    obtain ⟨htake, hdrop⟩ := takeWhile_name hr (ha rfl)
    rw [Word.first, Word.others, readToken_of_isNameStart hf, htake, hdrop]
    exact ⟨_, rfl, rfl⟩
  | quoted q body =>
    have htoken : readToken q.char (closed body after)
        = tokenOf .quoted (readQuoted q.char (closed body after)) := by
      cases q <;> rfl
    rw [Word.first, Word.others, closed_append, List.nil_append, htoken]
    refine tokenOf_closes (fun _ => rfl) (fun _ => rfl) (fun _ _ => rfl) ?_ after
    exact closes_readQuoted (by cases q <;> rfl) (by cases q <;> decide) body
  | oneOf body =>
    have htoken : readToken '[' (closed body after)
        = tokenOf .oneOf (readClass (closed body after)) := rfl
    rw [Word.first, Word.others, closed_append, List.nil_append, htoken]
    exact tokenOf_closes (fun _ => rfl) (fun _ => rfl) (fun _ _ => rfl) (closes_readClass body)
      after

end Keymap.Notation
