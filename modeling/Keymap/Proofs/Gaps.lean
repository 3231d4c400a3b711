-- The gaps between the words of a grammar text: blanks and comments. The lexer finds the words, and
-- a gap changes nothing in the tokens but whether a name in front of it heads a definition.
import Keymap.Proofs.Words
import Mathlib.Data.List.Chain

namespace Keymap.Notation

/-! ## Gaps -/

/-- A piece of a gap. -/
inductive Filler where
  | blank (c : Char) (h : Text.isBlank c = true)
  /-- A hash, and the rest of its line. -/
  | comment (line : List Char) (h : '\n' ∉ line)
deriving DecidableEq

def Filler.text : Filler → List Char
  | .blank c _ => [c]
  | .comment line _ => '#' :: line ++ ['\n']

def Filler.isBlank : Filler → Bool
  | .blank .. => true
  | .comment .. => false

/-- What stands between two words. -/
abbrev Gap := List Filler

def Gap.text (g : Gap) : List Char := g.flatMap Filler.text

/-- No comment is in the gap. -/
def Gap.isBlank (g : Gap) : Bool := g.all Filler.isBlank

@[simp] theorem Gap.text_nil : Gap.text [] = [] := rfl

@[simp] theorem Gap.text_cons (f : Filler) (g : Gap) :
    Gap.text (f :: g) = f.text ++ Gap.text g := rfl

theorem skipBlanks_line {line : List Char} (h : '\n' ∉ line) (after : List Char) :
    skipBlanks true (line ++ '\n' :: after) = skipBlanks false after := by
  induction line with
  | nil => simp [skipBlanks]
  | cons c line ih =>
    have hc : c ≠ '\n' := fun hc => h (hc ▸ List.mem_cons_self ..)
    simp [skipBlanks, hc, ih (List.not_mem_of_not_mem_cons h)]

theorem skipBlanks_filler (f : Filler) (after : List Char) :
    skipBlanks false (f.text ++ after) = skipBlanks false after := by
  cases f with
  | blank c h => simp [Filler.text, skipBlanks, h]
  | comment line h =>
    have hhash : Text.isBlank '#' = false := by decide
    simp [Filler.text, skipBlanks, hhash, skipBlanks_line h]

@[simp] theorem skipBlanks_gap (g : Gap) (after : List Char) :
    skipBlanks false (g.text ++ after) = skipBlanks false after := by
  induction g with
  | nil => rfl
  | cons f g ih => rw [Gap.text_cons, List.append_assoc, skipBlanks_filler, ih]

/-! ## Where a word begins -/

theorem lt_of_isNameChar {c : Char} (h : isNameChar c = true) :
    0x30 ≤ c.toNat ∧ c.toNat ≤ 0x7a := by
  simp only [isNameChar, Char.isAlphanum, Bool.or_eq_true, decide_eq_true_eq] at h
  rcases h with (halpha | hdigit) | rfl
  · rcases Bool.or_eq_true_iff.mp halpha with hupper | hlower
    · have hrange : 0x41 ≤ c.toNat ∧ c.toNat ≤ 0x5a := of_decide_eq_true hupper
      omega
    · have hrange : 0x61 ≤ c.toNat ∧ c.toNat ≤ 0x7a :=
        (Bool.and_eq_true_iff.mp hlower).imp of_decide_eq_true of_decide_eq_true
      omega
  · have hrange : 0x30 ≤ c.toNat ∧ c.toNat ≤ 0x39 :=
      (Bool.and_eq_true_iff.mp hdigit).imp of_decide_eq_true of_decide_eq_true
    omega
  · decide

theorem isNameChar_of_isNameStart {c : Char} (h : isNameStart c = true) :
    isNameChar c = true := by
  simp only [isNameStart, isNameChar, Char.isAlphanum, Bool.or_eq_true] at h ⊢
  exact h.imp_left .inl

/-- All blanks are before or after the characters of names. -/
theorem isBlank_of_isNameChar {c : Char} (h : isNameChar c = true) : Text.isBlank c = false := by
  have hrange := lt_of_isNameChar h
  simp [Text.isBlank, Text.Ranges.contains, Text.blankRanges]
  omega

/-- The characters that words other than names begin with. -/
def signs : List Char :=
  ['(', ')', '\x7b', '\x7d', '*', '+', '?', '/', '.', '<', '\'', '"', '[']

theorem Word.first_cases (w : Word) :
    w.isName = true ∧ isNameStart w.first = true ∨ w.isName = false ∧ w.first ∈ signs := by
  cases w with
  | name c rest hf hr => exact .inl ⟨rfl, hf⟩
  | opens b => cases b <;> exact .inr (by decide)
  | closes b => cases b <;> exact .inr (by decide)
  | mark m => cases m <;> exact .inr (by decide)
  | quoted q body => cases q <;> exact .inr ⟨rfl, by simp [first, Quote.char, signs]⟩
  | oneOf body => exact .inr ⟨rfl, by simp [first, signs]⟩
  | slash | dot | arrow => exact .inr (by decide)

/-- A word begins with a character that is not skipped. -/
theorem Word.first_kept (w : Word) : Text.isBlank w.first = false ∧ w.first ≠ '#' := by
  have hsigns : (signs.all fun c => !Text.isBlank c && c != '#') = true := by decide
  rcases w.first_cases with ⟨-, hname⟩ | ⟨-, hsign⟩
  · refine ⟨isBlank_of_isNameChar (isNameChar_of_isNameStart hname), ?_⟩
    intro hc
    rw [hc] at hname
    exact absurd hname (by decide)
  · simpa using List.all_eq_true.mp hsigns _ hsign

/-- A name does not go on with a word that is no name. -/
theorem Word.isNameChar_first {w : Word} (h : w.isName = false) : isNameChar w.first = false := by
  have hsigns : (signs.all fun c => !isNameChar c) = true := by decide
  rcases w.first_cases with ⟨hname, -⟩ | ⟨-, hsign⟩
  · rw [h] at hname
    cases hname
  · simpa using List.all_eq_true.mp hsigns _ hsign

/-- Only an arrow begins like one. -/
theorem Word.isArrow_eq (w : Word) : w.isArrow = (w.first == '<') := by
  cases w with
  | name c rest hf hr =>
    have hc : c ≠ '<' := by
      rintro rfl
      exact absurd hf (by decide)
    exact (beq_eq_false_iff_ne.mpr hc).symm
  | opens b => cases b <;> rfl
  | closes b => cases b <;> rfl
  | mark m => cases m <;> rfl
  | quoted q body => cases q <;> rfl
  | slash | dot | arrow | oneOf => rfl

theorem Word.arrowFollows_text (w : Word) (after : List Char) :
    arrowFollows (w.text ++ after) = w.isArrow := by
  have hdrop : (w.text ++ after).dropWhile Text.isBlank = w.text ++ after :=
    List.dropWhile_cons_of_neg (by simp [w.first_kept.1])
  rw [arrowFollows, hdrop]
  cases harrow : w.isArrow with
  | true =>
    rw [Word.eq_arrow_of_isArrow harrow]
    rfl
  | false =>
    rw [w.isArrow_eq, beq_eq_false_iff_ne] at harrow
    simp [Word.text, List.isPrefixOf, harrow.symm]

@[simp] theorem Word.skipBlanks_text (w : Word) (after : List Char) :
    skipBlanks false (w.text ++ after) = w.first :: (w.others ++ after) := by
  obtain ⟨hblank, hhash⟩ := w.first_kept
  simp [Word.text, skipBlanks, hblank, hhash]

/-! ## Words and gaps -/

/-- A word and the gap after it. -/
structure Entry where
  word : Word
  gap : Gap
deriving DecidableEq

def Entry.text (x : Entry) : List Char := x.word.text ++ x.gap.text

/-- Something stands between the two, if they are names. -/
def Entry.ApartFrom (x y : Entry) : Prop := x.word.isName → y.word.isName → x.gap ≠ []

/-- No comment stands between the two, if they are a name and an arrow. -/
def Entry.ClearBefore (x y : Entry) : Prop := x.word.isName → y.word.isArrow → x.gap.isBlank

instance : DecidableRel Entry.ApartFrom := fun x y =>
  inferInstanceAs (Decidable (x.word.isName → y.word.isName → x.gap ≠ []))

instance : DecidableRel Entry.ClearBefore := fun x y =>
  inferInstanceAs (Decidable (x.word.isName → y.word.isArrow → x.gap.isBlank))

/-- Words, with a gap before them, between them and after them. -/
structure Spacing where
  margin : Gap
  entries : List Entry
deriving DecidableEq

namespace Spacing

def text (a : Spacing) : List Char := a.margin.text ++ a.entries.flatMap Entry.text

def words (a : Spacing) : List Word := a.entries.map Entry.word

/-- Something stands between any two names. -/
def Apart (a : Spacing) : Prop := a.entries.IsChain Entry.ApartFrom

/-- No comment stands between a name and an arrow, but for the first name of the text. -/
def Clear (a : Spacing) : Prop := a.entries.tail.IsChain Entry.ClearBefore

instance (a : Spacing) : Decidable a.Apart := inferInstanceAs (Decidable (List.IsChain _ _))

instance (a : Spacing) : Decidable a.Clear := inferInstanceAs (Decidable (List.IsChain _ _))

end Spacing

/-! ## The tokens of words -/

theorem lex_of_skipBlanks_nil {text : List Char} (h : skipBlanks false text = []) :
    lex text = [] := by
  rw [lex]
  split <;> simp_all

theorem lex_of_skipBlanks_cons {text rest : List Char} {c : Char}
    (h : skipBlanks false text = c :: rest) :
    lex text = ⟨(readToken c rest).1, c, rest⟩ :: lex (readToken c rest).2 := by
  rw [lex]
  split <;> simp_all

/-- The tokens go by what follows the blanks in front. -/
theorem lex_congr {text text' : List Char} (h : skipBlanks false text = skipBlanks false text') :
    lex text = lex text' := by
  cases htext : skipBlanks false text' with
  | nil => rw [lex_of_skipBlanks_nil htext, lex_of_skipBlanks_nil (h.trans htext)]
  | cons c rest => rw [lex_of_skipBlanks_cons htext, lex_of_skipBlanks_cons (h.trans htext)]

/-- A gap that is not empty ends a name. -/
theorem Gap.isNameChar_head {g : Gap} (h : g ≠ []) (after : List Char) :
    ∀ c ∈ (g.text ++ after).head?, isNameChar c = false := by
  cases g with
  | nil => exact absurd rfl h
  | cons f g =>
    intro c hc
    cases f with
    | comment line hline =>
      cases hc
      decide
    | blank c' hblank =>
      cases hc
      by_contra hname
      rw [isBlank_of_isNameChar (by simpa using hname)] at hblank
      cases hblank

theorem endsBefore_of_apart {x : Entry} {rest : List Entry}
    (h : ∀ y ∈ rest.head?, x.ApartFrom y) :
    x.word.EndsBefore (x.gap.text ++ rest.flatMap Entry.text) := by
  intro hname
  by_cases hgap : x.gap = []
  · cases rest with
    | nil => simp [hgap]
    | cons y rest =>
      have hother : y.word.isName = false := by
        by_contra hy
        exact h y rfl hname (by simpa using hy) hgap
      intro c hc
      rw [hgap] at hc
      cases hc
      exact Word.isNameChar_first hother
  · exact Gap.isNameChar_head hgap _

/-- An arrow follows a gap if the next word is one and no comment is in the gap. -/
theorem arrowFollows_gap (g : Gap) (rest : List Entry) :
    arrowFollows (g.text ++ rest.flatMap Entry.text)
      = (g.isBlank && rest.head?.any fun y => y.word.isArrow) := by
  induction g with
  | nil =>
    cases rest with
    | nil => rfl
    | cons y rest =>
      rw [List.flatMap_cons, Entry.text, List.append_assoc]
      exact y.word.arrowFollows_text _
  | cons f g ih =>
    cases f with
    | blank c h => simpa [arrowFollows, Filler.text, h, Gap.isBlank, Filler.isBlank] using ih
    | comment line h =>
      have hhash : Text.isBlank '#' = false := by decide
      simp [arrowFollows, Filler.text, hhash, Gap.isBlank, Filler.isBlank, List.isPrefixOf]

/-- What the token of a word says, with this after it. -/
def Entry.gist (x : Entry) (rest : List Entry) : Token :=
  x.word.gist (x.gap.isBlank && rest.head?.any fun y => y.word.isArrow)

/-- What the tokens of the words say, up to the first that is not well formed. -/
def gists : List Entry → List Token
  | [] => []
  | x :: rest =>
    if (x.gist rest).isFaulty then [x.gist rest] else x.gist rest :: gists rest

/-- The lexer finds the words. -/
theorem gists_lex (g : Gap) {entries : List Entry}
    (h : entries.IsChain Entry.ApartFrom) :
    (lex (g.text ++ entries.flatMap Entry.text)).map Lexeme.gist = gists entries := by
  induction entries generalizing g with
  | nil =>
    have hskip : skipBlanks false (g.text ++ [].flatMap Entry.text) = [] := skipBlanks_gap g []
    rw [lex_of_skipBlanks_nil hskip]
    rfl
  | cons x rest ih =>
    rw [List.isChain_cons] at h
    obtain ⟨t, ht, hgist⟩ := exists_readToken x.word (endsBefore_of_apart h.1)
    have hskip : skipBlanks false (g.text ++ (x :: rest).flatMap Entry.text)
        = x.word.first :: (x.word.others ++ (x.gap.text ++ rest.flatMap Entry.text)) := by
      simp [Entry.text]
    rw [arrowFollows_gap] at hgist
    have hfaulty : t.isFaulty = (x.gist rest).isFaulty := by
      rw [Entry.gist, ← hgist, Token.isFaulty_gist]
    rw [lex_of_skipBlanks_cons hskip, ht, List.map_cons, Lexeme.gist, hgist, hfaulty, gists,
      ← Entry.gist]
    split
    · rw [lex_of_skipBlanks_nil rfl]
      rfl
    · rw [ih _ h.2]

end Keymap.Notation
