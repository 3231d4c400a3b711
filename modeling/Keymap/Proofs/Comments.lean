-- What blanks and comments change in a grammar. The gaps between the words make no difference, but
-- for a comment between a name and its arrow: a text with one is refused, unless the name is the
-- first of the text.
import Keymap.Proofs.Agreement
import Keymap.Proofs.Gaps

namespace Keymap.Notation

/-! ## What the words say -/

namespace Word

theorem bare_gist (w : Word) (heads heads' : Bool) :
    (w.gist heads).bare = (w.gist heads').bare := by
  cases w <;> rfl

theorem isFaulty_gist (w : Word) (heads heads' : Bool) :
    (w.gist heads).isFaulty = (w.gist heads').isFaulty := by
  cases w <;> rfl

theorem gist_of_not_isName {w : Word} (h : ¬ w.isName) (heads heads' : Bool) :
    w.gist heads = w.gist heads' := by
  cases w with
  | name => exact absurd rfl h
  | _ => rfl

end Word

/-- What the tokens of the words say where no comment stands before an arrow. -/
def wordGists : List Word → List Token
  | [] => []
  | w :: rest =>
    let t := w.gist (rest.head?.any Word.isArrow)
    if t.isFaulty then [t] else t :: wordGists rest

theorem gists_eq_wordGists {entries : List Entry} (h : entries.IsChain Entry.ClearBefore) :
    gists entries = wordGists (entries.map Entry.word) := by
  induction entries with
  | nil => rfl
  | cons x rest ih =>
    obtain ⟨hx, hrest⟩ := List.isChain_cons.mp h
    have hgist : x.gist rest = x.word.gist ((rest.map Entry.word).head?.any Word.isArrow) := by
      unfold Entry.gist
      by_cases hname : x.word.isName
      · cases rest with
        | nil => simp
        | cons y rest =>
          cases harrow : y.word.isArrow with
          | false => simp [harrow]
          | true => simp [harrow, hx y rfl hname harrow]
      · exact Word.gist_of_not_isName hname _ _
    simp only [gists, List.map_cons, wordGists, hgist, ih hrest]

/-- Where no comment stands before an arrow, the gaps change nothing in what the tokens say, but
for whether the first name heads a definition. -/
theorem Spacing.Clear.gists_eq {a : Spacing} (h : a.Clear) :
    (gists a.entries).modifyHead Token.bare = (wordGists a.words).modifyHead Token.bare := by
  obtain ⟨margin, entries⟩ := a
  cases entries with
  | nil => rfl
  | cons x rest =>
    have hrest : gists rest = wordGists (rest.map Entry.word) := gists_eq_wordGists h
    generalize hnext : (rest.map Entry.word).head?.any Word.isArrow = next
    have hbare : (x.gist rest).bare = (x.word.gist next).bare := x.word.bare_gist _ _
    have hfaulty : (x.gist rest).isFaulty = (x.word.gist next).isFaulty :=
      x.word.isFaulty_gist _ _
    simp only [Spacing.words, gists, List.map_cons, wordGists, hnext, hfaulty, hrest]
    split
    · simp [hbare]
    · simp [hbare]

/-! ## Comments before arrows -/

theorem gists_cons {x : Entry} {rest : List Entry}
    (h : ∀ t ∈ gists (x :: rest), t.isFaulty = false) :
    gists (x :: rest) = x.gist rest :: gists rest := by
  rw [gists] at h ⊢
  split
  · next hfaulty =>
    rw [if_pos hfaulty] at h
    exact absurd hfaulty (by simp [h _ (List.mem_singleton_self _)])
  · rfl

/-- Where all tokens are well formed and in order, no comment stands before an arrow. -/
theorem isChain_of_gists {entries : List Entry} (h : ∀ t ∈ gists entries, t.isFaulty = false)
    (hchain : (gists entries).IsChain InOrder) : entries.IsChain Entry.ClearBefore := by
  induction entries with
  | nil => exact .nil
  | cons x rest ih =>
    have hcons := gists_cons h
    rw [hcons] at h hchain
    obtain ⟨hx, hrest⟩ := List.isChain_cons.mp hchain
    obtain ⟨-, hfaulty⟩ := List.forall_mem_cons.mp h
    refine List.isChain_cons.mpr ⟨?_, ih hfaulty hrest⟩
    intro y hy hname harrow
    cases rest with
    | nil => cases hy
    | cons y' rest =>
      cases hy
      have hword := Word.eq_arrow_of_isArrow harrow
      have hgist : y.gist rest = .arrow := by rw [Entry.gist, hword]; rfl
      have hne := hx _ (by rw [gists_cons hfaulty]; rfl) hgist
      cases hw : x.word with
      | name c others hf hr =>
        simpa [Entry.gist, hw, Word.gist, hword, Word.isArrow] using hne
      | _ =>
        rw [hw] at hname
        cases hname

/-- A text whose definitions are read has no comment before an arrow. -/
theorem Spacing.clear_of_definitions {a : Spacing} {ts : List Lexeme} (h : Definitions ts)
    (hts : ts.map Lexeme.gist = gists a.entries) : a.Clear := by
  have hfaulty : ∀ t ∈ gists a.entries, t.isFaulty = false := by
    rw [← hts]
    intro t ht
    obtain ⟨l, hl, rfl⟩ := List.mem_map.mp ht
    rw [Lexeme.gist, Token.isFaulty_gist]
    exact h.isFaulty_eq_false l hl
  have hchain : (gists a.entries).tail.IsChain InOrder := by
    rw [← hts, ← List.map_tail, List.isChain_map]
    refine h.isChain_tail.imp ?_
    intro t t' horder harrow word hname
    exact horder (Token.gist_eq_arrow_iff.mp harrow) word (Token.gist_eq_name_iff.mp hname)
  obtain ⟨margin, entries⟩ := a
  cases entries with
  | nil => exact .nil
  | cons x rest =>
    have hcons := gists_cons hfaulty
    rw [hcons] at hfaulty hchain
    exact isChain_of_gists (List.forall_mem_cons.mp hfaulty).2 hchain

/-- The gaps between the words of a grammar make no difference, whatever blanks and comments are in
them, as long as no comment stands between a name and an arrow. A text with a comment there is
refused, unless it is the first name of the text. -/
theorem a_comment_matters_only_before_an_arrow {a b : Spacing} (hw : a.words = b.words)
    (ha : a.Apart) (hb : b.Apart) :
    (∀ g, Grammar.parse (String.ofList a.text) = .ok g → a.Clear)
      ∧ (a.Clear → b.Clear → (Grammar.parse (String.ofList a.text)).toOption
        = (Grammar.parse (String.ofList b.text)).toOption) := by
  have hgists : ∀ {c : Spacing}, c.Apart → (lex c.text).map Lexeme.gist = gists c.entries :=
    fun hc => gists_lex _ hc
  constructor
  · intro g hg
    obtain ⟨rules, hrules⟩ := exists_definitions_of_parse hg
    exact Spacing.clear_of_definitions (definitions_of_ok hrules) (hgists ha)
  · intro hclear hclear'
    have hsame : ((lex a.text).map Lexeme.gist).modifyHead Token.bare
        = ((lex b.text).map Lexeme.gist).modifyHead Token.bare := by
      rw [hgists ha, hgists hb, hclear.gists_eq, hclear'.gists_eq, hw]
    simp only [Grammar.parse, String.toList_ofList]
    exact ((readGrammar_agree (readDefinitions_agree _ _ hsame)).mapError _ _).toOption_eq

/-- Two rules for keys. The gap after the name of the second one is given apart. -/
def twoRules (gap beforeArrow : Gap) : Spacing where
  margin := gap
  entries := [
    ⟨.name 'a' [] rfl nofun, gap⟩, ⟨.arrow, gap⟩, ⟨.quoted .single [.plain 'x' (by decide)], gap⟩,
    ⟨.name 'b' [] rfl nofun, beforeArrow⟩, ⟨.arrow, gap⟩,
    ⟨.quoted .single [.plain 'y' (by decide)], gap⟩]

def space : Filler := .blank ' ' rfl

/-- A comment in the line, and the end of the line. -/
def remark : Filler := .comment [' ', 'k', 'e', 'y', 's'] (by decide)

/-- The grammar of the two rules. -/
def twoKeys : Grammar where
  root := "a"
  rules := [("a", .event (.key (.typed 'x') {})), ("b", .event (.key (.typed 'y') {}))]

theorem two_rules_are_read_with_remarks :
    (twoRules [space] [space]).Clear
      ∧ (Grammar.parse (String.ofList (twoRules [remark] []).text)).toOption = some twoKeys := by
  have hread : Grammar.parse (String.ofList (twoRules [space] [space]).text) = .ok twoKeys :=
    eq_ok_of_toOption (by decide +kernel)
  obtain ⟨hclear, hsame⟩ := a_comment_matters_only_before_an_arrow
    (a := twoRules [space] [space]) (b := twoRules [remark] []) rfl (by decide) (by decide)
  refine ⟨hclear _ hread, ?_⟩
  rw [← hsame (hclear _ hread) (by decide), hread]
  rfl

/-- A remark between the second name and its arrow makes an error of the text. -/
theorem a_remark_before_an_arrow_is_refused :
    let a := twoRules [space] [space]
    let b := twoRules [space] [space, remark]
    a.words = b.words ∧ a.Apart ∧ b.Apart
      ∧ (Grammar.parse (String.ofList a.text)).toOption = some twoKeys
      ∧ (Grammar.parse (String.ofList b.text)).toOption = none := by
  decide +kernel

end Keymap.Notation
