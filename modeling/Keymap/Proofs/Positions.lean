-- Positions in a text that is read. The readers of the rules only go forward, from one character to
-- a later one, so they come to an end; and so does the reading of the whole text, which is theirs.
-- What is objected to stands where a character of the text begins, or at its end. No slice that is
-- taken of the text is out of bounds.
import Keymap.Proofs.Tandem

namespace Keymap.Notation

open Descent

variable {α : Type} {place : List Char}

/-! ## Going forward -/

/-- The reading goes on by so many bytes at least, or objects to what is not before the place. What
it comes to has a position in the text. -/
inductive Forward (text : String) (n : Nat) (place : List Char) : Reading α → Prop
  | read {a : α} {rest : List Char} (h : rest <:+ place)
    (hpos : IsPosition text (position text.toList rest))
    (hn : position text.toList place + n ≤ position text.toList rest) :
    Forward text n place (.ok (a, rest))
  | fault {f : Fault} (h : f.place <:+ place)
    (hpos : IsPosition text (position text.toList f.place))
    (hn : position text.toList place ≤ position text.toList f.place) :
    Forward text n place (.error (.fault f))
  | event (descriptor : String) : Forward text n place (.error (.event (.invalidKey descriptor)))

theorem Takes.forward {text : String} {n : Nat} {x : Reading α} (h : Takes n place x)
    (hplace : place <:+ text.toList) : Forward text n place x := by
  cases h with
  | read hs hn =>
    exact .read hs (isPosition_of_suffix (hs.trans hplace)) (position_add_le hplace hs hn)
  | fault hs =>
    exact .fault hs (isPosition_of_suffix (hs.trans hplace))
      (position_add_le (n := 0) hplace hs hs.length_le)
  | event descriptor => exact .event descriptor

theorem takes_char (place : List Char) : Takes 1 place ((readChar place).mapError .fault) := by
  have hends := ends_readChar place
  cases hread : readChar place with
  | error f => exact .fault (hends.fault_suffix hread)
  | ok found => exact .read (hends.rest_suffix hread) (length_readChar hread)

/-- What the readers of the rules do at a place of the text, where less than `depth` brackets may be
open at a time. The position goes on by the bytes of a character, and by two for an arrow. What is
left, and what a name is taken from, are slices of the text. All readers but those of blanks,
sequences and patterns take a byte at least. -/
structure GoesForward (text : String) (depth : Nat) (place : List Char) : Prop where
  left : IsSlice text (position text.toList place) text.utf8ByteSize (String.ofList place)
  bump : ∀ c rest, place = c :: rest →
    String.Pos.Raw.get text ⟨position text.toList place⟩ = c
      ∧ position text.toList rest = position text.toList place + c.utf8Size
  twoBytes : ∀ rest, arrow? place = some rest → ∃ after, rest = skipBlanks false after
    ∧ position text.toList after = position text.toList place + 2
  letters : ∀ word rest, name place = .ok (word, rest) → ∃ after, rest = skipBlanks false after
    ∧ IsSlice text (position text.toList place) (position text.toList after) word
  blanks : Forward text 0 place (.ok ((), skipBlanks false place))
  sign : ∀ c rest, sign? c place = some rest → Forward text 1 place (.ok ((), rest))
  arrow : ∀ rest, arrow? place = some rest → Forward text 2 place (.ok ((), rest))
  closing : ∀ c, Forward text 1 place (closing c place)
  char : Forward text 1 place ((readChar place).mapError .fault)
  name : Forward text 1 place (name place)
  literal : ∀ quote rest, place = quote :: rest → Forward text 1 place (literal quote rest)
  set : ∀ rest, place = '[' :: rest → Forward text 1 place (set rest)
  item : Forward text 1 place (item (pattern depth) place)
  marked : Forward text 1 place (marked (pattern depth) place)
  sequence : Forward text 0 place (sequence (pattern depth) place)
  pattern : Forward text 0 place (pattern depth place)
  definition : Forward text 1 place (definition depth place)

theorem goesForward {text : String} {depth : Nat} (hplace : place <:+ text.toList)
    (h : place.length < depth) : GoesForward text depth place where
  left := isSlice_place hplace
  bump := by
    rintro c rest rfl
    exact ⟨get_position hplace, position_tail hplace⟩
  twoBytes _ harrow := by
    obtain ⟨after, rfl, hrest⟩ := exists_of_arrow harrow
    exact ⟨after, hrest, position_arrow hplace⟩
  letters _ _ hname := by
    obtain ⟨letters, after, rfl, rfl, hrest⟩ := exists_of_name hname
    exact ⟨after, hrest, isSlice_between hplace⟩
  blanks := (Takes.read_skip (List.suffix_refl _) (Nat.le_refl _)).forward hplace
  sign _ _ hsign := (Takes.read (takes_sign hsign).1 (takes_sign hsign).2).forward hplace
  arrow _ harrow := (Takes.read (takes_arrow harrow).1 (takes_arrow harrow).2).forward hplace
  closing c := (takes_closing c place).forward hplace
  char := (takes_char place).forward hplace
  name := (takes_name place).forward hplace
  literal := by
    rintro quote rest rfl
    exact (takes_literal quote rest).forward hplace
  set := by
    rintro rest rfl
    exact (takes_set rest).forward hplace
  item := (takes_item fun _ hp => takes_pattern (Nat.lt_trans hp h)).forward hplace
  marked := (takes_marked fun _ hp => takes_pattern (Nat.lt_trans hp h)).forward hplace
  sequence := (takes_sequence fun _ hp => takes_pattern (Nat.lt_trans hp h)).forward hplace
  pattern := (takes_pattern h).forward hplace
  definition := (takes_definition (Nat.le_of_lt h)).forward hplace

/-! ## The places of tokens -/

theorem suffix_readToken (c : Char) (rest : List Char) : (readToken c rest).2 <:+ c :: rest := by
  have htokenOf : ∀ {β : Type} (token : Except Fault β → Token) {x : Except Fault (β × List Char)},
      Ends (c :: rest) x → (tokenOf token x).2 <:+ c :: rest := by
    intro β token x h
    cases h with
    | read h => exact h
    | fault h => exact List.nil_suffix
  unfold readToken
  split
  case h_10 => exact htokenOf _ (ends_readQuoted _ rest)
  case h_11 => exact htokenOf _ (ends_readQuoted _ rest)
  case h_12 => exact htokenOf _ (ends_readClass rest)
  case h_13 =>
    split
    · exact (List.dropWhile_suffix isNameChar).trans (List.suffix_cons _ _)
    · split
      · exact List.suffix_append ['<', '-'] _
      · exact List.suffix_cons _ _
  all_goals exact List.suffix_cons _ _

theorem place_suffix (text : List Char) : ∀ t ∈ lex text, t.place <:+ text := by
  fun_induction lex text with
  | case1 text hskip => exact List.forall_mem_nil _
  | case2 text c rest hskip hs hle ih =>
    have hplace : c :: rest <:+ text := hskip ▸ suffix_skipBlanks false text
    refine List.forall_mem_cons.mpr ⟨hplace, fun t ht => ?_⟩
    exact ((ih t ht).trans (suffix_readToken c rest)).trans hplace

/-- Each token begins behind the one before it. -/
theorem pairwise_place (text : List Char) :
    (lex text).Pairwise fun t u => u.place <:+ t.place ∧ u.place.length < t.place.length := by
  fun_induction lex text with
  | case1 text hskip => exact .nil
  | case2 text c rest hskip hs hle ih =>
    refine .cons (fun u hu => ?_) ih
    have hplace := place_suffix _ u hu
    have htail := length_readToken_le c rest
    exact ⟨hplace.trans (suffix_readToken c rest),
      Nat.lt_succ_of_le (Nat.le_trans hplace.length_le htail)⟩

/-- The positions of the tokens. -/
def positions (text : String) : List Nat :=
  (lex text.toList).map fun t => position text.toList t.place

theorem isPosition_of_mem_positions {text : String} : ∀ n ∈ positions text, IsPosition text n := by
  intro n hn
  obtain ⟨t, ht, rfl⟩ := List.mem_map.mp hn
  exact isPosition_of_suffix (place_suffix _ t ht)

theorem pairwise_positions (text : String) : (positions text).Pairwise (· < ·) := by
  rw [positions, List.pairwise_map]
  refine (pairwise_place text.toList).imp_of_mem fun ht _ h => ?_
  exact position_add_le (n := 1) (place_suffix _ _ ht) h.1 h.2

/-! ## Whole texts -/

/-- What a text is read as, from what the readers of the rules make of it. They are not stuck. -/
inductive Shows (text : String) : Reading α → Except Error α → Prop
  | read (a : α) (rest : List Char) : Shows text (.ok (a, rest)) (.ok a)
  | fault (f : Fault) : Shows text (.error (.fault f))
    (.error (.malformed (position text.toList f.place) f.problem))
  | event (e : Error) : Shows text (.error (.event e)) (.error e)

theorem shows_of_eq {text : String} {x : Reading α} {y : Except Objection α}
    (h : y.mapError Objection.toHalt = x.map Prod.fst) :
    Shows text x (y.mapError (Objection.toError text.toList)) := by
  cases y with
  | ok a =>
    cases x with
    | error e => cases h
    | ok found =>
      obtain ⟨b, rest⟩ := found
      obtain rfl : a = b := Except.ok.inj h
      exact .read a rest
  | error o =>
    cases x with
    | ok found => cases h
    | error e =>
      obtain rfl : o.toHalt = e := Except.error.inj h
      obtain ⟨refusal, place⟩ := o
      cases refusal with
      | problem p => exact .fault ⟨p, place⟩
      | fault f => exact .fault f
      | event e => exact .event e

theorem shows_pattern (text : String) :
    Shows text (wholePattern text.toList) (Pattern.parse text) :=
  shows_of_eq (readPattern_eq_wholePattern text.toList)

theorem shows_grammar (text : String) :
    Shows text (wholeGrammar text.toList) (Grammar.parse text) :=
  shows_of_eq (readGrammar_eq_wholeGrammar text.toList)

theorem Shows.isPosition {text : String} {x : Reading α} {y : Except Error α} (h : Shows text x y)
    {n : Nat} (hx : Forward text n text.toList x) {m : Nat} {problem : Problem}
    (hy : y = .error (.malformed m problem)) : IsPosition text m := by
  cases h with
  | read a rest => cases hy
  | fault f =>
    cases hy
    cases hx with
    | fault h hpos hn => exact hpos
  | event e =>
    cases hx with
    | event descriptor => cases hy

/-- A text is read going forward, and the reading comes to an end. Patterns and grammars are read by
the readers of the rules, of which each goes from a position in the text to a later one, or refuses
what is not before it; none of them is stuck. They go on by the bytes of the characters they take,
and the slices they take are in the text. The tokens have one position after the other. And what
is wrong with a text is wrong at a position in it. -/
theorem a_text_is_read_forward (text : String) :
    (Shows text (wholePattern text.toList) (Pattern.parse text)
        ∧ Forward text 0 text.toList (wholePattern text.toList))
      ∧ (Shows text (wholeGrammar text.toList) (Grammar.parse text)
        ∧ Forward text 0 text.toList (wholeGrammar text.toList))
      ∧ (∀ depth place, place <:+ text.toList → place.length < depth →
        GoesForward text depth place)
      ∧ ((positions text).Pairwise (· < ·) ∧ ∀ n ∈ positions text, IsPosition text n)
      ∧ ∀ n problem, Pattern.parse text = .error (.malformed n problem)
          ∨ Grammar.parse text = .error (.malformed n problem) →
        n ≤ text.utf8ByteSize ∧ IsPosition text n := by
  have hpattern := (takes_wholePattern text.toList).forward (List.suffix_refl text.toList)
  have hgrammar := (takes_wholeGrammar text.toList).forward (List.suffix_refl text.toList)
  refine ⟨⟨shows_pattern text, hpattern⟩, ⟨shows_grammar text, hgrammar⟩,
    fun _ _ => goesForward, ⟨pairwise_positions text, isPosition_of_mem_positions⟩, ?_⟩
  intro n problem h
  have hpos : IsPosition text n := by
    rcases h with h | h
    · exact (shows_pattern text).isPosition hpattern h
    · exact (shows_grammar text).isPosition hgrammar h
  exact ⟨hpos.le_rawEndPos, hpos⟩

/-- The quote stands at the ninth byte, since two of the characters before it have two bytes. -/
theorem an_open_literal_is_refused_at_its_quote :
    let text := "[ä-ö] 'é"
    let place := "'é".toList
    place <:+ text.toList ∧ place.length < 3 ∧ GoesForward text 3 place
      ∧ Pattern.parse text = .error (.malformed 8 .unterminatedLiteral)
      ∧ positions text = [0, 8] ∧ 8 ≤ text.utf8ByteSize ∧ IsPosition text 8
      ∧ ¬ IsPosition text 5 := by
  intro text place
  have hplace : place <:+ text.toList := by decide +kernel
  have hlt : place.length < 3 := by decide
  have hparse : Pattern.parse text = .error (.malformed 8 .unterminatedLiteral) := by
    decide +kernel
  obtain ⟨-, -, hforward, -, hpos⟩ := a_text_is_read_forward text
  obtain ⟨hle, h8⟩ := hpos 8 _ (.inl hparse)
  exact ⟨hplace, hlt, hforward 3 place hplace hlt, hparse, by decide +kernel, hle, h8,
    by decide +kernel⟩

end Keymap.Notation
