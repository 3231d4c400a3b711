-- A text for every expressible pattern. The events and the rules have texts of their own, and those
-- of larger patterns are put together.
import Keymap.Proofs.Expressible

namespace Keymap.Notation

/-! ## Writing classes -/

/-- A character as it is written in a class. A caret in front would turn the class around, and has
no escape but its code. -/
def escapeInClass (c : Char) : List Char :=
  if c = '^' then ['\\', '1', '3', '6']
  else if c = '-' ∨ c = ']' ∨ c = '\\' then ['\\', c]
  else [c]

/-- A range as it is written in a class. -/
def writeRange (r : Char × Char) : List Char := escapeInClass r.1 ++ '-' :: escapeInClass r.2

/-- What is written between the brackets of a class. -/
def writeRanges (s : CharSet) : List Char :=
  (if s.negated then ['^'] else []) ++ s.ranges.flatMap writeRange

/-- A class. -/
def writeClass (s : CharSet) : String := String.ofList ('[' :: (writeRanges s ++ [']']))

/-! ## Reading them back -/

theorem escapeInClass_eq_cons (c : Char) :
    ∃ d after, escapeInClass c = d :: after ∧ d ≠ '^' ∧ d ≠ ']' := by
  unfold escapeInClass
  by_cases hcaret : c = '^'
  · rw [if_pos hcaret]
    exact ⟨'\\', _, rfl, by decide, by decide⟩
  · rw [if_neg hcaret]
    by_cases hspecial : c = '-' ∨ c = ']' ∨ c = '\\'
    · rw [if_pos hspecial]
      exact ⟨'\\', _, rfl, by decide, by decide⟩
    · rw [if_neg hspecial]
      exact ⟨c, [], rfl, hcaret, fun h => hspecial (.inr (.inl h))⟩

theorem readChar_escapeInClass (c : Char) (rest : List Char) :
    readChar (escapeInClass c ++ rest) = .ok (c, rest) := by
  unfold escapeInClass
  by_cases hcaret : c = '^'
  · rw [if_pos hcaret, hcaret]
    rfl
  · rw [if_neg hcaret]
    by_cases hspecial : c = '-' ∨ c = ']' ∨ c = '\\'
    · rw [if_pos hspecial]
      rcases hspecial with rfl | rfl | rfl <;> rfl
    · rw [if_neg hspecial, List.singleton_append, readChar]
      · exact fun h => absurd (.inr (.inr h)) hspecial
      · exact fun _ _ h => absurd (.inr (.inr h)) hspecial

theorem readHigh_escapeInClass (low high : Char) (rest : List Char) :
    readHigh low ('-' :: escapeInClass high ++ rest) = .ok (high, rest) := by
  have hread := readChar_escapeInClass high rest
  obtain ⟨d, after, hcons, -, hd⟩ := escapeInClass_eq_cons high
  rw [hcons] at hread ⊢
  rw [List.cons_append, List.cons_append, readHigh]
  · exact hread
  · intro tail heq
    exact hd (List.cons.inj heq).1

theorem readRange_writeRange {r : Char × Char} (h : r.1 ≤ r.2) (rest : List Char) :
    readRange (writeRange r ++ rest) = .ok (r, rest) := by
  rw [writeRange, List.append_assoc, readRange, readChar_escapeInClass]
  simp only [readHigh_escapeInClass, if_neg (Char.not_lt.mpr h)]

theorem writeRange_eq_cons (r : Char × Char) :
    ∃ c after, writeRange r = c :: after ∧ c ≠ '^' ∧ c ≠ ']' := by
  obtain ⟨c, after, hcons, hc⟩ := escapeInClass_eq_cons r.1
  exact ⟨c, _, by rw [writeRange, hcons, List.cons_append], hc⟩

theorem classBody_writeRanges {s : CharSet} (h : s.ranges ≠ []) (rest : List Char) :
    classBody (writeRanges s ++ rest) = (s.negated, s.ranges.flatMap writeRange ++ rest) := by
  unfold writeRanges
  cases s.negated with
  | true => rfl
  | false =>
    obtain ⟨r, rs, hranges⟩ := List.exists_cons_of_ne_nil h
    obtain ⟨c, after, hcons, hc, -⟩ := writeRange_eq_cons r
    rw [hranges, List.flatMap_cons, hcons]
    simp [classBody, hc]

theorem readClass_writeRanges {s : CharSet} (h : s.Proper) (rest : List Char) :
    readClass (writeRanges s ++ ']' :: rest) = .ok (s, rest) := by
  obtain ⟨hne, hle⟩ := h
  have hfirst : ∀ r, ∃ c after, writeRange r = c :: after ∧ c ≠ ']' := by
    intro r
    obtain ⟨c, after, hcons, -, hc⟩ := writeRange_eq_cons r
    exact ⟨c, after, hcons, hc⟩
  have hread := loops_readRanges.written hfirst (fun r hr => readRange_writeRange (hle r hr))
    ('[' :: (writeRanges s ++ ']' :: rest)) rest
  rw [readClass, classBody_writeRanges hne]
  simp only [hread]

/-- A proper set is read from the class that it is written as. -/
theorem tokens_writeClass {s : CharSet} (h : s.Proper) :
    tokens (writeClass s).toList = [.oneOf (.ok s)] := by
  have hskip : skipBlanks false (writeClass s).toList = '[' :: (writeRanges s ++ [']']) := by
    rw [writeClass, String.toList_ofList]
    rfl
  have htoken : readToken '[' (writeRanges s ++ [']']) = (.oneOf (.ok s), []) := by
    change tokenOf .oneOf (readClass (writeRanges s ++ [']'])) = _
    rw [readClass_writeRanges h]
    rfl
  rw [tokens_of_skipBlanks_cons hskip, htoken, tokens_nil]

/-! ## Texts of patterns -/

theorem makes_single {t : Token} {p : Pattern}
    (h : Reader.start.turn t = .ok (.reads (.inside (Draft.add {} p) []))) : Makes [t] p :=
  ⟨Draft.add {} p, by rw [Reader.after_cons h, Reader.after_nil], rfl⟩

theorem parse_quoted {text : String} {m : Matcher} (h : Matcher.parse {} text = .ok m) (q : Quote) :
    Pattern.parse (q.write text) = .ok (.event m) := by
  have hne : text ≠ "" := by
    rintro rfl
    cases h
  rw [parse_eq_ok_iff, q.tokens_write hne]
  apply makes_single
  simp only [Reader.start, Reader.turn, Reader.insideTurn, Pattern.parseEvent, h]
  rfl

theorem parse_class {s : CharSet} (h : s.Proper) :
    Pattern.parse (writeClass s) = .ok (.event (.oneOf s)) := by
  rw [parse_eq_ok_iff, tokens_writeClass h]
  exact makes_single rfl

theorem parse_name {name : String} (h : IsName name.toList) :
    Pattern.parse name = .ok (.rule name) := by
  obtain ⟨c, rest, hname, hc, hrest⟩ := h
  have hf : isNameStart c = true := by simpa [isNameStart] using hc
  have hr : ∀ d ∈ rest, isNameChar d = true := by simpa [isNameChar] using hrest
  have htokens : tokens name.toList = [.name name false] := by
    have hword : tokens ((Word.name c rest hf hr).text ++ [])
        = (Word.name c rest hf hr).gist false :: tokens [] :=
      tokens_word (by intro _ d hd; cases hd) rfl
    have htext : (Word.name c rest hf hr).text ++ [] = name.toList := by
      rw [hname]
      exact List.append_nil _
    rw [htext, tokens_nil] at hword
    rw [hword, Word.gist, ← hname, String.ofList_toList]
  rw [parse_eq_ok_iff, htokens]
  exact makes_single rfl

theorem exists_parse_of_expressible {p : Pattern} (h : p.Expressible) :
    ∃ text, Pattern.parse text = .ok p := by
  induction p with
  | event m =>
    rcases h with ⟨text, hm⟩ | ⟨s, rfl, hs⟩
    · exact ⟨_, parse_quoted hm .single⟩
    · exact ⟨_, parse_class hs⟩
  | seq a b iha ihb =>
    obtain ⟨text, ha⟩ := iha h.1
    obtain ⟨text', hb⟩ := ihb h.2
    exact ⟨_, parse_seq ha hb⟩
  | alt a b iha ihb =>
    obtain ⟨text, ha⟩ := iha h.1
    obtain ⟨text', hb⟩ := ihb h.2
    exact ⟨_, parse_alt ha hb⟩
  | star p ih =>
    obtain ⟨text, hp⟩ := ih h
    exact ⟨_, parse_marked hp .star⟩
  | plus p ih =>
    obtain ⟨text, hp⟩ := ih h
    exact ⟨_, parse_marked hp .plus⟩
  | opt p ih =>
    obtain ⟨text, hp⟩ := ih h
    exact ⟨_, parse_marked hp .opt⟩
  | capture p template ih =>
    obtain ⟨text, hp⟩ := ih h.1
    exact ⟨_, parse_capture hp .single h.2⟩
  | done => exact absurd h id
  | rule name => exact ⟨_, parse_name h⟩

/-- A pattern is read from some text just when it is expressible, however its sequences and its
alternatives are nested. -/
theorem the_patterns_with_a_text_are_the_expressible_ones (p : Pattern) :
    (∃ text, Pattern.parse text = .ok p) ↔ p.Expressible := by
  constructor
  · rintro ⟨text, h⟩
    exact expressible_of_parse h
  · exact exists_parse_of_expressible

end Keymap.Notation
