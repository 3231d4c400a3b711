-- Quoted literals and character classes in a grammar text. A place in the
-- text is given by what stands from there to the end.
import Keymap.Error
import Keymap.CharSet

namespace Keymap.Notation

/-- A problem, and the place of it. -/
structure Fault where
  problem : Problem
  place : List Char
deriving DecidableEq

/-! ## One character -/

/-- A digit of an octal code. -/
def isOctal (c : Char) : Bool := '0' ≤ c && c ≤ '7'

/-- The character with this octal code. -/
def octalChar (digits : List Char) : Char :=
  Char.ofNat (digits.foldl (fun n c => n * 8 + (c.toNat - '0'.toNat)) 0)

/-- The digits of an octal code: at most three. -/
def octalDigits (text : List Char) : List Char := (text.take 3).takeWhile isOctal

/-- The character that `c` stands for after a backslash, if it has no code. -/
def namedEscape : Char → Option Char
  | 'n' => some '\n'
  | 'r' => some '\r'
  | 't' => some '\t'
  | '\'' => some '\''
  | '"' => some '"'
  | '[' => some '['
  | ']' => some ']'
  | '\\' => some '\\'
  | '-' => some '-'
  | _ => none

/-- Reads a character, which may be escaped. Gives it, and what follows. -/
def readChar : List Char → Except Fault (Char × List Char)
  | [] => .error ⟨.unexpectedEnd, []⟩
  | '\\' :: [] => .error ⟨.unexpectedEnd, []⟩
  | '\\' :: c :: rest =>
    match namedEscape c with
    | some d => .ok (d, rest)
    | none =>
      match octalDigits (c :: rest) with
      | [] => .error ⟨.unknownEscape c, '\\' :: c :: rest⟩
      | digits => .ok (octalChar digits, (c :: rest).drop digits.length)
  | c :: rest => .ok (c, rest)

/-- A character takes up a part of the text. -/
theorem length_readChar {text rest : List Char} {c : Char} (h : readChar text = .ok (c, rest)) :
    rest.length < text.length := by
  unfold readChar at h
  split at h
  · exact nomatch h
  · exact nomatch h
  · split at h
    · simp only [Except.ok.injEq, Prod.mk.injEq] at h
      obtain ⟨-, rfl⟩ := h
      exact Nat.lt_succ_of_lt (Nat.lt_succ_self _)
    · split at h
      · exact nomatch h
      · simp only [Except.ok.injEq, Prod.mk.injEq] at h
        obtain ⟨-, rfl⟩ := h
        rw [List.length_drop]
        exact Nat.lt_succ_of_le (Nat.sub_le ..)
  · simp only [Except.ok.injEq, Prod.mk.injEq] at h
    obtain ⟨-, rfl⟩ := h
    exact Nat.lt_succ_self _

/-! ## Quoted literals -/

/-- The characters up to the closing quote, and what follows it. `start` is
the place of the opening quote. -/
def readQuotedBody (quote : Char) (start text : List Char) :
    Except Fault (List Char × List Char) :=
  match text with
  | [] => .error ⟨.unterminatedLiteral, start⟩
  | c :: after =>
    if c = quote then .ok ([], after)
    else
      match h : readChar (c :: after) with
      | .error f => .error f
      | .ok (d, rest) =>
        have := length_readChar h
        (readQuotedBody quote start rest).map fun (body, left) => (d :: body, left)
termination_by text.length
decreasing_by assumption

/-- Reads a quoted literal, from its opening quote on. -/
def readQuoted (quote : Char) (text : List Char) : Except Fault (String × List Char) :=
  match readQuotedBody quote (quote :: text) text with
  | .error f => .error f
  | .ok ([], _) => .error ⟨.emptyLiteral, quote :: text⟩
  | .ok (body, rest) => .ok (String.ofList body, rest)

theorem length_readQuotedBody {quote : Char} {start text body rest : List Char}
    (h : readQuotedBody quote start text = .ok (body, rest)) : rest.length < text.length := by
  fun_induction readQuotedBody quote start text generalizing body rest with
  | case1 => exact nomatch h
  | case2 c => simp_all
  | case3 => exact nomatch h
  | case4 c after hc d left hr hl ih =>
    cases hb : readQuotedBody quote start left with
    | error f => simp [hb, Except.map] at h
    | ok p =>
      have := ih hb
      simp_all [Except.map]
      omega

theorem length_readQuoted_le {quote : Char} {text rest : List Char} {content : String}
    (h : readQuoted quote text = .ok (content, rest)) : rest.length ≤ text.length := by
  unfold readQuoted at h
  split at h
  · exact nomatch h
  · exact nomatch h
  · next hb =>
    simp only [Except.ok.injEq, Prod.mk.injEq] at h
    obtain ⟨-, rfl⟩ := h
    exact Nat.le_of_lt (length_readQuotedBody hb)

/-! ## Character classes -/

/-- Reads the end of a range that starts with `low`. A dash that closes the
class is a character of its own. -/
def readHigh (low : Char) (text : List Char) : Except Fault (Char × List Char) :=
  match text with
  | '-' :: ']' :: _ => .ok (low, text)
  | '-' :: rest => readChar rest
  | _ => .ok (low, text)

/-- Reads one range of a class. -/
def readRange (text : List Char) : Except Fault ((Char × Char) × List Char) :=
  match readChar text with
  | .error f => .error f
  | .ok (low, rest) =>
    match readHigh low rest with
    | .error f => .error f
    | .ok (high, left) =>
      if high < low then .error ⟨.invalidRange low high, left⟩ else .ok ((low, high), left)

theorem length_readHigh {low c : Char} {text rest : List Char}
    (h : readHigh low text = .ok (c, rest)) : rest.length ≤ text.length := by
  unfold readHigh at h
  split at h
  · simp_all
  · exact Nat.le_succ_of_le (Nat.le_of_lt (length_readChar h))
  · simp_all

theorem length_readRange {text rest : List Char} {r : Char × Char}
    (h : readRange text = .ok (r, rest)) : rest.length < text.length := by
  unfold readRange at h
  split at h
  · exact nomatch h
  · next hc =>
    split at h
    · exact nomatch h
    · next hh =>
      split at h
      · exact nomatch h
      · simp only [Except.ok.injEq, Prod.mk.injEq] at h
        obtain ⟨-, rfl⟩ := h
        exact Nat.lt_of_le_of_lt (length_readHigh hh) (length_readChar hc)

/-- The ranges up to the closing bracket, and what follows it. `start` is the
place of the opening bracket. -/
def readRanges (start text : List Char) : Except Fault (List (Char × Char) × List Char) :=
  match text with
  | [] => .error ⟨.unterminatedClass, start⟩
  | ']' :: after => .ok ([], after)
  | c :: after =>
    match h : readRange (c :: after) with
    | .error f => .error f
    | .ok (r, rest) =>
      have := length_readRange h
      (readRanges start rest).map fun (rs, left) => (r :: rs, left)
termination_by text.length
decreasing_by assumption

theorem length_readRanges {start text rest : List Char} {rs : List (Char × Char)}
    (h : readRanges start text = .ok (rs, rest)) : rest.length < text.length := by
  fun_induction readRanges start text generalizing rs rest with
  | case1 => exact nomatch h
  | case2 after => simp_all
  | case3 => exact nomatch h
  | case4 c after hc r left hr hl ih =>
    cases hb : readRanges start left with
    | error f => simp [hb, Except.map] at h
    | ok p =>
      have := ih hb
      simp_all [Except.map]
      omega

/-- The characters of a class after its caret, if it has one. -/
def classBody : List Char → Bool × List Char
  | '^' :: rest => (true, rest)
  | text => (false, text)

/-- Reads a character class, from behind its opening bracket on. -/
def readClass (text : List Char) : Except Fault (CharSet × List Char) :=
  let (negated, body) := classBody text
  match readRanges ('[' :: text) body with
  | .error f => .error f
  | .ok ([], _) => .error ⟨.emptyClass, '[' :: text⟩
  | .ok (ranges, rest) => .ok (⟨ranges, negated⟩, rest)

theorem length_classBody_le (text : List Char) : (classBody text).2.length ≤ text.length := by
  unfold classBody
  split <;> simp

theorem length_readClass_le {text rest : List Char} {set : CharSet}
    (h : readClass text = .ok (set, rest)) : rest.length ≤ text.length := by
  unfold readClass at h
  simp only at h
  split at h
  · exact nomatch h
  · exact nomatch h
  · next hb =>
    simp only [Except.ok.injEq, Prod.mk.injEq] at h
    obtain ⟨-, rfl⟩ := h
    exact Nat.le_trans (Nat.le_of_lt (length_readRanges hb)) (length_classBody_le text)

end Keymap.Notation
