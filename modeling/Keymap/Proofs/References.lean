-- Texts with references. Pieces that are written down are cut into the same pieces again, as long
-- as no number runs into what comes after it, and this is kept when such texts are put into a
-- template. So it does not matter whether values are put into a text early or late.
import Keymap.Proofs.Numerals
import Keymap.Proofs.TemplatePieces
import Mathlib.Data.List.Forall2
import Mathlib.Data.List.Infix
import Mathlib.Tactic.Choose

namespace Keymap.Template

/-! ## Pieces as text -/

/-- How a piece is written in a template. -/
def Piece.written : Piece → List Char
  | .char c => [c]
  | .arg n => '$' :: Nat.toDigits 10 n

/-- A number that comes right before the piece ends there. -/
def Piece.Separates : Piece → Prop
  | .char c => Text.isWordChar c = false
  | .arg _ => False

/-- There is no dollar but those of references, and no number runs into what comes after it. -/
inductive Spaced : List Piece → Prop
  | nil : Spaced []
  | char {c : Char} {ps : List Piece} (hc : c ≠ '$') (h : Spaced ps) : Spaced (.char c :: ps)
  | arg {n : Nat} {ps : List Piece} (hn : ∀ p ∈ ps.head?, p.Separates) (h : Spaced ps) :
    Spaced (.arg n :: ps)

/-- The text of the pieces. -/
def write (ps : List Piece) : String := String.ofList (ps.flatMap Piece.written)

variable {ps qs : List Piece} {c : Char} {n : Nat}

/-! ## Reading what was written -/

theorem isWordChar_of_isDigit (h : c.isDigit = true) : Text.isWordChar c = true := by
  simp [Text.isWordChar, Char.isAlphanum, h]

theorem readIndex_toDigits (hn : n < indexLimit) : readIndex (Nat.toDigits 10 n) = some n := by
  unfold readIndex
  rw [Text.isNumeral_toDigits, Text.readDigits_toDigits]
  simp [hn]

theorem head?_ne_dollar {digits : List Char} (h : ∀ c ∈ digits, Text.isWordChar c = true)
    (hne : digits ≠ []) (rest : List Char) : (digits ++ rest).head? ≠ some '$' := by
  cases digits with
  | nil => exact absurd rfl hne
  | cons c digits =>
    rintro ⟨⟩
    exact absurd (h '$' List.mem_cons_self) (Bool.not_eq_true _ ▸ isWordChar_dollar)

/-- A numeral is read up to the character that separates it. -/
theorem pieces_numeral (hn : n < indexLimit) {rest : List Char}
    (hrest : ∀ c ∈ rest.head?, Text.isWordChar c = false) :
    pieces ('$' :: (Nat.toDigits 10 n ++ rest)) = .arg n :: pieces rest := by
  have hdigits : ∀ c ∈ Nat.toDigits 10 n, Text.isWordChar c = true := fun c hc =>
    isWordChar_of_isDigit (Nat.isDigit_of_mem_toDigits (by decide) (by decide) hc)
  have htake : rest.takeWhile Text.isWordChar = [] := by
    cases rest with
    | nil => rfl
    | cons c rest => rw [List.takeWhile_cons_of_neg (by simp [hrest c rfl])]
  have hdrop : rest.dropWhile Text.isWordChar = rest := by
    cases rest with
    | nil => rfl
    | cons c rest => rw [List.dropWhile_cons_of_neg (by simp [hrest c rfl])]
  rw [pieces_arg (head?_ne_dollar hdigits Nat.toDigits_ne_nil rest) (n := n)]
  · rw [List.dropWhile_append_of_pos hdigits, hdrop]
  · rw [List.takeWhile_append_of_pos hdigits, htake, List.append_nil, readIndex_toDigits hn]

/-- What separates a number from what comes after it is a character. -/
theorem head?_written (h : ∀ p ∈ ps.head?, p.Separates) :
    ∀ c ∈ (ps.flatMap Piece.written).head?, Text.isWordChar c = false := by
  cases ps with
  | nil => simp
  | cons p ps =>
    cases p with
    | char c => simpa [Piece.written, Piece.Separates] using h
    | arg n => exact (h _ rfl).elim

/-- Pieces that are written down are cut again where they were. -/
theorem pieces_written (h : Spaced ps) (hlt : ∀ n, .arg n ∈ ps → n < indexLimit) :
    pieces (ps.flatMap Piece.written) = ps := by
  induction h with
  | nil => exact pieces_nil
  | @char c ps hc h ih =>
    rw [List.flatMap_cons, Piece.written, List.singleton_append, pieces_char hc,
      ih fun n hn => hlt n (List.mem_cons_of_mem _ hn)]
  | @arg n ps hn h ih =>
    rw [List.flatMap_cons, Piece.written, List.cons_append,
      pieces_numeral (hlt n List.mem_cons_self) (head?_written hn),
      ih fun m hm => hlt m (List.mem_cons_of_mem _ hm)]

theorem expand_write (h : Spaced ps) (hlt : ∀ n, .arg n ∈ ps → n < indexLimit)
    (args : List String) : expand (write ps) args = fill ps args := by
  rw [expand_eq, write, String.toList_ofList, pieces_written h hlt]

/-! ## Templates that are regular -/

/-- Each dollar begins a reference, and what comes after the reference is no dollar. -/
def Regular (template : String) : Prop :=
  ∀ s ∈ template.toList.tails, s.head? = some '$' →
    (readIndex (s.tail.takeWhile Text.isWordChar)).isSome
      ∧ (s.tail.dropWhile Text.isWordChar).head? ≠ some '$'

instance (template : String) : Decidable (Regular template) :=
  inferInstanceAs (Decidable (∀ s ∈ template.toList.tails, s.head? = some '$' →
    (readIndex (s.tail.takeWhile Text.isWordChar)).isSome
      ∧ (s.tail.dropWhile Text.isWordChar).head? ≠ some '$'))

/-- The first piece of what comes after a word separates a number before it. -/
theorem separates_of_mem_head? {rest : List Char}
    (h : (rest.dropWhile Text.isWordChar).head? ≠ some '$') :
    ∀ p ∈ (pieces (rest.dropWhile Text.isWordChar)).head?, p.Separates := by
  cases hs : rest.dropWhile Text.isWordChar with
  | nil => simp [pieces_nil]
  | cons c s =>
    have hc : c ≠ '$' := by
      rintro rfl
      exact h (by rw [hs]; rfl)
    have hword := List.head?_dropWhile_not Text.isWordChar rest
    rw [hs] at hword
    simpa [pieces_char hc, Piece.Separates] using hword

/-- The pieces of a regular template are spaced. -/
theorem Regular.spaced_pieces {template : String} (h : Regular template) :
    Spaced (pieces template.toList) := by
  simp only [Regular, List.mem_tails] at h
  generalize template.toList = s at h
  fun_induction pieces s with
  | case1 => exact .nil
  | case2 rest ih =>
    obtain ⟨hread, -⟩ := h _ (List.suffix_refl _) rfl
    rw [List.tail_cons, List.takeWhile_cons_of_neg (by simp [isWordChar_dollar])] at hread
    exact absurd hread (by decide)
  | case3 rest hrest n hn _ ih =>
    obtain ⟨-, hhead⟩ := h _ (List.suffix_refl _) rfl
    have hsuffix := (List.dropWhile_suffix Text.isWordChar).trans (List.suffix_cons '$' rest)
    exact .arg (separates_of_mem_head? hhead) (ih fun s hs => h s (hs.trans hsuffix))
  | case4 rest hrest hn ih =>
    obtain ⟨hread, -⟩ := h _ (List.suffix_refl _) rfl
    simp [hn] at hread
  | case5 c rest hc hc' ih =>
    refine .char ?_ (ih fun s hs => h s (hs.trans (List.suffix_cons c rest)))
    rintro rfl
    exact hc' rfl

/-! ## Texts in templates -/

/-- Pieces in the places of the references. -/
def Piece.subst (σ : Nat → List Piece) : Piece → List Piece
  | .char c => [.char c]
  | .arg n => σ n

theorem Spaced.append (h : Spaced ps) (hq : Spaced qs) (hsep : ∀ p ∈ qs.head?, p.Separates) :
    Spaced (ps ++ qs) := by
  induction h with
  | nil => exact hq
  | char hc _ ih => exact .char hc ih
  | @arg n ps hn _ ih =>
    refine .arg ?_ ih
    cases ps with
    | nil => exact hsep
    | cons p ps => exact hn

/-- What comes after a reference still separates it when pieces are put into the template. -/
theorem separates_subst (σ : Nat → List Piece) (h : ∀ p ∈ ps.head?, p.Separates) :
    ∀ p ∈ (ps.flatMap (Piece.subst σ)).head?, p.Separates := by
  cases ps with
  | nil => simp
  | cons p ps =>
    cases p with
    | char c => simpa [Piece.subst] using h
    | arg n => exact (h _ rfl).elim

theorem Spaced.subst (h : Spaced ps) {σ : Nat → List Piece} (hσ : ∀ n, Spaced (σ n)) :
    Spaced (ps.flatMap (Piece.subst σ)) := by
  induction h with
  | nil => exact .nil
  | char hc _ ih => exact .char hc ih
  | arg hn _ ih => exact (hσ _).append ih (separates_subst σ hn)

/-- Where characters stand for themselves in a text of pieces, putting such texts into a template
gives the text of the pieces that are put in. -/
theorem fill_subst {f : Piece → List Char} (hchar : ∀ c, f (.char c) = [c])
    {σ : Nat → List Piece} {args : List String}
    (hσ : ∀ n, args[n]?.getD "" = String.ofList ((σ n).flatMap f)) :
    fill ps args = String.ofList ((ps.flatMap (Piece.subst σ)).flatMap f) := by
  unfold fill
  rw [List.flatMap_assoc]
  congr 1
  apply List.flatMap_congr
  rintro (c | n) -
  · simp [Piece.expand, Piece.subst, hchar]
  · simp [Piece.expand, Piece.subst, hσ n]

/-! ## Values that are put in later -/

/-- The one text has references to the values where the other has the values. -/
def Defers (values : List String) (text filled : String) : Prop :=
  ∃ ps, Spaced ps ∧ (∀ n, .arg n ∈ ps → n < values.length)
    ∧ text = write ps ∧ filled = fill ps values

variable {values : List String} {text filled : String}

theorem Defers.empty (values : List String) : Defers values "" "" :=
  ⟨[], .nil, by simp, rfl, rfl⟩

/-- A reference to a value defers it. -/
theorem defers_reference (values : List String) (value : String) :
    Defers (values ++ [value]) ("$" ++ toString values.length) value := by
  refine ⟨[.arg values.length], .arg (by simp) .nil, by simp, ?_, by simp [fill, Piece.expand]⟩
  unfold write
  rw [List.flatMap_singleton, Piece.written, String.ofList_cons]
  rfl

/-- Later values leave the earlier ones where they are. -/
theorem Defers.append (h : Defers values text filled) (later : List String) :
    Defers (values ++ later) text filled := by
  obtain ⟨ps, hps, hlt, rfl, rfl⟩ := h
  refine ⟨ps, hps, fun n hn => ?_, rfl, ?_⟩
  · rw [List.length_append]
    exact Nat.lt_add_right _ (hlt n hn)
  · exact fill_congr fun n hn => by rw [List.getElem?_append_left (hlt n hn)]

theorem defers_getD {texts args : List String} (h : List.Forall₂ (Defers values) texts args)
    (n : Nat) : Defers values (texts[n]?.getD "") (args[n]?.getD "") := by
  induction h generalizing n with
  | nil => exact .empty values
  | cons hd _ ih =>
    cases n with
    | zero => exact hd
    | succ n => exact ih n

/-- A regular template may be filled with deferring texts, and it defers the same values. -/
theorem Defers.expand {template : String} (h : Regular template) {texts args : List String}
    (hargs : List.Forall₂ (Defers values) texts args) :
    Defers values (expand template texts) (expand template args) := by
  choose σ hσ hlt htext hfilled using defers_getD hargs
  rw [Template.expand_eq, Template.expand_eq]
  refine ⟨(pieces template.toList).flatMap (Piece.subst σ), h.spaced_pieces.subst hσ, ?_,
    fill_subst (fun _ => rfl) htext, fill_subst (fun _ => rfl) hfilled⟩
  intro n hn
  obtain ⟨p, -, hp⟩ := List.mem_flatMap.mp hn
  cases p with
  | char c => cases List.mem_singleton.mp hp
  | arg m => exact hlt m n hp

/-- In the end the values are put in. -/
theorem Defers.expand_eq (h : Defers values text filled) (hlt : values.length ≤ indexLimit) :
    Template.expand text values = filled := by
  obtain ⟨ps, hps, hargs, rfl, rfl⟩ := h
  exact expand_write hps (fun n hn => Nat.lt_of_lt_of_le (hargs n hn) hlt) values

end Keymap.Template
