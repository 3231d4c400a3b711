-- Both scans of a template see the same references. A template is cut into pieces here: what is
-- counted and what is put together are folds over its pieces, whatever a scan has gathered before.
import Keymap.Template
import Mathlib.Data.List.Basic

namespace Keymap.Template

/-! ## Pieces -/

/-- A piece of a template. -/
inductive Piece where
  /-- A character that stands for itself. -/
  | char (c : Char)
  /-- The argument with this index. -/
  | arg (index : Nat)
deriving DecidableEq

/-- What follows a word is no longer than the text that begins with it. -/
theorem length_afterWord_le (s : List Char) :
    (s.dropWhile Text.isWordChar).length ≤ s.length :=
  (List.dropWhile_suffix Text.isWordChar).length_le

/-- Cuts a template into pieces, one character after the other. A word after a dollar is read as a
whole. -/
def pieces : List Char → List Piece
  | [] => []
  | '$' :: '$' :: rest => .char '$' :: pieces rest
  | '$' :: rest =>
    match readIndex (rest.takeWhile Text.isWordChar) with
    | some n =>
      have := length_afterWord_le rest
      .arg n :: pieces (rest.dropWhile Text.isWordChar)
    | none => .char '$' :: pieces rest
  | c :: rest => .char c :: pieces rest
termination_by s => s.length
decreasing_by all_goals grind

variable {text rest after : List Char} {c : Char} {n : Nat}

/-- No index is as large as the limit. -/
theorem lt_indexLimit {s : List Char} (h : .arg n ∈ pieces s) : n < indexLimit := by
  fun_induction pieces s with
  | case1 => cases h
  | case2 rest ih => exact ih (by simpa using h)
  | case3 rest hrest k hk _ ih =>
    rcases List.mem_cons.mp h with hn | h
    · obtain rfl := Piece.arg.inj hn
      exact lt_of_readIndex hk
    · exact ih h
  | case4 rest hrest hk ih => exact ih (by simpa using h)
  | case5 c rest hc hc' ih => exact ih (by simpa using h)

/-! ## Where a text is cut -/

theorem pieces_nil : pieces [] = [] := by
  rw [pieces]

theorem pieces_char (hc : c ≠ '$') (rest : List Char) :
    pieces (c :: rest) = .char c :: pieces rest := by
  rw [pieces]
  all_goals simp_all

theorem pieces_dollars (rest : List Char) :
    pieces ('$' :: '$' :: rest) = .char '$' :: pieces rest := by
  rw [pieces]

theorem pieces_arg (hrest : rest.head? ≠ some '$')
    (hn : readIndex (rest.takeWhile Text.isWordChar) = some n) :
    pieces ('$' :: rest) = .arg n :: pieces (rest.dropWhile Text.isWordChar) := by
  rw [pieces]
  · simp [hn]
  · rintro rest' rfl
    simp at hrest

/-- A dollar that begins no reference stands for itself. -/
theorem pieces_dollar (hrest : rest.head? ≠ some '$')
    (hn : readIndex (rest.takeWhile Text.isWordChar) = none) :
    pieces ('$' :: rest) = .char '$' :: pieces rest := by
  rw [pieces]
  · simp [hn]
  · rintro rest' rfl
    simp at hrest

theorem head?_ne_of_forall_ne (h : ∀ after, rest = '$' :: after → False) :
    rest.head? ≠ some '$' := by
  intro hc
  obtain ⟨after, hafter⟩ := List.head?_eq_some_iff.mp hc
  exact h after hafter

/-! ## What a scan meets -/

theorem isWordChar_dollar : Text.isWordChar '$' = false := by decide +kernel

theorem eq_dollar_of_fromDollar (h : fromDollar text = c :: rest) : c = '$' := by
  have hhead := List.head?_dropWhile_not (· ≠ '$') text
  rw [← fromDollar, h] at hhead
  simpa using hhead

/-- Up to the first dollar, each character stands for itself. -/
theorem pieces_fromDollar (text : List Char) :
    pieces text = (beforeDollar text).map .char ++ pieces (fromDollar text) := by
  unfold beforeDollar fromDollar
  induction text with
  | nil => rfl
  | cons c text ih =>
    by_cases hc : c = '$'
    · simp [hc]
    · rw [pieces_char hc, ih]
      simp [hc]

/-- Two dollars are no reference, as there is no word between them. -/
theorem reference?_dollars (rest : List Char) : reference? ('$' :: '$' :: rest) = none := by
  simp [reference?, isWordChar_dollar, readIndex, Text.isNumeral]

theorem pieces_of_reference? (h : reference? ('$' :: rest) = some (n, after)) :
    pieces ('$' :: rest) = .arg n :: pieces after := by
  have hrest : rest.head? ≠ some '$' := by
    refine head?_ne_of_forall_ne ?_
    rintro more rfl
    rw [reference?_dollars] at h
    cases h
  obtain ⟨index, hread, hpair⟩ := Option.map_eq_some_iff.mp h
  obtain ⟨rfl, rfl⟩ := Prod.mk.inj hpair
  exact pieces_arg hrest hread

theorem pieces_of_no_reference (hrest : ∀ after, rest = '$' :: after → False)
    (h : reference? ('$' :: rest) = none) : pieces ('$' :: rest) = .char '$' :: pieces rest :=
  pieces_dollar (head?_ne_of_forall_ne hrest) (Option.map_eq_none_iff.mp h)

/-! ## The scan that counts -/

/-- Counts a piece: one past the highest index so far, and whether the index zero was met. -/
def Piece.tally (t : Nat × Bool) : Piece → Nat × Bool
  | .char _ => t
  | .arg index => (max t.1 (index + 1), t.2 || index == 0)

theorem tally_chars (t : Nat × Bool) (cs : List Char) :
    (cs.map Piece.char).foldl Piece.tally t = t := by
  induction cs with
  | nil => rfl
  | cons c cs ih => exact ih

theorem tally_fromDollar (t : Nat × Bool) (text : List Char) :
    (pieces text).foldl Piece.tally t = (pieces (fromDollar text)).foldl Piece.tally t := by
  rw [pieces_fromDollar, List.foldl_append, tally_chars]

/-- The scan counts the pieces of the text, one after the other. -/
theorem countFrom_eq (n : Nat) (zero : Bool) (text : List Char) :
    countFrom n zero text = (pieces text).foldl Piece.tally (n, zero) := by
  fun_induction countFrom n zero text with
  | case1 n zero text h => rw [tally_fromDollar, h, pieces_nil, List.foldl_nil]
  | case2 n zero text rest h ih =>
    rw [tally_fromDollar, h, pieces_dollars, List.foldl_cons, Piece.tally, ih]
  | case3 n zero text c rest hrest h index after href ih =>
    obtain rfl := eq_dollar_of_fromDollar h
    rw [tally_fromDollar, h, pieces_of_reference? href, List.foldl_cons, Piece.tally, ih]
  | case4 n zero text c rest hrest h href ih =>
    obtain rfl := eq_dollar_of_fromDollar h
    rw [tally_fromDollar, h, pieces_of_no_reference (fun after => hrest after rfl) href,
      List.foldl_cons, Piece.tally, ih]

/-- The number of arguments and the use of the first one are counted over the pieces. -/
theorem counts_eq (template : String) :
    counts template = (pieces template.toList).foldl Piece.tally (0, false) :=
  countFrom_eq 0 false template.toList

/-! ## The scan that expands -/

/-- What a piece stands for. A missing argument is empty. -/
def Piece.expand (args : List String) : Piece → List Char
  | .char c => [c]
  | .arg n => (args[n]?.getD "").toList

/-- The text of the pieces, with arguments in the places of the references. -/
def fill (ps : List Piece) (args : List String) : String :=
  String.ofList (ps.flatMap (Piece.expand args))

variable {args args' : List String} {ps : List Piece}

theorem fill_nil (args : List String) : fill [] args = "" := rfl

theorem fill_append (ps qs : List Piece) (args : List String) :
    fill (ps ++ qs) args = fill ps args ++ fill qs args := by
  rw [fill, List.flatMap_append, String.ofList_append, fill, fill]

theorem fill_cons (p : Piece) (ps : List Piece) (args : List String) :
    fill (p :: ps) args = String.ofList (p.expand args) ++ fill ps args := by
  rw [fill, List.flatMap_cons, String.ofList_append, fill]

theorem fill_chars (cs : List Char) (args : List String) :
    fill (cs.map .char) args = String.ofList cs := by
  induction cs with
  | nil => rfl
  | cons c cs ih =>
    rw [List.map_cons, fill_cons, ih, Piece.expand, ← String.ofList_append, List.singleton_append]

/-- Only the arguments of the pieces make a difference. -/
theorem fill_congr (h : ∀ n, .arg n ∈ ps → args[n]?.getD "" = args'[n]?.getD "") :
    fill ps args = fill ps args' := by
  unfold fill
  congr 1
  apply List.flatMap_congr
  rintro (c | n) hp
  · rfl
  · exact congrArg String.toList (h n hp)

theorem fill_fromDollar (text : List Char) (args : List String) :
    fill (pieces text) args
      = String.ofList (beforeDollar text) ++ fill (pieces (fromDollar text)) args := by
  rw [pieces_fromDollar, fill_append, fill_chars]

/-- The scan puts what the pieces of the text stand for behind what there was before. -/
theorem expandFrom_eq (args : List String) (out : String) (text : List Char) :
    expandFrom args out text = out ++ fill (pieces text) args := by
  fun_induction expandFrom args out text with
  | case1 out text out' h =>
    rw [fill_fromDollar, h, pieces_nil, fill_nil, String.append_empty]
  | case2 out text out' rest h ih =>
    rw [ih, fill_fromDollar text, h, pieces_dollars, fill_cons, ← String.append_assoc,
      ← String.append_assoc]
    rfl
  | case3 out text out' c rest hrest h index after href ih =>
    obtain rfl := eq_dollar_of_fromDollar h
    rw [ih, fill_fromDollar text, h, pieces_of_reference? href, fill_cons, Piece.expand,
      String.ofList_toList, ← String.append_assoc, ← String.append_assoc]
  | case4 out text out' c rest hrest h href ih =>
    obtain rfl := eq_dollar_of_fromDollar h
    rw [ih, fill_fromDollar text, h, pieces_of_no_reference (fun after => hrest after rfl) href,
      fill_cons, ← String.append_assoc, ← String.append_assoc]
    rfl

/-- What a template expands to is put together from its pieces. -/
theorem expand_eq (template : String) (args : List String) :
    expand template args = fill (pieces template.toList) args := by
  rw [expand, expandFrom_eq, String.empty_append]

end Keymap.Template
