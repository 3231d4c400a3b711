-- Places in a text. What the readers of literals and classes leave of a text is an end of it, and
-- so is the place of what they object to. So every place has a position between two characters.
import Keymap.Notation
import Keymap.Proofs.Words
import Mathlib.Data.String.Basic

namespace Keymap.Notation

/-! ## Positions -/

/-- The byte is the first one of a character of the text, or the text ends before it. -/
abbrev IsPosition (text : String) (n : Nat) : Prop := String.Pos.Raw.IsValid text ⟨n⟩

theorem byteLength_eq (text : List Char) : byteLength text = (String.ofList text).utf8ByteSize := by
  induction text with
  | nil => rfl
  | cons c rest ih =>
    rw [byteLength, ih, String.ofList_cons, String.utf8ByteSize_append,
      String.utf8ByteSize_singleton]

theorem byteLength_eq_utf8Len (text : List Char) : byteLength text = String.utf8Len text := by
  rw [byteLength_eq, String.utf8ByteSize_ofList]

theorem byteLength_append (text more : List Char) :
    byteLength (text ++ more) = byteLength text + byteLength more := by
  simp only [byteLength_eq, String.ofList_append, String.utf8ByteSize_append]

variable {text place place' : List Char}

theorem position_append (before place : List Char) :
    position (before ++ place) place = byteLength before := by
  rw [position, byteLength_append, Nat.add_sub_cancel]

/-- The place of an end of the text has a position. -/
theorem isPosition_of_suffix {text : String} {place : List Char} (h : place <:+ text.toList) :
    IsPosition text (position text.toList place) := by
  obtain ⟨before, htext⟩ := h
  rw [IsPosition, String.Pos.Raw.isValid_iff_exists_append, ← htext, position_append]
  refine ⟨String.ofList before, String.ofList place, ?_, ?_⟩
  · rw [← String.ofList_append, htext, String.ofList_toList]
  · rw [byteLength_eq]
    rfl

theorem length_le_byteLength (text : List Char) : text.length ≤ byteLength text := by
  induction text with
  | nil => exact Nat.le_refl _
  | cons c rest ih =>
    have hpos := c.utf8Size_pos
    rw [List.length_cons, byteLength]
    omega

/-- A place further on by some characters is further on by as many bytes at least. -/
theorem position_add_le {n : Nat} (hplace : place <:+ text) (h : place' <:+ place)
    (hn : place'.length + n ≤ place.length) :
    position text place + n ≤ position text place' := by
  obtain ⟨before, rfl⟩ := hplace
  obtain ⟨between, rfl⟩ := h
  have hle := length_le_byteLength between
  rw [position_append, ← List.append_assoc, position_append, byteLength_append]
  rw [List.length_append] at hn
  omega

/-! ## Slices -/

/-- The character at a place is the one at its position in the text. -/
theorem get_position {text : String} {c : Char} {rest : List Char}
    (h : c :: rest <:+ text.toList) :
    String.Pos.Raw.get text ⟨position text.toList (c :: rest)⟩ = c := by
  obtain ⟨before, htext⟩ := h
  have hget := String.get_of_valid before (c :: rest)
  rw [htext, String.ofList_toList] at hget
  rw [← htext, position_append, byteLength_eq_utf8Len, hget, List.headD_cons]

/-- Behind a character, the position is further on by the bytes of the character. -/
theorem position_tail {c : Char} {rest : List Char} (h : c :: rest <:+ text) :
    position text rest = position text (c :: rest) + c.utf8Size := by
  obtain ⟨before, rfl⟩ := h
  rw [position_append, List.append_cons, position_append, byteLength_append]
  rfl

theorem position_arrow {rest : List Char} (h : '<' :: '-' :: rest <:+ text) :
    position text rest = position text ('<' :: '-' :: rest) + 2 := by
  rw [position_tail ((List.suffix_cons '<' _).trans h), position_tail h]
  rfl

/-- What stands in the text from one byte up to another. Both are positions in the text, and the
second is not before the first, nor behind the end. -/
structure IsSlice (text : String) (m n : Nat) (slice : String) : Prop where
  start : IsPosition text m
  stop : IsPosition text n
  le : m ≤ n
  le_size : n ≤ text.utf8ByteSize
  extract : String.Pos.Raw.extract text ⟨m⟩ ⟨n⟩ = slice

/-- What is between two places of the text is a slice of it. -/
theorem isSlice_between {text : String} {between rest : List Char}
    (h : between ++ rest <:+ text.toList) :
    IsSlice text (position text.toList (between ++ rest)) (position text.toList rest)
      (String.ofList between) := by
  have hrest := List.suffix_append between rest
  have hstop := isPosition_of_suffix (hrest.trans h)
  refine ⟨isPosition_of_suffix h, hstop, ?_, hstop.le_rawEndPos, ?_⟩
  · exact position_add_le (n := 0) h hrest hrest.length_le
  · obtain ⟨before, htext⟩ := h
    have hextract := String.extract_of_valid before between rest
    rw [List.append_assoc, htext, String.ofList_toList, ← String.utf8Len_append] at hextract
    rw [← hextract, ← htext, position_append, ← List.append_assoc, position_append,
      byteLength_eq_utf8Len, byteLength_eq_utf8Len]

/-- What is left at a place of the text is the slice up to the end. -/
theorem isSlice_place {text : String} {place : List Char} (h : place <:+ text.toList) :
    IsSlice text (position text.toList place) text.utf8ByteSize (String.ofList place) := by
  have hend : position text.toList [] = text.utf8ByteSize := by
    rw [position, byteLength_eq, String.ofList_toList]
    rfl
  have hslice := @isSlice_between text place []
  rw [List.append_nil, hend] at hslice
  exact hslice h

/-! ## Ends of a text -/

variable {α : Type}

/-- What is left of the place is an end of it, and so is what is objected to. -/
inductive Ends (place : List Char) : Except Fault (α × List Char) → Prop
  | read {a : α} {rest : List Char} (h : rest <:+ place) : Ends place (.ok (a, rest))
  | fault {f : Fault} (h : f.place <:+ place) : Ends place (.error f)

namespace Ends

variable {x : Except Fault (α × List Char)} (h : Ends place x)
include h

theorem rest_suffix {a : α} {rest : List Char} (hx : x = .ok (a, rest)) : rest <:+ place := by
  subst hx
  cases h with
  | read h => exact h

theorem fault_suffix {f : Fault} (hx : x = .error f) : f.place <:+ place := by
  subst hx
  cases h with
  | fault h => exact h

theorem mono (hs : place <:+ place') : Ends place' x := by
  cases h with
  | read h => exact .read (h.trans hs)
  | fault h => exact .fault (h.trans hs)

theorem map {β : Type} (f : α → β) : Ends place (x.map fun (a, rest) => (f a, rest)) := by
  cases h with
  | read h => exact .read h
  | fault h => exact .fault h

end Ends

theorem suffix_skipBlanks (inComment : Bool) (text : List Char) :
    skipBlanks inComment text <:+ text := by
  fun_induction skipBlanks inComment text with
  | case1 => exact List.suffix_refl _
  | case2 c rest ih => exact ih.trans (List.suffix_cons c rest)
  | case3 inComment c rest _ _ ih => exact ih.trans (List.suffix_cons c rest)
  | case4 inComment rest _ _ ih => exact ih.trans (List.suffix_cons '#' rest)
  | case5 => exact List.suffix_refl _

/-! ## Literals and classes -/

theorem ends_readChar (text : List Char) : Ends text (readChar text) := by
  unfold readChar
  split
  · exact .fault List.nil_suffix
  · exact .fault List.nil_suffix
  · next c rest =>
    split
    · exact .read ((List.suffix_cons c rest).trans (List.suffix_cons '\\' _))
    · split
      · exact .fault (List.suffix_refl _)
      · exact .read ((List.drop_suffix _ _).trans (List.suffix_cons '\\' _))
  · next c rest _ _ => exact .read (List.suffix_cons c rest)

/-- A reader that takes one thing after the other leaves an end of the text, and objects to what it
takes or, where the text ends too early, to where it has begun. -/
theorem Loops.ends {β : Type} {stop : Char} {step : List Char → Except Fault (β × List Char)}
    {read : List Char → List Char → Except Fault (List β × List Char)}
    (h : Loops stop step read) (hnil : ∀ start, ∃ problem, read start [] = .error ⟨problem, start⟩)
    (hlt : ∀ {text rest b}, step text = .ok (b, rest) → rest.length < text.length)
    (hstep : ∀ text, Ends text (step text)) {start text : List Char} (hs : text <:+ start) :
    Ends start (read start text) := by
  match text with
  | [] =>
    obtain ⟨problem, hproblem⟩ := hnil start
    rw [hproblem]
    exact .fault (List.suffix_refl _)
  | c :: after =>
    by_cases hc : c = stop
    · subst hc
      rw [h.nil]
      exact .read ((List.suffix_cons c after).trans hs)
    · have hends := (hstep (c :: after)).mono hs
      cases hfirst : step (c :: after) with
      | error f =>
        rw [h.error hc hfirst]
        exact .fault (hends.fault_suffix hfirst)
      | ok x =>
        obtain ⟨b, rest⟩ := x
        rw [h.ok hc hfirst]
        exact (h.ends hnil hlt hstep (hends.rest_suffix hfirst)).map (b :: ·)
termination_by text.length
decreasing_by exact hlt hfirst

theorem ends_readQuoted (quote : Char) (text : List Char) :
    Ends (quote :: text) (readQuoted quote text) := by
  have hbody : Ends (quote :: text) (readQuotedBody quote (quote :: text) text) :=
    (loops_readQuotedBody quote).ends (fun _ => ⟨_, by rw [readQuotedBody]⟩) length_readChar
      ends_readChar (List.suffix_cons quote text)
  unfold readQuoted
  split
  · next hf => exact .fault (hbody.fault_suffix hf)
  · exact .fault (List.suffix_refl _)
  · next hread => exact .read (hbody.rest_suffix hread)

theorem ends_readHigh (low : Char) (text : List Char) : Ends text (readHigh low text) := by
  unfold readHigh
  split
  · exact .read (List.suffix_refl _)
  · exact (ends_readChar _).mono (List.suffix_cons '-' _)
  · exact .read (List.suffix_refl _)

theorem ends_readRange (text : List Char) : Ends text (readRange text) := by
  have hlow := ends_readChar text
  unfold readRange
  split
  · next hf => exact .fault (hlow.fault_suffix hf)
  · next low rest hread =>
    have hhigh := (ends_readHigh low rest).mono (hlow.rest_suffix hread)
    split
    · next hf => exact .fault (hhigh.fault_suffix hf)
    · next high left hread' =>
      have hleft := hhigh.rest_suffix hread'
      split
      · exact .fault hleft
      · exact .read hleft

theorem classBody_suffix (text : List Char) : (classBody text).2 <:+ text := by
  unfold classBody
  split
  · exact List.suffix_cons '^' _
  · exact List.suffix_refl _

theorem ends_readClass (text : List Char) : Ends ('[' :: text) (readClass text) := by
  have hbody := (classBody_suffix text).trans (List.suffix_cons '[' text)
  have hranges : Ends ('[' :: text) (readRanges ('[' :: text) (classBody text).2) :=
    loops_readRanges.ends (fun _ => ⟨_, by rw [readRanges]⟩) length_readRange ends_readRange hbody
  unfold readClass
  simp only
  split
  · next hf => exact .fault (hranges.fault_suffix hf)
  · exact .fault (List.suffix_refl _)
  · next hread => exact .read (hranges.rest_suffix hread)

end Keymap.Notation
