-- The canonical texts of matchers. A matcher that was read has a text of its own, and the three
-- ways to read a text, tried one after the other, do not take it for another matcher.
import Keymap.Proofs.Acceptance

namespace Keymap

namespace Descriptor

/-! ## The text of a mouse button -/

theorem readModifier_buttonName (b : MouseButton) :
    readModifier (buttonName b).toList = none := by
  cases b <;> decide

theorem readButton_buttonName (b : MouseButton) : readButton (buttonName b).toList = some b := by
  cases b <;> decide

theorem pieces_buttonName (b : MouseButton) :
    pieces (buttonName b).toList = [(buttonName b).toList] := by
  apply List.splitOn_eq_singleton
  cases b <;> decide

theorem readMouse_written (mods : Modifiers) (b : MouseButton) :
    readMouse (writeModifiers mods ++ (buttonName b).toList) = some (mods, b) := by
  have hnames := names_modifierNames mods
  have hmods : (modifierOrder.filter mods.has).foldl .add .empty = mods := of_filter_has mods
  rw [readMouse, writeModifiers_eq, pieces_heads hnames.plus_not_mem, pieces_buttonName,
    gatherMouse_names hnames, hmods]
  simp [gatherMouse, readModifier_buttonName, readButton_buttonName]

theorem plus_not_mem_of_sameName {text name : List Char} (hname : '+' ∉ name.map Char.toLower)
    (h : sameName text name = true) : '+' ∉ text := by
  intro hmem
  apply hname
  rw [← sameName_iff.mp h]
  exact List.mem_map_of_mem (f := Char.toLower) hmem

end Descriptor

theorem MouseButton.parse_format (mods : Modifiers) (b : MouseButton) :
    MouseButton.parse (b.format mods) = .ok (mods, b) := by
  rw [MouseButton.parse, MouseButton.format, String.toList_ofList, Descriptor.readMouse_written]

namespace Matcher

variable {codec : Codec} {text : String} {m : Matcher}

/-! ## Reading the text of a matcher -/

theorem plus_not_mem_of_named (h : named? text = some m) : '+' ∉ text.toList := by
  unfold named? at h
  split at h
  · next hsame => exact Descriptor.plus_not_mem_of_sameName (by decide) hsame
  · split at h
    · next hsame => exact Descriptor.plus_not_mem_of_sameName (by decide) hsame
    · split at h
      · next hsame => exact Descriptor.plus_not_mem_of_sameName (by decide) hsame
      · cases h

/-- The text of a mouse button is no name of another matcher. -/
theorem named_format_eq_none (mods : Modifiers) (b : MouseButton) :
    named? (b.format mods) = none := by
  apply Option.eq_none_iff_forall_ne_some.mpr
  intro m hm
  -- Without a plus there are no modifiers in front of the button.
  have hplus := plus_not_mem_of_named hm
  rw [MouseButton.format, String.toList_ofList, Descriptor.writeModifiers_eq] at hplus
  rw [MouseButton.format, Descriptor.writeModifiers_eq] at hm
  cases hfront : Descriptor.modifierNames mods with
  | nil =>
    have hnone : named? (Descriptor.buttonName b) = none := by cases b <;> decide
    rw [hfront] at hm
    change named? (String.ofList (Descriptor.buttonName b).toList) = some m at hm
    rw [String.ofList_toList, hnone] at hm
    cases hm
  | cons piece rest =>
    rw [hfront] at hplus
    simp [Descriptor.heads] at hplus

theorem parse_mouse_toText (codec : Codec) (b : MouseButton) (mods : Modifiers) :
    parse codec (mouse b mods).toText = .ok (.mouse b mods) := by
  rw [toText, parse, named_format_eq_none, MouseButton.parse_format]

/-- The text of a matcher that was read is read as the same matcher. -/
theorem parse_toText (h : parse codec text = .ok m) : parse codec m.toText = .ok m := by
  rcases cases_of_parse h with (rfl | rfl | rfl) | ⟨b, mods, rfl⟩ | ⟨press, hpress, rfl⟩
  · rfl
  · rfl
  · rfl
  · exact parse_mouse_toText codec b mods
  · obtain ⟨text', hformat, hagain⟩ := KeyPress.exists_format_of_parse hpress
    rw [toText, hformat]
    exact parse_eq_key_iff.mpr ⟨hagain, rfl⟩

/-- The canonical text of the matcher that a text is read as. -/
def canonical? (codec : Codec) (text : String) : Option String :=
  (parse codec text).toOption.map toText

theorem canonical_eq_some (h : parse codec text = .ok m) :
    canonical? codec text = some m.toText := by
  rw [canonical?, h]
  rfl

/-- A text that is read as a matcher and the canonical text of the matcher are read alike. So a
canonical text is its own canonical text, and two texts that are read are read as the same matcher
just when they have the same canonical text. -/
theorem a_canonical_text_stands_for_its_matcher (codec : Codec) :
    (∀ text m, parse codec text = .ok m → parse codec m.toText = .ok m)
      ∧ (∀ text canonical, canonical? codec text = some canonical →
        canonical? codec canonical = some canonical)
      ∧ ∀ text text' m m', parse codec text = .ok m → parse codec text' = .ok m' →
        (m = m' ↔ canonical? codec text = canonical? codec text') := by
  refine ⟨fun text m => parse_toText, ?_, ?_⟩
  · intro text canonical h
    cases hm : parse codec text with
    | error e =>
      rw [canonical?, hm] at h
      cases h
    | ok m =>
      rw [canonical_eq_some hm] at h
      cases h
      exact canonical_eq_some (parse_toText hm)
  · intro text text' m m' h h'
    rw [canonical_eq_some h, canonical_eq_some h', Option.some.injEq]
    constructor
    · exact congrArg toText
    · intro heq
      have hagain := parse_toText h
      rw [heq, parse_toText h'] at hagain
      exact (Except.ok.inj hagain).symm

/-- Ctrl+J counts as Enter, and modifiers may come in any order and in any case. -/
theorem two_texts_stand_for_alt_enter :
    let codec : Codec := { unifyEnter := true }
    let enter : Matcher := .key ⟨.named .enter, .of [.alt]⟩ codec
    parse codec "CTRL+j+alt" = .ok enter ∧ parse codec "alt+ENTER" = .ok enter
      ∧ parse codec enter.toText = .ok enter
      ∧ canonical? codec "CTRL+j+alt" = canonical? codec "alt+ENTER" := by
  intro codec enter
  have h : parse codec "CTRL+j+alt" = .ok enter := by decide +kernel
  have h' : parse codec "alt+ENTER" = .ok enter := by decide +kernel
  obtain ⟨hagain, -, hsame⟩ := a_canonical_text_stands_for_its_matcher codec
  exact ⟨h, h', hagain _ _ h, (hsame _ _ _ _ h h').mp rfl⟩

end Matcher

end Keymap
