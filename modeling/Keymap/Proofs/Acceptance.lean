-- Which keys the matcher of a descriptor accepts: those that stand for its own key. Where Ctrl+J
-- counts as Enter, a matcher for Enter with Ctrl accepts one more.
import Keymap.Matcher
import Keymap.Proofs.RoundTrip

namespace Keymap

namespace Descriptor

variable {ms ns : List Modifier} {code : KeyCode} {piece text : List Char} {name : String}

/-! ## Names of other events -/

/-- The names in descriptors of events that are no keys. -/
def otherNames : List String := ["paste", "resize", "any"] ++ mouseButtons.map buttonName

theorem mem_otherNames_of_button (b : MouseButton) : buttonName b ∈ otherNames := by
  cases b <;> decide

/-- What spells a key names nothing else. -/
theorem Spells.not_sameName (h : Spells code piece) (hname : name ∈ otherNames) :
    ¬ sameName piece name.toList = true := by
  have htable : ∀ key ∈ names, ∀ name ∈ otherNames,
      ¬ sameName key.toList name.toList = true := by
    decide
  intro hsame
  cases h with
  | char hc =>
    have hlength : ∀ name ∈ otherNames, name.toList.length ≠ 1 := by decide
    apply hlength name hname
    simpa using (congrArg List.length (sameName_iff.mp hsame)).symm
  | space hkey h =>
    rw [sameName_congr h] at hsame
    exact htable _ (mem_names_of_spaceNames hkey) name hname hsame
  | named hkey h =>
    rw [sameName_congr h] at hsame
    exact htable _ (mem_names_of_keyNames hkey) name hname hsame
  | function hf hlow hhigh =>
    have hfirst : ∀ name ∈ otherNames, (name.toList.map Char.toLower).head? ≠ some 'f' := by
      decide
    apply hfirst name hname
    rw [← sameName_iff.mp hsame, List.map_cons, List.head?_cons, toLower_eq_f_iff.mpr hf]

/-- Without a plus there is nothing but the key. -/
theorem Describes.spells (h : Describes ms code ns text) (hplus : '+' ∉ text) :
    Spells code text := by
  cases h with
  | plus hfront => simp at hplus
  | @key ms front back code piece hfront hpiece hback =>
    have hnil : front = [] := by
      cases front with
      | nil => rfl
      | cons p rest => simp [heads] at hplus
    have hnil' : back = [] := by
      cases back with
      | nil => rfl
      | cons p rest => simp [tails] at hplus
    simpa [hnil, hnil', heads, tails] using hpiece

/-- What describes a key names nothing else. -/
theorem Describes.not_sameName (h : Describes ms code ns text) (hname : name ∈ otherNames) :
    ¬ sameName text name.toList = true := by
  have htable : ∀ name ∈ otherNames, '+' ∉ name.toList.map Char.toLower := by decide
  intro hsame
  have hplus : '+' ∉ text := by
    intro hmem
    apply htable name hname
    rw [← sameName_iff.mp hsame]
    exact List.mem_map_of_mem (f := Char.toLower) hmem
  exact (h.spells hplus).not_sameName hname hsame

/-! ## Descriptors of keys and of mouse buttons -/

theorem gatherMouse_names {front : List (List Char)} (h : Names ms front)
    (rest : List (List Char)) (mods : Modifiers) :
    gatherMouse (front ++ rest) mods = gatherMouse rest (ms.foldl .add mods) := by
  induction h generalizing mods with
  | nil => rfl
  | cons hname _ ih =>
    simp only [List.cons_append, gatherMouse, readModifier_eq_some_iff.mpr hname]
    exact ih _

theorem Spells.readButton_eq_none (h : Spells code piece) : readButton piece = none := by
  apply Option.eq_none_iff_forall_ne_some.mpr
  intro b hb
  have hsame := List.find?_some (p := fun b => sameName piece (buttonName b).toList) hb
  exact h.not_sameName (mem_otherNames_of_button b) hsame

/-- What describes a key describes no mouse button. -/
theorem Describes.readMouse_eq_none (h : Describes ms code ns text) : readMouse text = none := by
  unfold readMouse
  cases h with
  | plus hfront =>
    rw [pieces_heads hfront.plus_not_mem, gatherMouse_names hfront]
    rfl
  | @key ms front back code piece hfront hpiece hback =>
    rw [pieces_key hfront hpiece hback, gatherMouse_names hfront]
    cases back with
    | nil => simp [gatherMouse, hpiece.readModifier_eq_none, hpiece.readButton_eq_none]
    | cons p rest => simp [gatherMouse, hpiece.readModifier_eq_none]

end Descriptor

namespace Matcher

variable {codec codec' : Codec} {press k : KeyPress} {text : String} {m : Matcher}

/-! ## Reading a matcher -/

/-- A matcher is read by its name, as a mouse button or as a key. -/
theorem cases_of_parse (h : parse codec text = .ok m) :
    (m = .paste ∨ m = .resize ∨ m = .any) ∨ (∃ button mods, m = .mouse button mods)
      ∨ ∃ press, KeyPress.parse codec text = .ok press ∧ m = .key press codec := by
  unfold parse at h
  split at h
  · next found hfound =>
    cases h
    left
    unfold named? at hfound
    split at hfound
    · exact .inl (Option.some.inj hfound).symm
    · split at hfound
      · exact .inr (.inl (Option.some.inj hfound).symm)
      · split at hfound
        · exact .inr (.inr (Option.some.inj hfound).symm)
        · cases hfound
  · split at h
    · next mods button _ =>
      cases h
      exact .inr (.inl ⟨button, mods, rfl⟩)
    · right
      right
      cases hpress : KeyPress.parse codec text with
      | error e =>
        rw [hpress] at h
        cases h
      | ok press =>
        rw [hpress] at h
        cases h
        exact ⟨press, rfl, rfl⟩

/-- A matcher for a key is read exactly where the key is. -/
theorem parse_eq_key_iff :
    parse codec text = .ok (.key press codec')
      ↔ KeyPress.parse codec text = .ok press ∧ codec' = codec := by
  constructor
  · intro h
    rcases cases_of_parse h with (h | h | h) | ⟨button, mods, h⟩ | ⟨press', hpress, h⟩
    · cases h
    · cases h
    · cases h
    · cases h
    · cases h
      exact ⟨hpress, rfl⟩
  · rintro ⟨hpress, rfl⟩
    obtain ⟨found, hread, -⟩ := Descriptor.parse_eq_ok_iff.mp hpress
    obtain ⟨ms, code, ns, hdescribes, -⟩ := Descriptor.exists_describes_of_readPieces hread
    have hnamed : named? text = none := by
      unfold named?
      rw [if_neg (hdescribes.not_sameName (by decide)),
        if_neg (hdescribes.not_sameName (by decide)),
        if_neg (hdescribes.not_sameName (by decide))]
    have hmouse : MouseButton.parse text = .error (.invalidKey text) := by
      unfold MouseButton.parse
      rw [hdescribes.readMouse_eq_none]
    unfold parse
    rw [hnamed, hmouse]
    simp only
    rw [hpress]
    rfl

/-! ## Accepting a key -/

/-- The matcher is for Enter with Ctrl, and the key is Ctrl+J with the same modifiers, which counts
as Enter without Ctrl. -/
def Oversteps (codec : Codec) (press k : KeyPress) : Prop :=
  codec.unifyEnter = true ∧ press.code = .named .enter ∧ press.mods.ctrl = true
    ∧ k = ⟨.char 'j', press.mods⟩

theorem isUnifiedEnter_iff :
    isUnifiedEnter press codec k = true
      ↔ codec.unifyEnter = true ∧ press.code = .named .enter
        ∧ k = ⟨.char 'j', press.mods.add .ctrl⟩ := by
  obtain ⟨code, mods⟩ := k
  simp [isUnifiedEnter, and_assoc]

theorem isSome_accept_iff :
    ((key press codec).accept? (.key k)).isSome
      ↔ k = press ∨ isUnifiedEnter press codec k = true := by
  simp [accept?]

end Matcher

namespace KeyPress

variable {codec : Codec} {press k : KeyPress} {text : String}

theorem normal_of_parse (h : parse codec text = .ok k) : k.normal codec = k := by
  obtain ⟨found, -, rfl⟩ := Descriptor.parse_eq_ok_iff.mp h
  exact normal_normal codec found

theorem unified_of_normal (h : k.normal codec = k) : k.unified codec = k := by
  rw [← h, normal, unified_unified]

/-- Ctrl+J is unified with Enter, and keeps the other modifiers. -/
theorem unified_ctrlJ (hunify : codec.unifyEnter = true) (mods : Modifiers) :
    (KeyPress.mk (.char 'j') (mods.add .ctrl)).unified codec
      = ⟨.named .enter, mods.drop .ctrl⟩ := by
  have hctrl : (mods.add .ctrl).ctrl = true := rfl
  simp [unified, hunify, hctrl, Modifiers.drop_add]

end KeyPress

namespace Matcher

variable {codec codec' : Codec} {press press' k : KeyPress} {text : String}

/-- A matcher for a key that stands for itself accepts the keys that are unified with it. -/
theorem isSome_accept_iff_of_normal (h : press.normal codec = press) :
    ((key press codec).accept? (.key k)).isSome
      ↔ k.unified codec = press ∨ Oversteps codec press k := by
  rw [isSome_accept_iff, isUnifiedEnter_iff]
  constructor
  · rintro (rfl | ⟨hunify, hcode, rfl⟩)
    · exact .inl (KeyPress.unified_of_normal h)
    · by_cases hctrl : press.mods.ctrl = true
      · right
        refine ⟨hunify, hcode, hctrl, ?_⟩
        rw [Modifiers.add_of_has (m := .ctrl) hctrl]
      · left
        have hnot : press.mods.has .ctrl = false := Bool.eq_false_iff.mpr hctrl
        rw [KeyPress.unified_ctrlJ hunify, Modifiers.drop_of_not_has hnot, ← hcode]
  · rintro (hk | ⟨hunify, hcode, hctrl, rfl⟩)
    · rcases KeyPress.unified_cases codec k with heq | ⟨hunify, hj, hctrl, heq⟩
      · exact .inl (heq.symm.trans hk)
      · right
        rw [heq] at hk
        cases hk
        refine ⟨hunify, rfl, ?_⟩
        rw [Modifiers.add_drop, Modifiers.add_of_has (m := .ctrl) hctrl]
        exact hj
    · right
      refine ⟨hunify, hcode, ?_⟩
      rw [Modifiers.add_of_has (m := .ctrl) hctrl]

/-- The matcher of a descriptor accepts a key just when the key is unified with its own, except
that a matcher for Enter with Ctrl accepts Ctrl+J too. So two matchers for keys that stand for
themselves accept a key in common only if one of them is such a matcher and the key is Ctrl+J. -/
theorem a_matcher_accepts_what_is_unified_with_its_key
    (h : parse codec text = .ok (.key press codec')) :
    codec' = codec
      ∧ (∀ k, ((key press codec').accept? (.key k)).isSome
        ↔ k.unified codec = press ∨ Oversteps codec press k)
      ∧ ∀ press' k, press'.normal codec = press' →
        ((key press codec').accept? (.key k)).isSome →
        ((key press' codec').accept? (.key k)).isSome →
          press = press' ∨ Oversteps codec press k ∨ Oversteps codec press' k := by
  obtain ⟨hpress, rfl⟩ := parse_eq_key_iff.mp h
  have hnormal := KeyPress.normal_of_parse hpress
  refine ⟨rfl, fun k => isSome_accept_iff_of_normal hnormal, ?_⟩
  intro press' k hnormal' hk hk'
  rcases (isSome_accept_iff_of_normal hnormal).mp hk with hk | hover
  · rcases (isSome_accept_iff_of_normal hnormal').mp hk' with hk' | hover'
    · exact .inl (hk.symm.trans hk')
    · exact .inr (.inr hover')
  · exact .inr (.inl hover)

/-- A matcher for Alt+Enter accepts Ctrl+Alt+J, and no J without Ctrl. -/
theorem alt_enter_accepts_what_is_unified_with_it :
    let codec : Codec := { unifyEnter := true }
    let enter : KeyPress := ⟨.named .enter, .of [.alt]⟩
    parse codec "Alt+Enter" = .ok (.key enter codec)
      ∧ ((key enter codec).accept? (.key ⟨.char 'j', .of [.ctrl, .alt]⟩)).isSome
      ∧ ¬ ((key enter codec).accept? (.key ⟨.char 'j', .of [.alt]⟩)).isSome := by
  intro codec enter
  have hparse : parse codec "Alt+Enter" = .ok (.key enter codec) := by decide +kernel
  obtain ⟨-, haccept, -⟩ := a_matcher_accepts_what_is_unified_with_its_key hparse
  refine ⟨hparse, (haccept _).mpr (.inl (by decide)), ?_⟩
  intro hk
  rcases (haccept _).mp hk with heq | ⟨-, -, hctrl, -⟩
  · exact absurd heq (by decide)
  · cases hctrl

/-- Ctrl+J counts as Enter, and is accepted for Enter with Ctrl as well. -/
theorem ctrl_j_is_accepted_for_two_keys :
    let codec : Codec := { unifyEnter := true }
    let ctrlJ : KeyPress := ⟨.char 'j', .of [.ctrl]⟩
    let enter : KeyPress := ⟨.named .enter, .empty⟩
    let ctrlEnter : KeyPress := ⟨.named .enter, .of [.ctrl]⟩
    parse codec "Enter" = .ok (.key enter codec)
      ∧ parse codec "Ctrl+Enter" = .ok (.key ctrlEnter codec)
      ∧ ctrlJ.unified codec = enter ∧ enter ≠ ctrlEnter
      ∧ ((key enter codec).accept? (.key ctrlJ)).isSome
      ∧ ((key ctrlEnter codec).accept? (.key ctrlJ)).isSome := by
  decide +kernel

end Matcher

end Keymap
