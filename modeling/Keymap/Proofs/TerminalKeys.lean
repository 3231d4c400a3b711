-- The keys of a terminal and their descriptors. The descriptor of a key is read as the same key
-- again, and its matcher accepts the key. Only a letter in upper case with Control is lost: the
-- terminal's letter stays as it is, and descriptors are for the letter in lower case.
import Keymap.Proofs.Acceptance
import Keymap.Terminal

namespace Keymap

namespace KeyPress

variable {codec : Codec} {k : KeyPress} {text : String} {m : Matcher}

/-- A letter that is pressed with Ctrl is in lower case. -/
def Lowercase (k : KeyPress) : Prop :=
  ∀ c, k.code = .char c → k.mods.ctrl = true → c.isUpper = false

theorem lowered_eq_self_iff : k.lowered = k ↔ k.Lowercase := by
  obtain ⟨code, mods⟩ := k
  unfold Lowercase
  cases code with
  | char c =>
    by_cases hctrl : mods.ctrl = true
    · simp only [lowered, hctrl, if_true, mk.injEq, KeyCode.char.injEq, and_true, true_imp_iff,
        forall_eq']
      exact toLower_eq_self_iff
    · simp [lowered, hctrl]
  | named name => simp [lowered]
  | function n => simp [lowered]

theorem normal_plain (k : KeyPress) : k.normal {} = k.lowered := by
  simp [normal, unified]

theorem exists_format (h : ∀ n, k.code = .function n → 1 ≤ n ∧ n ≤ 64) :
    ∃ text, k.format codec = .ok text := by
  cases hformat : k.format codec with
  | ok text => exact ⟨text, rfl⟩
  | error e =>
    obtain ⟨n, hn, hrange, -⟩ := format_eq_error_iff.mp hformat
    have := h n hn
    omega

/-- The key of a descriptor has its letter in lower case, and a wildcard takes no key with Ctrl. -/
theorem lowercase_of_accept (h : Matcher.parse {} text = .ok m)
    (hk : (m.accept? (.key k)).isSome) : k.Lowercase := by
  rcases Matcher.cases_of_parse h
    with (rfl | rfl | rfl) | ⟨button, mods, rfl⟩ | ⟨press, hpress, rfl⟩
  · cases hk
  · cases hk
  · intro c hcode hctrl
    simp [Matcher.any, Matcher.accept?, plainChar?, hcode, hctrl] at hk
  · cases hk
  · have hnormal := normal_of_parse hpress
    rcases (Matcher.isSome_accept_iff_of_normal hnormal).mp hk with heq | ⟨hunify, -⟩
    · have hpress : k = press := by simpa [unified] using heq
      rw [← lowered_eq_self_iff, ← normal_plain, hpress, hnormal]
    · cases hunify

end KeyPress

namespace Terminal

variable {Media Modifier : Type} {code : Code Media Modifier} {held : Held} {phase : Phase}
  {k : KeyPress}

/-- The key is a letter in upper case, and Control is held. -/
def Raised (code : Code Media Modifier) (held : Held) : Prop :=
  held.control = true ∧ ∃ c, code = .char c ∧ c.isUpper = true

theorem keyCode?_eq_char_iff {c : Char} : code.keyCode? = some (.char c) ↔ code = .char c := by
  cases code <;> simp [Code.keyCode?]

theorem of_keyPress (h : keyPress code held phase = .ok k) :
    code.keyCode? = some k.code ∧ k.mods.ctrl = held.control := by
  unfold keyPress at h
  split at h
  · cases h
  · split at h
    · cases h
    · next kc hcode =>
      cases h
      refine ⟨hcode, ?_⟩
      split <;> rfl

theorem lowercase_iff (h : keyPress code held phase = .ok k) :
    k.Lowercase ↔ ¬ Raised code held := by
  obtain ⟨hcode, hctrl⟩ := of_keyPress h
  have hchar : ∀ c, k.code = .char c ↔ code = .char c := by
    intro c
    rw [← keyCode?_eq_char_iff, hcode, Option.some.injEq]
  unfold KeyPress.Lowercase Raised
  simp only [hchar, hctrl]
  constructor
  · rintro hlower ⟨hcontrol, c, rfl, hupper⟩
    have := hlower c rfl hcontrol
    simp [hupper] at this
  · intro hnot c hc hcontrol
    exact Bool.eq_false_iff.mpr fun hupper => hnot ⟨hcontrol, c, hc, hupper⟩

/-- The descriptor of a terminal's key is read as this key, and the matcher accepts the key, unless
the key is a letter in upper case with Control. Such a key has a descriptor, but it is read as
another key, and there is no descriptor whose matcher accepts the key. -/
theorem a_terminal_key_has_its_own_descriptor (h : keyPress code held phase = .ok k)
    (hf : ∀ n, k.code = .function n → 1 ≤ n ∧ n ≤ 64) :
    ∃ text, k.format {} = .ok text ∧ KeyPress.parse {} text = .ok k.lowered
      ∧ (¬ Raised code held → k.Lowercase ∧ KeyPress.parse {} text = .ok k
        ∧ Matcher.parse {} text = .ok (.key k {})
        ∧ (Matcher.key k {}).accept? (.key k) = some k.value)
      ∧ (Raised code held → ¬ k.Lowercase ∧ k.lowered ≠ k
        ∧ ∀ text m, Matcher.parse {} text = .ok m → m.accept? (.key k) = none) := by
  obtain ⟨text, hformat⟩ : ∃ text, k.format {} = .ok text := KeyPress.exists_format hf
  have hparse := KeyPress.parse_format hformat
  rw [KeyPress.normal_plain] at hparse
  refine ⟨text, hformat, hparse, ?_, ?_⟩
  · intro hnot
    have hlower := (lowercase_iff h).mpr hnot
    rw [KeyPress.lowered_eq_self_iff.mpr hlower] at hparse
    refine ⟨hlower, hparse, Matcher.parse_eq_key_iff.mpr ⟨hparse, rfl⟩, ?_⟩
    simp [Matcher.accept?]
  · intro hraised
    have hnot : ¬ k.Lowercase := fun hlower => (lowercase_iff h).mp hlower hraised
    refine ⟨hnot, mt KeyPress.lowered_eq_self_iff.mp hnot, ?_⟩
    intro text m hm
    cases haccept : m.accept? (.key k) with
    | none => rfl
    | some v => exact absurd (KeyPress.lowercase_of_accept hm (haccept ▸ rfl)) hnot

/-- The super key counts as Meta, and Shift is dropped. -/
theorem a_letter_with_super_has_its_own_descriptor :
    let k : KeyPress := ⟨.char 'x', .of [.ctrl, .metaKey]⟩
    keyPress (.char 'x' : Code) { shift := true, control := true, super := true } .again = .ok k
      ∧ ∃ text, k.format {} = .ok text ∧ Matcher.parse {} text = .ok (.key k {})
        ∧ (Matcher.key k {}).accept? (.key k) = some k.value := by
  intro k
  have hk : keyPress (.char 'x' : Code) { shift := true, control := true, super := true } .again
      = .ok k := by decide
  obtain ⟨text, hformat, -, hown, -⟩ := a_terminal_key_has_its_own_descriptor hk nofun
  obtain ⟨-, -, hmatcher, haccept⟩ := hown (by rintro ⟨-, c, hc, hupper⟩; cases hc; cases hupper)
  exact ⟨hk, text, hformat, hmatcher, haccept⟩

/-- With Shift and Control, the terminal has the letter A in upper case. Its descriptor is for the
letter in lower case. -/
theorem a_raised_letter_has_no_descriptor_of_its_own :
    let k : KeyPress := ⟨.char 'A', .of [.ctrl]⟩
    let lowered : KeyPress := ⟨.char 'a', .of [.ctrl]⟩
    keyPress (.char 'A' : Code) { shift := true, control := true } .press = .ok k
      ∧ ¬ k.Lowercase ∧ k.format {} = .ok "Ctrl+A"
      ∧ KeyPress.parse {} "Ctrl+A" = .ok lowered ∧ lowered ≠ k
      ∧ Matcher.parse {} "Ctrl+A" = .ok (.key lowered {})
      ∧ (Matcher.key lowered {}).accept? (.key k) = none := by
  intro k lowered
  refine ⟨by decide, ?_, by decide +kernel⟩
  intro h
  cases h 'A' rfl rfl

end Terminal

end Keymap
