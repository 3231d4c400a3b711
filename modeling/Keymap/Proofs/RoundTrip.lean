-- Keys that are written and read back. A key may change on the way, but only into the one that
-- stands for it, and that one does not change any more.
import Keymap.Proofs.Descriptors
import Mathlib.Data.List.Forall2

namespace Keymap

variable {codec : Codec} {k : KeyPress}

/-! ## Letters in lower and in upper case -/

-- The library has these lemmas too, but not in any of the parts of it that are needed here.

theorem toNat_toLower (c : Char) :
    c.toLower.toNat = if 65 ≤ c.toNat ∧ c.toNat ≤ 90 then c.toNat + 32 else c.toNat := by
  unfold Char.toLower
  split
  · next h =>
    have hletter : 65 ≤ c.toNat ∧ c.toNat ≤ 90 := h
    have hval : (c.val + 32).toNat = (c.toNat + 32) % 2 ^ 32 := UInt32.toNat_add ..
    rw [if_pos hletter]
    exact hval.trans (by omega)
  · next h => exact (if_neg h).symm

theorem toNat_toUpper (c : Char) :
    c.toUpper.toNat = if 97 ≤ c.toNat ∧ c.toNat ≤ 122 then c.toNat - 32 else c.toNat := by
  unfold Char.toUpper
  split
  · next h =>
    have hletter : 97 ≤ c.toNat ∧ c.toNat ≤ 122 := h
    -- What is added is 32 less than nothing, in a word of 32 bits.
    have hval : (c.val + 4294967264).toNat = (c.toNat + 4294967264) % 2 ^ 32 :=
      UInt32.toNat_add ..
    rw [if_pos hletter]
    exact hval.trans (by omega)
  · next h => exact (if_neg h).symm

theorem toLower_toLower (c : Char) : c.toLower.toLower = c.toLower := by
  apply Char.toNat_inj.mp
  simp only [toNat_toLower]
  split_ifs <;> omega

theorem isUpper_iff {c : Char} : c.isUpper = true ↔ 65 ≤ c.toNat ∧ c.toNat ≤ 90 := by
  change decide ('A'.val ≤ c.val ∧ c.val ≤ 'Z'.val) = true ↔ _
  rw [decide_eq_true_eq]
  exact Iff.rfl

/-- Only a letter in upper case changes. -/
theorem toLower_eq_self_iff {c : Char} : c.toLower = c ↔ c.isUpper = false := by
  rw [← Char.toNat_inj, toNat_toLower, Bool.eq_false_iff, Ne, isUpper_iff]
  split <;> omega

theorem toLower_toUpper (c : Char) : c.toUpper.toLower = c.toLower := by
  apply Char.toNat_inj.mp
  simp only [toNat_toLower, toNat_toUpper]
  split_ifs <;> omega

/-! ## The key that stands for others -/

namespace KeyPress

theorem lowered_lowered (k : KeyPress) : k.lowered.lowered = k.lowered := by
  unfold lowered
  cases hcode : k.code with
  | char c =>
    by_cases hctrl : k.mods.ctrl = true
    · simp only [hctrl, if_true, toLower_toLower]
    · simp [hctrl, hcode]
  | named name => simp [hcode]
  | function n => simp [hcode]

/-- Only Ctrl+J has another key that it is unified with. -/
theorem unified_cases (codec : Codec) (k : KeyPress) :
    k.unified codec = k
      ∨ codec.unifyEnter = true ∧ k = ⟨.char 'j', k.mods⟩ ∧ k.mods.ctrl = true
        ∧ k.unified codec = ⟨.named .enter, k.mods.drop .ctrl⟩ := by
  unfold unified
  by_cases h : (codec.unifyEnter && k.mods.ctrl && k.code = .char 'j') = true
  · right
    rw [if_pos h]
    simp only [Bool.and_eq_true, decide_eq_true_eq] at h
    obtain ⟨⟨hunify, hctrl⟩, hcode⟩ := h
    exact ⟨hunify, by rw [← hcode], hctrl, rfl⟩
  · left
    rw [if_neg h]

theorem unified_unified (codec : Codec) (k : KeyPress) :
    (k.unified codec).unified codec = k.unified codec := by
  rcases unified_cases codec k with h | ⟨-, -, -, h⟩
  · rw [h, h]
  · rw [h]
    simp [unified]

theorem lowered_unified (codec : Codec) (k : KeyPress) :
    (k.lowered.unified codec).lowered = k.lowered.unified codec := by
  rcases unified_cases codec k.lowered with h | ⟨-, -, -, h⟩
  · rw [h, lowered_lowered]
  · rw [h]
    rfl

/-- The key that stands for others stands for itself. -/
theorem normal_normal (codec : Codec) (k : KeyPress) :
    (k.normal codec).normal codec = k.normal codec := by
  rw [normal, normal, lowered_unified, unified_unified]

theorem normal_unified (codec : Codec) (k : KeyPress) :
    (k.unified codec).normal codec = k.normal codec := by
  rcases unified_cases codec k with h | ⟨-, hk, hctrl, h⟩
  · rw [h]
  · have hlowered : k.lowered = k := by
      rw [hk]
      simp [lowered, hctrl]
    rw [normal, normal, hlowered, h]
    simp [lowered, unified]

end KeyPress

namespace Descriptor

/-! ## The text of a key -/

/-- The key that the text of a key spells: with Ctrl, the letter in upper case. -/
def raised (ctrl : Bool) : KeyCode → KeyCode
  | .char c => .char (if ctrl then c.toUpper else c)
  | code => code

theorem lowered_raised (code : KeyCode) (mods : Modifiers) :
    (KeyPress.mk (raised mods.ctrl code) mods).lowered = (KeyPress.mk code mods).lowered := by
  cases code with
  | char c =>
    cases hctrl : mods.ctrl with
    | false => simp [raised, KeyPress.lowered, hctrl]
    | true => simp only [raised, KeyPress.lowered, hctrl, if_true, toLower_toUpper]
  | named => rfl
  | function => rfl

/-- The names of the modifiers that are held down. -/
def modifierNames (mods : Modifiers) : List (List Char) :=
  (modifierOrder.filter mods.has).map fun m => (modifierName m).toList

theorem writeModifiers_eq (mods : Modifiers) :
    writeModifiers mods = heads (modifierNames mods) := by
  rw [writeModifiers, heads, modifierNames, List.flatMap_map]

theorem names_modifierNames (mods : Modifiers) :
    Names (modifierOrder.filter mods.has) (modifierNames mods) := by
  rw [Names, modifierNames, List.forall₂_map_right_iff, List.forall₂_same]
  exact fun m _ => sameName_self _

theorem of_filter_has (mods : Modifiers) : Modifiers.of (modifierOrder.filter mods.has) = mods := by
  apply Modifiers.ext_has
  intro m
  have hmem : m ∈ modifierOrder := by cases m <;> decide
  rw [Modifiers.has_of]
  simp [hmem]

theorem writeCode_function {n : Nat} (h : isFunctionNumber n = true) (ctrl : Bool) :
    writeCode ctrl (.function n) = .ok ('F' :: Nat.toDigits 10 n) := by
  simp only [writeCode, if_pos h]

theorem writeCode_function_of_not {n : Nat} (h : ¬ isFunctionNumber n = true) (ctrl : Bool) :
    writeCode ctrl (.function n) = .error (.invalidKey ("F" ++ toString n)) := by
  simp only [writeCode, if_neg h]

theorem writeCode_eq_error_iff {ctrl : Bool} {code : KeyCode} {e : Error} :
    writeCode ctrl code = .error e
      ↔ ∃ n, code = .function n ∧ (n = 0 ∨ 64 < n) ∧ e = .invalidKey ("F" ++ toString n) := by
  cases code with
  | char c => simp [writeCode]
  | named name => simp [writeCode]
  | function n =>
    by_cases hn : isFunctionNumber n = true
    · rw [writeCode_function hn]
      rw [isFunctionNumber_iff] at hn
      constructor
      · nofun
      · rintro ⟨m, hm, hrange, -⟩
        cases hm
        omega
    · rw [writeCode_function_of_not hn]
      rw [isFunctionNumber_iff] at hn
      constructor
      · intro h
        cases h
        exact ⟨n, rfl, by omega, rfl⟩
      · rintro ⟨m, hm, -, rfl⟩
        cases hm
        rfl

section Front

variable {ms : List Modifier} {front : List (List Char)} (hfront : Names ms front)
include hfront

theorem describes_last {code : KeyCode} {last : List Char} (h : Spells code last) :
    Describes ms code [] (heads front ++ last) := by
  have hdescribes := Describes.key hfront h .nil
  rwa [tails, List.flatMap_nil, List.append_nil] at hdescribes

/-- Behind the names of modifiers every character describes itself, a plus too. -/
theorem describes_char (c : Char) : Describes ms (.char c) [] (heads front ++ [c]) := by
  by_cases hc : c = '+'
  · rw [hc]
    exact .plus hfront
  · exact describes_last hfront (.char hc)

theorem describes_writeCode {ctrl : Bool} {code : KeyCode} {last : List Char}
    (h : writeCode ctrl code = .ok last) :
    Describes ms (raised ctrl code) [] (heads front ++ last) := by
  cases code with
  | char c =>
    cases h
    by_cases hc : c = ' '
    · have hspace : raised ctrl (.char c) = .char ' ' := by
        rw [hc]
        cases ctrl <;> rfl
      rw [if_pos hc, hspace]
      exact describes_last hfront (@Spells.space "Space" _ (by decide) (sameName_self _))
    · rw [if_neg hc]
      exact describes_char hfront _
  | named name =>
    cases h
    exact describes_last hfront (.named List.mem_cons_self (sameName_self _))
  | function n =>
    by_cases hn : isFunctionNumber n = true
    · rw [writeCode_function hn] at h
      cases h
      obtain ⟨hlow, hhigh⟩ := isFunctionNumber_iff.mp hn
      exact describes_last hfront (.function (.inl rfl) hlow hhigh)
    · rw [writeCode_function_of_not hn] at h
      cases h

end Front

end Descriptor

namespace KeyPress

/-! ## Writing and reading -/

theorem format_eq_error_iff {e : Error} :
    k.format codec = .error e
      ↔ ∃ n, k.code = .function n ∧ (n = 0 ∨ 64 < n) ∧ e = .invalidKey ("F" ++ toString n) := by
  have hcode : ∀ n, (k.unified codec).code = .function n ↔ k.code = .function n := by
    intro n
    rcases unified_cases codec k with h | ⟨-, hk, -, h⟩
    · rw [h]
    · rw [h, hk]
      simp
  have hmap : ∀ (x : Except Error (List Char)) (f : List Char → String),
      x.map f = .error e ↔ x = .error e := by
    intro x f
    cases x <;> simp [Except.map]
  rw [format, hmap, Descriptor.writeCode_eq_error_iff]
  simp only [hcode]

theorem parse_of_describes {ms ns : List Modifier} {code : KeyCode} {text : String}
    (h : Descriptor.Describes ms code ns text.toList) :
    parse codec text = .ok ((KeyPress.mk code (.of (ms ++ ns))).normal codec) :=
  Descriptor.parse_eq_ok_iff.mpr ⟨_, Descriptor.readPieces_of_describes h, rfl⟩

theorem parse_format {text : String} (h : k.format codec = .ok text) :
    parse codec text = .ok (k.normal codec) := by
  unfold format at h
  simp only at h
  cases hlast : Descriptor.writeCode (k.unified codec).mods.ctrl (k.unified codec).code with
  | error e =>
    rw [hlast] at h
    cases h
  | ok last =>
    rw [hlast] at h
    cases h
    have hdescribes := Descriptor.describes_writeCode
      (Descriptor.names_modifierNames (k.unified codec).mods) hlast
    rw [← Descriptor.writeModifiers_eq] at hdescribes
    rw [parse_of_describes (by rwa [String.toList_ofList]), List.append_nil,
      Descriptor.of_filter_has, normal, Descriptor.lowered_raised, ← normal_unified codec k]
    rfl

theorem code_of_normal {n : Nat} (h : (k.normal codec).code = .function n) :
    k.code = .function n := by
  have hlowered : k.lowered.code = .function n := by
    rcases unified_cases codec k.lowered with heq | ⟨-, -, -, heq⟩
    · rwa [normal, heq] at h
    · rw [normal, heq] at h
      cases h
  unfold lowered at hlowered
  split at hlowered
  · next c hc =>
    split at hlowered
    · cases hlowered
    · rw [hc] at hlowered
      cases hlowered
  · exact hlowered

theorem exists_format_of_parse {text : String} (h : parse codec text = .ok k) :
    ∃ text', k.format codec = .ok text' ∧ parse codec text' = .ok k := by
  obtain ⟨found, hread, rfl⟩ := Descriptor.parse_eq_ok_iff.mp h
  obtain ⟨ms, code, ns, hdescribes, rfl⟩ := Descriptor.exists_describes_of_readPieces hread
  cases hformat : (KeyPress.normal codec ⟨code, .of (ms ++ ns)⟩).format codec with
  | error e =>
    obtain ⟨n, hn, hrange, -⟩ := format_eq_error_iff.mp hformat
    have hcode : code = .function n := code_of_normal hn
    rw [hcode] at hdescribes
    have hle := hdescribes.function_le
    omega
  | ok text' => exact ⟨text', rfl, by rw [parse_format hformat, normal_normal]⟩

/-- The text of a key is read as the key that stands for it. Only function keys without a descriptor
have no text, keys that stand for themselves have different texts, and a key that was read has a
text from which it is read again. -/
theorem a_key_is_read_back_from_its_text (codec : Codec) :
    (∀ k e, format codec k = .error e
        ↔ ∃ n, k.code = .function n ∧ (n = 0 ∨ 64 < n) ∧ e = .invalidKey ("F" ++ toString n))
      ∧ (∀ k : KeyPress, (∃ n, k.code = .function n ∧ (n = 0 ∨ 64 < n))
        ∨ ∃ text, k.format codec = .ok text ∧ parse codec text = .ok (k.normal codec))
      ∧ (∀ (k k' : KeyPress) text, k.normal codec = k → k'.normal codec = k' →
        k.format codec = .ok text → k'.format codec = .ok text → k = k')
      ∧ ∀ k text, parse codec text = .ok k →
        ∃ text', k.format codec = .ok text' ∧ parse codec text' = .ok k := by
  refine ⟨fun k e => format_eq_error_iff, ?_, ?_, fun k text => exists_format_of_parse⟩
  · intro k
    cases hformat : k.format codec with
    | error e =>
      obtain ⟨n, hn, hrange, -⟩ := format_eq_error_iff.mp hformat
      exact .inl ⟨n, hn, hrange⟩
    | ok text => exact .inr ⟨text, rfl, parse_format hformat⟩
  · intro k k' text hk hk' hformat hformat'
    have hparse := parse_format hformat
    rw [parse_format hformat', hk, hk'] at hparse
    cases hparse
    rfl

theorem a_raised_letter_is_read_back :
    let codec : Codec := { unifyEnter := true }
    let enter : KeyPress := ⟨.named .enter, .of [.shift]⟩
    format codec ⟨.char 'J', .of [.ctrl, .shift]⟩ = .ok "Ctrl+Shift+J"
      ∧ parse codec "Ctrl+Shift+J" = .ok enter
      ∧ ∃ text, enter.format codec = .ok text ∧ parse codec text = .ok enter := by
  intro codec enter
  have hformat : format codec ⟨.char 'J', .of [.ctrl, .shift]⟩ = .ok "Ctrl+Shift+J" := by
    decide +kernel
  have hparse : parse codec "Ctrl+Shift+J" = .ok enter := by decide +kernel
  obtain ⟨-, -, -, hagain⟩ := a_key_is_read_back_from_its_text codec
  exact ⟨hformat, hparse, hagain enter _ hparse⟩

end KeyPress

end Keymap
