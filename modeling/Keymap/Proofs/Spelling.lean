-- How the pieces of a descriptor are spelled. A piece names a modifier or spells a key, and none
-- does both.
import Keymap.Descriptor.Key
import Keymap.Proofs.Numerals

namespace Keymap.Descriptor

/-! ## Names in any case -/

theorem sameName_iff {a b : List Char} :
    sameName a b = true ↔ a.map Char.toLower = b.map Char.toLower := by
  simp [sameName]

theorem sameName_self (a : List Char) : sameName a a = true := sameName_iff.mpr rfl

section Congruence

variable {a b : List Char} (h : sameName a b = true)
include h

theorem sameName_congr (name : List Char) : sameName a name = sameName b name := by
  unfold sameName
  rw [sameName_iff.mp h]

theorem readModifier_congr : readModifier a = readModifier b := by
  simp only [readModifier, sameName_congr h]

theorem readNamedKey_congr : readNamedKey a = readNamedKey b := by
  simp only [readNamedKey, sameName_congr h]

theorem isSpaceName_congr : isSpaceName a = isSpaceName b := by
  simp only [isSpaceName, sameName_congr h]

end Congruence

/-! ## The tables -/

/-- The names under which a key is read. -/
def keyNames (k : NamedKey) : List String := keyName k :: keyAliases k

/-- The names of the space key. -/
def spaceNames : List String := ["Space", "Spacebar"]

/-- All names in key descriptors. -/
def names : List String :=
  modifierOrder.map modifierName ++ spaceNames ++ namedKeys.flatMap keyNames

theorem mem_namedKeys (k : NamedKey) : k ∈ namedKeys := by
  cases k <;> decide

theorem mem_names_of_modifier (m : Modifier) : modifierName m ∈ names := by
  cases m <;> decide

theorem mem_names_of_spaceNames {name : String} (h : name ∈ spaceNames) : name ∈ names :=
  List.mem_append_left _ (List.mem_append_right _ h)

theorem mem_names_of_keyNames {k : NamedKey} {name : String} (h : name ∈ keyNames k) :
    name ∈ names :=
  List.mem_append_right _ (List.mem_flatMap.mpr ⟨k, mem_namedKeys k, h⟩)

theorem readModifier_name (m : Modifier) : readModifier (modifierName m).toList = some m := by
  cases m <;> decide

/-- The name of a key is not that of another one, nor of anything else. -/
theorem readers_keyNames {k : NamedKey} {name : String} (h : name ∈ keyNames k) :
    readModifier name.toList = none ∧ isSpaceName name.toList = false
      ∧ readNamedKey name.toList = some k := by
  have htable : ∀ k ∈ namedKeys, ∀ name ∈ keyNames k, readModifier name.toList = none
      ∧ isSpaceName name.toList = false ∧ readNamedKey name.toList = some k := by
    decide
  exact htable k (mem_namedKeys k) name h

theorem readModifier_spaceNames {name : String} (h : name ∈ spaceNames) :
    readModifier name.toList = none := by
  have htable : ∀ name ∈ spaceNames, readModifier name.toList = none := by decide
  exact htable name h

theorem readModifier_eq_some_iff {piece : List Char} {m : Modifier} :
    readModifier piece = some m ↔ sameName piece (modifierName m).toList = true := by
  constructor
  · intro h
    exact List.find?_some (p := fun m => sameName piece (modifierName m).toList) h
  · intro h
    rw [readModifier_congr h, readModifier_name]

theorem readNamedKey_eq_some_iff {piece : List Char} {k : NamedKey} :
    readNamedKey piece = some k
      ↔ ∃ name ∈ keyNames k, sameName piece name.toList = true := by
  constructor
  · intro h
    have hany := List.find?_some
      (p := fun k => (keyNames k).any fun name => sameName piece name.toList) h
    exact List.any_eq_true.mp hany
  · rintro ⟨name, hname, h⟩
    rw [readNamedKey_congr h]
    exact (readers_keyNames hname).2.2

theorem isSpaceName_iff {piece : List Char} :
    isSpaceName piece = true ↔ ∃ name ∈ spaceNames, sameName piece name.toList = true := by
  simp [isSpaceName, spaceNames]

/-- The piece is no name. -/
def Nameless (piece : List Char) : Prop := ∀ name ∈ names, ¬ sameName piece name.toList = true

theorem Nameless.readers {piece : List Char} (h : Nameless piece) :
    readModifier piece = none ∧ isSpaceName piece = false ∧ readNamedKey piece = none := by
  refine ⟨?_, ?_, ?_⟩
  · apply Option.eq_none_iff_forall_ne_some.mpr
    intro m hm
    exact h _ (mem_names_of_modifier m) (readModifier_eq_some_iff.mp hm)
  · apply Bool.eq_false_iff.mpr
    intro hspace
    obtain ⟨name, hname, hsame⟩ := isSpaceName_iff.mp hspace
    exact h name (mem_names_of_spaceNames hname) hsame
  · apply Option.eq_none_iff_forall_ne_some.mpr
    intro k hk
    obtain ⟨name, hname, hsame⟩ := readNamedKey_eq_some_iff.mp hk
    exact h name (mem_names_of_keyNames hname) hsame

theorem nameless_single (c : Char) : Nameless [c] := by
  have hlength : ∀ name ∈ names, name.toList.length ≠ 1 := by decide
  intro name hname hsame
  apply hlength name hname
  simpa using (congrArg List.length (sameName_iff.mp hsame)).symm

/-- No name begins with an F. -/
theorem nameless_function {f : Char} (hf : f.toLower = 'f') (digits : List Char) :
    Nameless (f :: digits) := by
  have hfirst : ∀ name ∈ names, (name.toList.map Char.toLower).head? ≠ some 'f' := by decide
  intro name hname hsame
  apply hfirst name hname
  rw [← sameName_iff.mp hsame, List.map_cons, List.head?_cons, hf]

/-- No name has a plus in it. -/
theorem plus_not_mem {piece : List Char} {name : String} (hname : name ∈ names)
    (h : sameName piece name.toList = true) : '+' ∉ piece := by
  have hplus : ∀ name ∈ names, '+' ∉ name.toList.map Char.toLower := by decide
  intro hmem
  apply hplus name hname
  rw [← sameName_iff.mp h]
  exact List.mem_map_of_mem (f := Char.toLower) hmem

/-! ## Function keys -/

theorem toLower_eq_f_iff {c : Char} : c.toLower = 'f' ↔ c = 'F' ∨ c = 'f' := by
  constructor
  · intro h
    unfold Char.toLower at h
    split at h
    · have hval : c.val + 32 = 'F'.val + 32 := congrArg Char.val h
      exact .inl (Char.ext ((UInt32.add_left_inj 32).mp hval))
    · exact .inr h
  · rintro (rfl | rfl) <;> decide

theorem isFunctionNumber_iff {n : Nat} : isFunctionNumber n = true ↔ 1 ≤ n ∧ n ≤ 64 := by
  simp [isFunctionNumber]

theorem readFunctionKey_eq_some_iff {piece : List Char} {n : Nat} :
    readFunctionKey piece = some n
      ↔ ∃ f, (f = 'F' ∨ f = 'f') ∧ 1 ≤ n ∧ n ≤ 64 ∧ piece = f :: Nat.toDigits 10 n := by
  unfold readFunctionKey
  constructor
  · intro h
    split at h
    · next f digits =>
      split at h
      · next hread =>
        cases h
        simp only [Bool.and_eq_true, decide_eq_true_eq, isFunctionNumber_iff] at hread
        obtain ⟨⟨hf, hdigits⟩, hlow, hhigh⟩ := hread
        obtain ⟨m, rfl⟩ := Text.isNumeral_iff.mp hdigits
        rw [Text.readDigits_toDigits] at hlow hhigh ⊢
        exact ⟨f, toLower_eq_f_iff.mp hf, hlow, hhigh, rfl⟩
      · cases h
    · cases h
  · rintro ⟨f, hf, hlow, hhigh, rfl⟩
    simp only [toLower_eq_f_iff.mpr hf, Text.isNumeral_toDigits, Text.readDigits_toDigits,
      isFunctionNumber_iff.mpr ⟨hlow, hhigh⟩, decide_true, Bool.and_self, if_true]

/-! ## Spelling a key -/

/-- The piece spells the key: it is a character, a name in any case or the number of a function key
behind an F. -/
inductive Spells : KeyCode → List Char → Prop
  | char {c : Char} (hc : c ≠ '+') : Spells (.char c) [c]
  | space {name : String} {piece : List Char} (hname : name ∈ spaceNames)
    (h : sameName piece name.toList = true) : Spells (.char ' ') piece
  | named {k : NamedKey} {name : String} {piece : List Char} (hname : name ∈ keyNames k)
    (h : sameName piece name.toList = true) : Spells (.named k) piece
  | function {f : Char} {n : Nat} (hf : f = 'F' ∨ f = 'f') (hlow : 1 ≤ n) (hhigh : n ≤ 64) :
    Spells (.function n) (f :: Nat.toDigits 10 n)

namespace Spells

variable {code : KeyCode} {piece : List Char}

theorem readModifier_eq_none (h : Spells code piece) : readModifier piece = none := by
  cases h with
  | char hc => exact (nameless_single _).readers.1
  | space hname h =>
    rw [readModifier_congr h]
    exact readModifier_spaceNames hname
  | named hname h =>
    rw [readModifier_congr h]
    exact (readers_keyNames hname).1
  | function hf hlow hhigh => exact (nameless_function (toLower_eq_f_iff.mpr hf) _).readers.1

theorem readCode_eq_some (h : Spells code piece) : readCode piece = some code := by
  cases h with
  | @char c hc =>
    obtain ⟨-, hspace, hnamed⟩ := (nameless_single c).readers
    simp [readCode, hspace, hnamed, readFunctionKey, Text.isNumeral]
  | space hname h =>
    simp only [readCode, isSpaceName_iff.mpr ⟨_, hname, h⟩, if_true]
  | named hname h =>
    obtain ⟨-, hspace, -⟩ := readers_keyNames hname
    rw [← isSpaceName_congr h] at hspace
    simp [readCode, hspace, readNamedKey_eq_some_iff.mpr ⟨_, hname, h⟩]
  | @function f n hf hlow hhigh =>
    have hnameless := nameless_function (toLower_eq_f_iff.mpr hf) (Nat.toDigits 10 n)
    obtain ⟨-, hspace, hnamed⟩ := hnameless.readers
    have hread := readFunctionKey_eq_some_iff.mpr ⟨f, hf, hlow, hhigh, rfl⟩
    simp [readCode, hspace, hnamed, hread]

theorem plus_not_mem (h : Spells code piece) : '+' ∉ piece := by
  cases h with
  | char hc => simpa using Ne.symm hc
  | space hname h => exact Descriptor.plus_not_mem (mem_names_of_spaceNames hname) h
  | named hname h => exact Descriptor.plus_not_mem (mem_names_of_keyNames hname) h
  | @function f n hf hlow hhigh =>
    intro hmem
    rcases List.mem_cons.mp hmem with rfl | hmem
    · rcases hf with hf | hf <;> cases hf
    · have hdigit := Nat.isDigit_of_mem_toDigits (by decide) (by decide) hmem
      cases hdigit

theorem ne_nil (h : Spells code piece) : piece ≠ [] := by
  rintro rfl
  cases h.readCode_eq_some

end Spells

theorem readCode_eq_some_iff {code : KeyCode} {piece : List Char} (hplus : '+' ∉ piece) :
    readCode piece = some code ↔ Spells code piece := by
  constructor
  · intro h
    unfold readCode at h
    split at h
    · next hspace =>
      cases h
      obtain ⟨name, hname, hsame⟩ := isSpaceName_iff.mp hspace
      exact .space hname hsame
    · split at h
      · next k hk =>
        cases h
        obtain ⟨name, hname, hsame⟩ := readNamedKey_eq_some_iff.mp hk
        exact .named hname hsame
      · split at h
        · next n hn =>
          cases h
          obtain ⟨f, hf, hlow, hhigh, rfl⟩ := readFunctionKey_eq_some_iff.mp hn
          exact .function hf hlow hhigh
        · split at h
          · next c =>
            cases h
            exact .char fun hc => hplus (by simp [hc])
          · cases h
  · exact Spells.readCode_eq_some

end Keymap.Descriptor
