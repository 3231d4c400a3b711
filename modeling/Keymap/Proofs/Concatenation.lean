-- Templates one after the other. A reference is read as far as it goes, so a template is cut
-- between two others if the second of them begins with neither a dollar nor a character of a word.
import Keymap.Proofs.Dependence
import Keymap.Proofs.References

namespace Keymap.Template

/-! ## Where two templates meet -/

/-- The text begins with neither a dollar nor a character of a word. -/
def Breaks (text : List Char) : Prop := ∀ c ∈ text.head?, c ≠ '$' ∧ Text.isWordChar c = false

instance : DecidablePred Breaks
  | [] => .isTrue nofun
  | c :: _ => decidable_of_iff (c ≠ '$' ∧ Text.isWordChar c = false) (by simp [Breaks])

variable {text more : List Char}

/-- A word ends where the second text begins. -/
theorem Breaks.word_append (h : Breaks more) (text : List Char) :
    (text ++ more).takeWhile Text.isWordChar = text.takeWhile Text.isWordChar
      ∧ (text ++ more).dropWhile Text.isWordChar = text.dropWhile Text.isWordChar ++ more := by
  induction text with
  | nil =>
    cases more with
    | nil => exact ⟨rfl, rfl⟩
    | cons c more =>
      obtain ⟨-, hc⟩ := h c rfl
      simp [hc]
  | cons c text ih =>
    cases hc : Text.isWordChar c with
    | false => simp [hc]
    | true => simpa [hc] using ih

theorem Breaks.head?_append (h : Breaks more) (htext : text.head? ≠ some '$') :
    (text ++ more).head? ≠ some '$' := by
  cases text with
  | nil => exact fun hc => (h '$' hc).1 rfl
  | cons c text => exact htext

/-- The pieces of two templates are those of the one and then those of the other. -/
theorem pieces_append (text : List Char) (h : Breaks more) :
    pieces (text ++ more) = pieces text ++ pieces more := by
  fun_induction pieces text with
  | case1 => rfl
  | case2 rest ih => rw [List.cons_append, List.cons_append, pieces_dollars, ih, List.cons_append]
  | case3 rest hrest n hn _ ih =>
    obtain ⟨htake, hdrop⟩ := h.word_append rest
    have hhead := h.head?_append (head?_ne_of_forall_ne hrest)
    rw [List.cons_append, pieces_arg hhead (htake ▸ hn), hdrop, ih, List.cons_append]
  | case4 rest hrest hn ih =>
    obtain ⟨htake, -⟩ := h.word_append rest
    have hhead := h.head?_append (head?_ne_of_forall_ne hrest)
    rw [List.cons_append, pieces_dollar hhead (htake ▸ hn), ih, List.cons_append]
  | case5 c rest hc hc' ih =>
    rw [List.cons_append, pieces_char hc', ih, List.cons_append]

section Append

variable {a b : String} (h : Breaks b.toList)
include h

theorem expand_append (args : List String) :
    expand (a ++ b) args = expand a args ++ expand b args := by
  rw [expand_eq, String.toList_append, pieces_append _ h, fill_append, expand_eq, expand_eq]

theorem uses_append_iff {n : Nat} : Uses (a ++ b) n ↔ Uses a n ∨ Uses b n := by
  unfold Uses
  rw [String.toList_append, pieces_append _ h, List.mem_append]

theorem argCount_append : argCount (a ++ b) = max (argCount a) (argCount b) := by
  refine Nat.le_antisymm ?_ ?_
  · refine argCount_le_iff.mpr fun n hn => ?_
    rcases (uses_append_iff h).mp hn with hn | hn
    · exact Nat.lt_of_lt_of_le hn.lt_argCount (Nat.le_max_left ..)
    · exact Nat.lt_of_lt_of_le hn.lt_argCount (Nat.le_max_right ..)
  · refine Nat.max_le.mpr ⟨?_, ?_⟩
    · exact argCount_le_iff.mpr fun n hn => ((uses_append_iff h).mpr (.inl hn)).lt_argCount
    · exact argCount_le_iff.mpr fun n hn => ((uses_append_iff h).mpr (.inr hn)).lt_argCount

theorem usesZero_append : usesZero (a ++ b) = (usesZero a || usesZero b) := by
  rw [Bool.eq_iff_iff, Bool.or_eq_true, usesZero_iff, usesZero_iff, usesZero_iff,
    uses_append_iff h]

end Append

/-! ## Texts without references -/

/-- The template that stands for this text, with every dollar twice. -/
def quoted (text : String) : String :=
  String.ofList (text.toList.flatMap fun c => if c = '$' then ['$', '$'] else [c])

theorem pieces_quoted (text : String) : pieces (quoted text).toList = text.toList.map .char := by
  rw [quoted, String.toList_ofList]
  induction text.toList with
  | nil => exact pieces_nil
  | cons c rest ih =>
    rw [List.flatMap_cons, List.map_cons, ← ih]
    by_cases hc : c = '$'
    · rw [if_pos hc, hc]
      exact pieces_dollars _
    · rw [if_neg hc]
      exact pieces_char hc _

theorem not_uses_quoted (text : String) (n : Nat) : ¬ Uses (quoted text) n := by
  simp [Uses, pieces_quoted]

theorem expand_quoted (text : String) (args : List String) : expand (quoted text) args = text := by
  rw [expand_eq, pieces_quoted, fill_chars, String.ofList_toList]

/-- Two templates that are put together expand as they do apart, and need the arguments that either
of them needs, if the second one begins with neither a dollar nor a character of a word. A text with
every dollar twice expands to itself and needs no arguments. -/
theorem templates_are_expanded_one_after_the_other :
    (∀ a b : String, Breaks b.toList →
        (∀ args, expand (a ++ b) args = expand a args ++ expand b args)
          ∧ argCount (a ++ b) = max (argCount a) (argCount b)
          ∧ usesZero (a ++ b) = (usesZero a || usesZero b))
      ∧ ∀ text : String, (∀ args, expand (quoted text) args = text)
          ∧ argCount (quoted text) = 0 ∧ usesZero (quoted text) = false := by
  refine ⟨fun a b h => ⟨expand_append h, argCount_append h, usesZero_append h⟩, fun text => ?_⟩
  refine ⟨expand_quoted text, ?_, ?_⟩
  · rw [← Nat.le_zero, argCount_le_iff]
    exact fun n hn => absurd hn (not_uses_quoted text n)
  · rw [Bool.eq_false_iff, Ne, usesZero_iff]
    exact not_uses_quoted text 0

/-- Three dollars before a space: a pair, and one that stands for itself. -/
theorem a_price_goes_before_a_line :
    Breaks " at $0".toList
      ∧ expand ("$01 $1 $$$" ++ " at $0") ["7", "25"] = "$01 25 $$ at 7"
      ∧ argCount ("$01 $1 $$$" ++ " at $0") = 2 := by
  have hbreaks : Breaks " at $0".toList := by decide +kernel
  obtain ⟨happend, hcount, -⟩ :=
    templates_are_expanded_one_after_the_other.1 "$01 $1 $$$" " at $0" hbreaks
  refine ⟨hbreaks, ?_, ?_⟩
  · rw [happend]
    decide +kernel
  · rw [hcount]
    decide +kernel

end Keymap.Template
