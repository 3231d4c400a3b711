-- Numerals and their numbers. Every number has one numeral, and a numeral is read as its number.
import Keymap.Text.Digits

namespace Keymap.Text

theorem toNat_of_isDigit {c : Char} (h : c.isDigit = true) :
    c.toNat = 48 + digitValue c ∧ digitValue c < 10 := by
  simp only [Char.isDigit, Bool.and_eq_true, decide_eq_true_eq, UInt32.le_iff_toNat_le] at h
  change 48 ≤ c.toNat ∧ c.toNat ≤ 57 at h
  change c.toNat = 48 + (c.toNat - 48) ∧ c.toNat - 48 < 10
  omega

theorem digitValue_lt {c : Char} (h : c.isDigit = true) : digitValue c < 10 :=
  (toNat_of_isDigit h).2

theorem digitChar_digitValue {c : Char} (h : c.isDigit = true) :
    Nat.digitChar (digitValue c) = c := by
  obtain ⟨hvalue, hlt⟩ := toNat_of_isDigit h
  apply Char.toNat_inj.mp
  rw [Nat.toNat_digitChar_of_lt_ten hlt, hvalue]

/-- Reading more digits writes them behind those of the number so far. -/
theorem toDigits_foldl {digits : List Char} (h : ∀ c ∈ digits, c.isDigit = true) {n : Nat}
    (hn : 0 < n) :
    Nat.toDigits 10 (digits.foldl (fun n c => n * 10 + digitValue c) n)
      = Nat.toDigits 10 n ++ digits := by
  induction digits generalizing n with
  | nil => exact (List.append_nil _).symm
  | cons c digits ih =>
    obtain ⟨hc, hdigits⟩ := List.forall_mem_cons.mp h
    have hvalue := digitValue_lt hc
    have hnext : Nat.toDigits 10 (n * 10 + digitValue c) = Nat.toDigits 10 n ++ [c] := by
      have happend := Nat.toDigits_append_toDigits (b := 10) (by decide) hn hvalue
      rw [Nat.toDigits_of_lt_base hvalue, digitChar_digitValue hc] at happend
      rw [happend, Nat.mul_comm]
    rw [List.foldl_cons, ih hdigits (by omega), hnext, List.append_assoc, List.singleton_append]

theorem readDigits_toDigits (n : Nat) : readDigits (Nat.toDigits 10 n) = n := by
  have hfold : ∀ digits, readDigits digits = Nat.ofDigitChars 10 digits 0 := by
    intro digits
    simp only [readDigits, Nat.ofDigitChars, digitValue, Nat.mul_comm]
  rw [hfold, Nat.ofDigitChars_toDigits (by decide) (by decide)]

/-- The numeral of a number does not begin with a zero, but for the number zero. -/
theorem head?_toDigits_ne {n : Nat} (h : 0 < n) : (Nat.toDigits 10 n).head? ≠ some '0' := by
  induction n using Nat.strongRecOn with
  | ind n ih =>
    by_cases hn : n < 10
    · rw [Nat.toDigits_of_lt_base hn, List.head?_cons, ne_eq, Option.some.injEq,
        Nat.digitChar_eq_zero]
      omega
    · have hlt : n / 10 < n := by omega
      have hpos : 0 < n / 10 := by omega
      rw [Nat.toDigits_of_base_le (by decide) (Nat.not_lt.mp hn), List.head?_append,
        Option.or_of_isSome (List.isSome_head?.mpr Nat.toDigits_ne_nil)]
      exact ih (n / 10) hlt hpos

theorem isNumeral_toDigits (n : Nat) : isNumeral (Nat.toDigits 10 n) = true := by
  have hall : ∀ c ∈ Nat.toDigits 10 n, c.isDigit = true :=
    fun c => Nat.isDigit_of_mem_toDigits (by decide) (by decide)
  by_cases hn : n < 10
  · rw [Nat.toDigits_of_lt_base hn] at hall ⊢
    exact hall _ List.mem_cons_self
  · have hhead := head?_toDigits_ne (n := n) (by omega)
    unfold isNumeral
    split
    · next h => exact absurd h Nat.toDigits_ne_nil
    · next h => exact hall _ (by rw [h]; exact List.mem_cons_self)
    · next c cs _ h =>
      rw [h] at hall hhead
      simp only [Bool.and_eq_true, decide_eq_true_eq, List.all_eq_true]
      exact ⟨fun hc => hhead (congrArg some hc), hall⟩

theorem toDigits_readDigits {digits : List Char} (h : isNumeral digits = true) :
    Nat.toDigits 10 (readDigits digits) = digits := by
  unfold isNumeral at h
  split at h
  · cases h
  · next c =>
    have hread : readDigits [c] = digitValue c := Nat.zero_add _
    rw [hread, Nat.toDigits_of_lt_base (digitValue_lt h), digitChar_digitValue h]
  · next c cs _ =>
    simp only [Bool.and_eq_true, decide_eq_true_eq, List.all_eq_true] at h
    obtain ⟨hc, hall⟩ := h
    obtain ⟨hdigit, hcs⟩ := List.forall_mem_cons.mp hall
    have hvalue := digitValue_lt hdigit
    have hchar := digitChar_digitValue hdigit
    have hpos : 0 < digitValue c := by
      apply Nat.pos_of_ne_zero
      intro hzero
      rw [hzero] at hchar
      exact hc hchar.symm
    have hread : readDigits (c :: cs)
        = cs.foldl (fun n c => n * 10 + digitValue c) (digitValue c) := by
      rw [readDigits, List.foldl_cons, Nat.zero_mul, Nat.zero_add]
    rw [hread, toDigits_foldl hcs hpos, Nat.toDigits_of_lt_base hvalue, hchar]
    rfl

/-- The numerals are the digits of the numbers. -/
theorem isNumeral_iff {digits : List Char} :
    isNumeral digits = true ↔ ∃ n, digits = Nat.toDigits 10 n := by
  constructor
  · intro h
    exact ⟨_, (toDigits_readDigits h).symm⟩
  · rintro ⟨n, rfl⟩
    exact isNumeral_toDigits n

end Keymap.Text
