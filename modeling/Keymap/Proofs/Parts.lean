-- The parts of a pattern, and where their codes stand in its code. Each slot of the code
-- belongs to one of the parts, and a jump never leads out of the code of its part.
import Keymap.Program.Code
import Mathlib.Data.List.Basic

namespace Keymap

/-- How far away the places are that an instruction may jump to. -/
def Slot.offsets : Slot → List Int
  | .inst (.jump offset) => [offset]
  | .inst (.split first second) => [first, second]
  | _ => []

namespace Pattern

/-- The pattern is made of `q`, the code of which comes after `k` slots of its own. -/
inductive Child : Pattern → Nat → Pattern → Prop
  | seqFirst (p q : Pattern) : Child (.seq p q) 0 p
  | seqSecond (p q : Pattern) : Child (.seq p q) p.code.length q
  | altFirst (p q : Pattern) : Child (.alt p q) 1 p
  | altSecond (p q : Pattern) : Child (.alt p q) (p.code.length + 2) q
  | star (p : Pattern) : Child (.star p) 1 p
  | plus (p : Pattern) : Child (.plus p) 0 p
  | opt (p : Pattern) : Child (.opt p) 1 p
  | capture (p : Pattern) (template : String) : Child (.capture p template) 1 p

/-- The pattern has `r` in it. If its own code begins at `a`, that of `r` begins at `n`. -/
inductive Part : Pattern → Nat → Pattern → Nat → Prop
  | self (p : Pattern) (a : Nat) : Part p a p a
  | child {p q r : Pattern} {a k n : Nat} (hc : Child p k q) (hq : Part q (a + k) r n) :
    Part p a r n

/-- The slot at `k` is one of the pattern itself, and not of one that it is made of. -/
structure Owns (p : Pattern) (k : Nat) : Prop where
  lt : k < p.code.length
  outside : ∀ n q, Child p n q → ¬ (n ≤ k ∧ k < n + q.code.length)

variable {p q r : Pattern} {a k n : Nat}

/-! ## Where the parts are -/

/-- The code of a child is a piece of the code. -/
theorem Child.exists_append (h : Child p k q) :
    ∃ front back, p.code = front ++ q.code ++ back ∧ front.length = k := by
  cases h with
  | seqFirst p q => exact ⟨[], q.code, by simp [code_seq], rfl⟩
  | seqSecond p q => exact ⟨p.code, [], by simp [code_seq], rfl⟩
  | altFirst p q => exact ⟨[_], _, code_alt .., rfl⟩
  | altSecond p q =>
    exact ⟨.inst (.split 1 (p.code.length + 2)) :: p.code ++ [.inst (.jump (q.code.length + 1))],
      [], by simp [code_alt], by simp⟩
  | star p => exact ⟨[_], [_], code_star .., rfl⟩
  | plus p => exact ⟨[], [_], code_plus .., rfl⟩
  | opt => exact ⟨[.inst (.split 1 (q.code.length + 1))], [], by simp [code_opt], rfl⟩
  | capture p template => exact ⟨[_], [_], code_capture .., rfl⟩

theorem Child.length_le (h : Child p k q) : k + q.code.length ≤ p.code.length := by
  obtain ⟨front, back, hcode, rfl⟩ := h.exists_append
  rw [hcode, List.length_append, List.length_append]
  omega

theorem Part.exists_append (h : Part p a r n) :
    ∃ front back, p.code = front ++ r.code ++ back ∧ n = a + front.length := by
  induction h with
  | self p a => exact ⟨[], [], by simp⟩
  | @child p q r a k n hc hq ih =>
    obtain ⟨before, after, hp, rfl⟩ := hc.exists_append
    obtain ⟨front, back, hcode, hn⟩ := ih
    refine ⟨before ++ front, back ++ after, ?_, ?_⟩
    · rw [hp, hcode]
      simp
    · rw [hn, List.length_append, Nat.add_assoc]

/-- Each slot belongs to a part of the pattern. -/
theorem exists_owner (p : Pattern) (a : Nat) {i : Nat} (h : i < p.code.length) :
    ∃ r n k, Part p a r n ∧ r.Owns k ∧ a + i = n + k := by
  by_cases hown : ∀ n q, Child p n q → ¬ (n ≤ i ∧ i < n + q.code.length)
  · exact ⟨p, a, i, .self p a, ⟨h, hown⟩, rfl⟩
  · -- Otherwise it stands in the code of a child, and belongs to a part of the child.
    push Not at hown
    obtain ⟨m, q, hc, hle, hlt⟩ := hown
    obtain ⟨r, n, k, hr, hk, hi⟩ := exists_owner q (a + m) (i := i - m) (by omega)
    exact ⟨r, n, k, .child hc hr, hk, by omega⟩
termination_by sizeOf p
decreasing_by cases hc <;> simp <;> omega

/-! ## Jumps -/

theorem Owns.alt (h : (alt p q).Owns k) : k = 0 ∨ k = p.code.length + 1 := by
  have hfirst := h.outside _ _ (.altFirst p q)
  have hsecond := h.outside _ _ (.altSecond p q)
  have hlt := h.lt
  simp only [code_alt, List.length_append, List.length_cons] at hlt
  omega

theorem Owns.star (h : (star p).Owns k) : k = 0 ∨ k = p.code.length + 1 := by
  have hbody := h.outside _ _ (.star p)
  have hlt := h.lt
  simp only [code_star, List.length_append, List.length_cons, List.length_nil] at hlt
  omega

theorem Owns.plus (h : (plus p).Owns k) : k = p.code.length := by
  have hbody := h.outside _ _ (.plus p)
  have hlt := h.lt
  simp only [code_plus, List.length_append, List.length_cons, List.length_nil] at hlt
  omega

theorem Owns.opt (h : (opt p).Owns k) : k = 0 := by
  have hbody := h.outside _ _ (.opt p)
  have hlt := h.lt
  simp only [code_opt, List.length_cons] at hlt
  omega

theorem Owns.capture {template : String} (h : (capture p template).Owns k) :
    k = 0 ∨ k = p.code.length + 1 := by
  have hbody := h.outside _ _ (.capture p template)
  have hlt := h.lt
  simp only [code_capture, List.length_append, List.length_cons, List.length_nil] at hlt
  omega

/-- A jump or a split leads to a place in the code of the pattern that it belongs to, or to
its end. -/
theorem Owns.offsets (h : p.Owns k) {s : Slot} (hs : p.code[k]? = some s) :
    ∀ offset ∈ s.offsets, 0 ≤ k + offset ∧ k + offset ≤ p.code.length := by
  cases p with
  | event m =>
    obtain ⟨-, rfl⟩ : k = 0 ∧ .inst (.consume m) = s := by
      simpa [code_event, List.getElem?_singleton] using hs
    simp [Slot.offsets]
  | seq p q =>
    have hfirst := h.outside _ _ (.seqFirst p q)
    have hsecond := h.outside _ _ (.seqSecond p q)
    have hlt := h.lt
    rw [code_seq, List.length_append] at hlt
    omega
  | alt p q =>
    rcases h.alt with rfl | rfl
    · obtain rfl : .inst (.split 1 (p.code.length + 2)) = s := by simpa [code_alt] using hs
      simp [Slot.offsets, code_alt]
      omega
    · obtain rfl : .inst (.jump (q.code.length + 1)) = s := by simpa [code_alt] using hs
      simp [Slot.offsets, code_alt]
      omega
  | star p =>
    rcases h.star with rfl | rfl
    · obtain rfl : .inst (.split 1 (p.code.length + 2)) = s := by simpa [code_star] using hs
      simp [Slot.offsets, code_star]
      omega
    · obtain rfl : .inst (.jump (-(p.code.length + 1 : Int))) = s := by
        simpa [code_star] using hs
      simp [Slot.offsets, code_star]
      omega
  | plus p =>
    obtain rfl := h.plus
    obtain rfl : .inst (.split (-(p.code.length : Int)) 1) = s := by simpa [code_plus] using hs
    simp [Slot.offsets, code_plus]
    omega
  | opt p =>
    obtain rfl := h.opt
    obtain rfl : .inst (.split 1 (p.code.length + 1)) = s := by simpa [code_opt] using hs
    simp [Slot.offsets, code_opt]
    omega
  | capture p template =>
    rcases h.capture with rfl | rfl
    · obtain rfl : .inst .capStart = s := by simpa [code_capture] using hs
      simp [Slot.offsets]
    · obtain rfl : .inst (.capEnd template) = s := by simpa [code_capture] using hs
      simp [Slot.offsets]
  | done =>
    obtain ⟨-, rfl⟩ : k = 0 ∧ .inst .done = s := by
      simpa [code_done, List.getElem?_singleton] using hs
    simp [Slot.offsets]
  | rule name =>
    obtain ⟨-, rfl⟩ : k = 0 ∧ .callRule name = s := by
      simpa [code_rule, List.getElem?_singleton] using hs
    simp [Slot.offsets]

end Pattern

end Keymap
