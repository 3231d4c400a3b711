-- Taking one entry out of an array: the last entry takes its place. What
-- comes before the place stays, and what comes after it is only rearranged.

namespace Keymap

variable {α : Type}

/-- The array without its entry at `i`. The last entry takes its place. -/
def removeAt (xs : Array α) (i : Nat) (h : i < xs.size) : Array α :=
  (xs.set i (xs.back (Nat.zero_lt_of_lt h))).pop

@[simp] theorem size_removeAt (xs : Array α) (i : Nat) (h : i < xs.size) :
    (removeAt xs i h).size = xs.size - 1 := by
  simp [removeAt]

/-- An array with an entry at `i` is what comes before, the entry, and what
comes after. -/
theorem toList_eq_of_lt (xs : Array α) (i : Nat) (h : i < xs.size) :
    xs.toList = xs.toList.take i ++ xs[i] :: xs.toList.drop (i + 1) := by
  rw [← Array.getElem_toList h, ← List.drop_eq_getElem_cons, List.take_append_drop]

theorem drop_eq_cons {xs : Array α} {i : Nat} (h : i < xs.size) :
    xs.toList.drop i = xs[i] :: xs.toList.drop (i + 1) :=
  List.drop_eq_getElem_cons (by simpa using h)

theorem drop_set {xs : Array α} {i : Nat} (h : i < xs.size) (x : α) :
    (xs.set i x).toList.drop (i + 1) = xs.toList.drop (i + 1) := by
  rw [Array.toList_set, List.drop_set_of_lt (Nat.lt_succ_self i)]

theorem take_set {xs : Array α} {i : Nat} (h : i < xs.size) (x : α) :
    (xs.set i x).toList.take (i + 1) = xs.toList.take i ++ [x] := by
  rw [Array.toList_set, List.take_succ_eq_append_getElem (by simpa using h),
    List.take_set_of_le (Nat.le_refl i)]
  simp

/-- Taking out the entry after `front` leaves `front`, and the entries of
`back` in some order. -/
theorem toList_removeAt {front back : List α} {x : α} {xs : Array α}
    (hx : xs.toList = front ++ x :: back) (h : front.length < xs.size) :
    ∃ moved, (removeAt xs front.length h).toList = front ++ moved ∧ moved.Perm back := by
  obtain ⟨l⟩ := xs
  subst hx
  rcases List.eq_nil_or_concat back with rfl | ⟨mid, z, hb⟩
  · exact ⟨[], by simp [removeAt], .nil⟩
  · obtain rfl : back = mid ++ [z] := by simpa using hb
    have hd : (z :: (mid ++ [z])).dropLast = z :: mid := @List.dropLast_concat _ (z :: mid) z
    have hl : (x :: (mid ++ [z])).getLast (List.cons_ne_nil _ _) = z :=
      List.getLast_concat (l := x :: mid)
    exact ⟨z :: mid, by simp [removeAt, hd, hl], (List.perm_append_singleton z mid).symm⟩

/-- What comes before the place stays, and what comes after it is rearranged. -/
theorem take_drop_removeAt {xs : Array α} {i : Nat} (h : i < xs.size) :
    (removeAt xs i h).toList.take i = xs.toList.take i ∧
      ((removeAt xs i h).toList.drop i).Perm (xs.toList.drop (i + 1)) := by
  have hi : (xs.toList.take i).length = i := by simp; omega
  obtain ⟨moved, hm, hp⟩ := toList_removeAt (toList_eq_of_lt xs i h) (by omega)
  simp only [hi] at hm
  rw [hm, List.take_left' hi, List.drop_left' hi]
  exact ⟨rfl, hp⟩

end Keymap
