-- Which arguments an expanded template depends on. They are those that it has pieces for, and
-- the number of its arguments is exactly one past the last of them.
import Keymap.Proofs.TemplatePieces
import Mathlib.Tactic.ByContra

namespace Keymap.Template

variable {template : String} {args args' : List String} {m n : Nat}

/-! ## Arguments that a template uses -/

/-- The template has a piece for the argument with this index. -/
def Uses (template : String) (n : Nat) : Prop := .arg n ∈ pieces template.toList

/-- The two lists have the same argument with this index. A missing one is empty. -/
def SameArg (args args' : List String) (n : Nat) : Prop := args[n]?.getD "" = args'[n]?.getD ""

theorem tally_fst_le_iff {ps : List Piece} {t : Nat × Bool} :
    (ps.foldl Piece.tally t).1 ≤ m ↔ t.1 ≤ m ∧ ∀ n, .arg n ∈ ps → n < m := by
  induction ps generalizing t with
  | nil => simp
  | cons p ps ih =>
    rw [List.foldl_cons, ih]
    cases p with
    | char c => simp [Piece.tally]
    | arg k =>
      simp only [Piece.tally, Nat.max_le, and_assoc, Nat.succ_le_iff, List.mem_cons,
        Piece.arg.injEq, forall_eq_or_imp]

theorem tally_snd_iff {ps : List Piece} {t : Nat × Bool} :
    (ps.foldl Piece.tally t).2 = true ↔ t.2 = true ∨ .arg 0 ∈ ps := by
  induction ps generalizing t with
  | nil => simp
  | cons p ps ih =>
    rw [List.foldl_cons, ih]
    cases p with
    | char c => simp [Piece.tally]
    | arg k => simp [Piece.tally, or_assoc, eq_comm (a := k) (b := 0)]

theorem usesZero_iff : usesZero template = true ↔ Uses template 0 := by
  rw [usesZero, counts_eq, tally_snd_iff, Uses]
  simp

/-- The number of arguments is the least one that leaves out none that is used. -/
theorem argCount_le_iff : argCount template ≤ m ↔ ∀ n, Uses template n → n < m := by
  rw [argCount, counts_eq, tally_fst_le_iff]
  simp [Uses]

theorem Uses.lt_argCount (h : Uses template n) : n < argCount template :=
  argCount_le_iff.mp (Nat.le_refl _) n h

/-- The last argument is used. -/
theorem uses_last (h : 0 < argCount template) : Uses template (argCount template - 1) := by
  by_contra hn
  have hle : argCount template ≤ argCount template - 1 := by
    refine argCount_le_iff.mpr fun n hu => ?_
    have hlt := hu.lt_argCount
    have hne : n ≠ argCount template - 1 := by
      rintro rfl
      exact hn hu
    omega
  omega

theorem argCount_le_indexLimit (template : String) : argCount template ≤ indexLimit :=
  argCount_le_iff.mpr fun _ h => lt_indexLimit h

/-! ## Arguments that make a difference -/

/-- Only the arguments that a template uses make a difference. -/
theorem expand_congr (h : ∀ n, Uses template n → SameArg args args' n) :
    expand template args = expand template args' := by
  rw [expand_eq, expand_eq, fill_congr h]

/-- The two lists are of the same length, and differ at this index or nowhere. -/
structure SameBut (n : Nat) (args args' : List String) : Prop where
  length : args'.length = args.length
  others : ∀ m, m ≠ n → args'[m]? = args[m]?

/-- The argument with this index may make a difference. -/
def Matters (template : String) (n : Nat) : Prop :=
  ∃ args args', SameBut n args args' ∧ expand template args ≠ expand template args'

/-- One argument, with nothing in those before it. -/
def onlyArg (n : Nat) (text : String) : List String := List.replicate n "" ++ [text]

theorem sameBut_onlyArg (n : Nat) (text text' : String) :
    SameBut n (onlyArg n text) (onlyArg n text') := by
  refine ⟨by simp [onlyArg], fun m hm => ?_⟩
  rcases Nat.lt_or_gt_of_ne hm with hlt | hgt
  · simp only [onlyArg]
    rw [List.getElem?_append_left (by simpa using hlt),
      List.getElem?_append_left (by simpa using hlt)]
  · rw [List.getElem?_eq_none (by simp [onlyArg]; omega),
      List.getElem?_eq_none (by simp [onlyArg]; omega)]

theorem getD_onlyArg (n m : Nat) (text : String) :
    (onlyArg n text)[m]?.getD "" = if m = n then text else "" := by
  rcases Nat.lt_trichotomy m n with hlt | rfl | hgt
  · rw [onlyArg, List.getElem?_append_left (by simpa using hlt), List.getElem?_replicate,
      if_pos hlt, if_neg (Nat.ne_of_lt hlt)]
    rfl
  · simp [onlyArg]
  · rw [List.getElem?_eq_none (by simp [onlyArg]; omega), if_neg (Nat.ne_of_gt hgt)]
    rfl

/-- A letter in the place of an argument is seen as often as the argument is used. -/
theorem length_expand_onlyArg (ps : List Piece) (n : Nat) :
    (ps.flatMap (Piece.expand (onlyArg n "x"))).length
      = (ps.flatMap (Piece.expand (onlyArg n ""))).length + ps.count (.arg n) := by
  induction ps with
  | nil => rfl
  | cons p ps ih =>
    rw [List.flatMap_cons, List.flatMap_cons, List.length_append, List.length_append, ih,
      List.count_cons]
    cases p with
    | char c => simp [Piece.expand]; omega
    | arg k =>
      by_cases hk : k = n
      · simp [Piece.expand, getD_onlyArg, hk]; omega
      · simp [Piece.expand, getD_onlyArg, hk]

/-- An argument makes a difference if and only if it is used. -/
theorem matters_iff : Matters template n ↔ Uses template n := by
  constructor
  · rintro ⟨args, args', h, hne⟩
    by_contra hn
    refine hne (expand_congr fun m hm => ?_)
    have hmn : m ≠ n := by
      rintro rfl
      exact hn hm
    rw [SameArg, h.others m hmn]
  · intro h
    refine ⟨onlyArg n "", onlyArg n "x", sameBut_onlyArg n "" "x", fun heq => ?_⟩
    have hlength := length_expand_onlyArg (pieces template.toList) n
    have hcount := List.count_pos_iff.mpr h
    have heq := congrArg String.length heq
    simp only [expand_eq, fill, String.length_ofList] at heq
    omega

/-- The count of arguments and the use of the first one say exactly what a template depends on.
Arguments past the count make no difference, nor does the one with index zero unless it is used.
The last one that is counted may make one, and so may the one with index zero if it is used. There
never are more arguments than the limit. -/
theorem a_template_depends_on_what_it_counts (template : String) :
    (∀ args args', (∀ n, 1 ≤ n → n < argCount template → SameArg args args' n) →
        (usesZero template = true → SameArg args args' 0) →
          expand template args = expand template args')
      ∧ (0 < argCount template → Matters template (argCount template - 1))
      ∧ (usesZero template = true ↔ Matters template 0)
      ∧ argCount template ≤ 100000000 := by
  refine ⟨?_, ?_, ?_, ?_⟩
  · intro args args' hcounted hzero
    refine expand_congr fun n hn => ?_
    cases n with
    | zero => exact hzero (usesZero_iff.mpr hn)
    | succ n => exact hcounted (n + 1) (Nat.succ_pos n) hn.lt_argCount
  · intro h
    exact matters_iff.mpr (uses_last h)
  · rw [usesZero_iff, matters_iff]
  · exact argCount_le_indexLimit template

/-- A template with a dollar, an argument, a name, and a number that is too large. -/
theorem a_goto_depends_on_its_line :
    expand "$$1 goto $1, $file $100000000" ["a", "25", "b"]
        = expand "$$1 goto $1, $file $100000000" ["", "25"]
      ∧ Matters "$$1 goto $1, $file $100000000" 1
      ∧ ¬ Matters "$$1 goto $1, $file $100000000" 0 := by
  obtain ⟨hsame, hlast, hzero, -⟩ :=
    a_template_depends_on_what_it_counts "$$1 goto $1, $file $100000000"
  have hcount : argCount "$$1 goto $1, $file $100000000" = 2 := by decide +kernel
  have hnot : usesZero "$$1 goto $1, $file $100000000" = false := by decide +kernel
  rw [hcount] at hsame hlast
  rw [hnot] at hsame hzero
  refine ⟨hsame _ _ ?_ nofun, hlast Nat.two_pos, fun h => ?_⟩
  · intro n hn hlt
    obtain rfl : n = 1 := by omega
    rfl
  · cases hzero.mpr h

end Keymap.Template
