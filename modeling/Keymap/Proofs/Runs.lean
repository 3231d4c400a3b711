-- Runs: the moves of a branch, one after the other, up to where its match is
-- complete.
import Keymap.Proofs.Layout
import Keymap.Proofs.Moves

namespace Keymap.Branch

/-- The moves of the path make `b'` of the branch. -/
inductive Runs (program : Program) (style : CaptureStyle) : Branch → Path → Branch → Prop
  | nil {b : Branch} : Runs program style b [] b
  | cons {b t b' : Branch} {m : Move} {path : Path} (hm : Moves program style b m t)
    (hr : Runs program style t path b') : Runs program style b (m :: path) b'

variable {program : Program} {style : CaptureStyle} {b t b' : Branch} {path path' : Path}

theorem Runs.single {m : Move} (h : Moves program style b m b') : Runs program style b [m] b' :=
  .cons h .nil

theorem Runs.append (h : Runs program style b path t) (h' : Runs program style t path' b') :
    Runs program style b (path ++ path') b' := by
  induction h with
  | nil => exact h'
  | cons hm _ ih => exact .cons hm (ih h')

/-! ## The end of a run -/

/-- A complete branch has no moves. -/
theorem Complete.not_moves {m : Move} (h : Complete program b) : ¬ Moves program style b m t := by
  intro hm
  rcases h with h | h | ⟨h, hr⟩
  · cases hm <;> simp_all
  · exact Moves.of_done h hm
  · obtain ⟨-, address, rest, hr', -⟩ := hm.of_ret h
    rw [hr] at hr'
    cases hr'

theorem Runs.of_complete (h : Runs program style b path b') (hb : Complete program b) :
    path = [] ∧ b' = b := by
  cases h with
  | nil => exact ⟨rfl, rfl⟩
  | cons hm _ => exact absurd hm hb.not_moves

/-- A complete run that is not at its end goes on with a move. -/
theorem Runs.exists_move (h : Runs program style b path b') (hc : Complete program b')
    (hb : ¬ Complete program b) :
    ∃ m t rest, path = m :: rest ∧ Moves program style b m t ∧ Runs program style t rest b' := by
  cases h with
  | nil => exact absurd hc hb
  | cons hm hr => exact ⟨_, _, _, rfl, hm, hr⟩

/-! ## The first instruction of a complete run -/

theorem not_complete {i : Inst} (hi : program.get? b.pc = some i) (hd : i ≠ .done)
    (hr : i ≠ .ret) : ¬ Complete program b := by
  simp [Complete, hi, hd, hr]

section

variable (h : Runs program style b path b') (hc : Complete program b')

include h hc

theorem Runs.of_consume {matcher : Matcher}
    (hi : program.get? b.pc = some (.consume matcher)) :
    ∃ e v rest, matcher.accept? e = some v ∧ path = .take e v :: rest
      ∧ Runs program style
        { b with pc := b.pc + 1, consumed := b.consumed + 1, payloads := v :: b.payloads }
        rest b' := by
  obtain ⟨m, t, rest, rfl, hm, hr⟩ := h.exists_move hc (not_complete hi nofun nofun)
  obtain ⟨e, v, hv, rfl, rfl⟩ := hm.of_consume hi
  exact ⟨e, v, rest, hv, rfl, hr⟩

theorem Runs.of_jump {n : Nat} (hj : JumpsTo program b.pc n) :
    ∃ rest, path = .quiet :: rest ∧ Runs program style (b.goto n) rest b' := by
  obtain ⟨offset, hi, rfl⟩ := hj
  obtain ⟨m, t, rest, rfl, hm, hr⟩ := h.exists_move hc (not_complete hi nofun nofun)
  obtain ⟨rfl, rfl⟩ := hm.of_jump hi
  exact ⟨rest, rfl, hr⟩

theorem Runs.of_split {n n' : Nat} (hs : SplitsTo program b.pc n n') :
    ∃ rest, path = .quiet :: rest
      ∧ (Runs program style (b.goto n) rest b' ∨ Runs program style (b.goto n') rest b') := by
  obtain ⟨first, second, hi, rfl, rfl⟩ := hs
  obtain ⟨m, t, rest, rfl, hm, hr⟩ := h.exists_move hc (not_complete hi nofun nofun)
  obtain ⟨rfl, rfl | rfl⟩ := hm.of_split hi
  · exact ⟨rest, rfl, .inl hr⟩
  · exact ⟨rest, rfl, .inr hr⟩

theorem Runs.of_capStart (hi : program.get? b.pc = some .capStart) :
    ∃ rest, path = .quiet :: rest
      ∧ Runs program style { b with pc := b.pc + 1, marks := b.consumed :: b.marks } rest b' := by
  obtain ⟨m, t, rest, rfl, hm, hr⟩ := h.exists_move hc (not_complete hi nofun nofun)
  obtain ⟨rfl, rfl⟩ := hm.of_capStart hi
  exact ⟨rest, rfl, hr⟩

theorem Runs.of_capEnd {template : String} (hi : program.get? b.pc = some (.capEnd template)) :
    ∃ rest, path = .quiet :: rest
      ∧ Runs program style (closeCapture style template (b.goto (b.pc + 1))) rest b' := by
  obtain ⟨m, t, rest, rfl, hm, hr⟩ := h.exists_move hc (not_complete hi nofun nofun)
  obtain ⟨rfl, rfl⟩ := hm.of_capEnd hi
  exact ⟨rest, rfl, hr⟩

theorem Runs.of_call {address : Nat} (hi : program.get? b.pc = some (.call address)) :
    ∃ rest, path = .enter :: rest
      ∧ Runs program style { b with pc := address, returns := (b.pc + 1) :: b.returns }
        rest b' := by
  obtain ⟨m, t, rest, rfl, hm, hr⟩ := h.exists_move hc (not_complete hi nofun nofun)
  obtain ⟨rfl, rfl⟩ := hm.of_call hi
  exact ⟨rest, rfl, hr⟩

/-- A rule that has a caller goes back to it. -/
theorem Runs.of_ret {address : Nat} {returns : List Nat}
    (hi : program.get? b.pc = some .ret) (hb : b.returns = address :: returns) :
    ∃ rest, path = .leave :: rest
      ∧ Runs program style { b with pc := address, returns } rest b' := by
  have hn : ¬ Complete program b := by
    simp [Complete, hi, hb]
  obtain ⟨m, t, rest, rfl, hm, hr⟩ := h.exists_move hc hn
  obtain ⟨rfl, address', returns', hb', rfl⟩ := hm.of_ret hi
  rw [hb, List.cons.injEq] at hb'
  obtain ⟨rfl, rfl⟩ := hb'
  exact ⟨rest, rfl, hr⟩

end

end Keymap.Branch
