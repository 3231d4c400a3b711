-- Calls make no difference. What a branch consumes on its way to where it waits, or to where its
-- match is complete, and what it has captured then, is the same whether it calls a rule or has
-- the body of the rule in the place of the call.
import Keymap.Proofs.Inlining

namespace Keymap

namespace Branch

/-! ## What a branch shows -/

/-- The branch waits for an event, or its match is complete with these captures. -/
def Stops (program : Program) (b : Branch) : Option Captures → Prop
  | none => ∃ m, program.get? b.pc = some (.consume m)
  | some c => Complete program b ∧ b.captures = c

/-- The branch can consume the events and then stop. -/
def Shows (program : Program) (style : CaptureStyle) (b : Branch) (es : List Input)
    (stop : Option Captures) : Prop :=
  ∃ path t, Runs program style b path t ∧ Path.events path = es ∧ Stops program t stop

/-- It can do so with fewer moves than `limit`. -/
def ShowsBelow (limit : Nat) (program : Program) (style : CaptureStyle) (b : Branch)
    (es : List Input) (stop : Option Captures) : Prop :=
  ∃ path t, path.length < limit ∧ Runs program style b path t ∧ Path.events path = es
    ∧ Stops program t stop

/-- The branch at another place, with other calls open. -/
def put (b : Branch) (pc : Nat) (returns : List Nat) : Branch := { b with pc, returns }

variable {program program' : Program} {style : CaptureStyle} {b t : Branch} {es : List Input}
  {stop : Option Captures} {limit : Nat}

theorem Shows.cons {m : Move} (hm : Moves program style b m t) (h : Shows program style t es stop) :
    Shows program style b (m.event?.toList ++ es) stop := by
  obtain ⟨path, u, hr, rfl, hu⟩ := h
  exact ⟨m :: path, u, .cons hm hr, Path.events_cons m path, hu⟩

theorem Shows.exists_below (h : Shows program style b es stop) :
    ∃ limit, ShowsBelow limit program style b es stop := by
  obtain ⟨path, t, hr, he, ht⟩ := h
  exact ⟨path.length + 1, path, t, Nat.lt_succ_self _, hr, he, ht⟩

theorem not_stops {i : Inst} (hi : program.get? b.pc = some i) (hc : ∀ m, i ≠ .consume m)
    (hd : i ≠ .done) (hr : i = .ret → b.returns ≠ []) : ¬ Stops program b stop := by
  cases stop with
  | none =>
    rintro ⟨m, hm⟩
    exact hc m (Option.some.inj (hi.symm.trans hm))
  | some c =>
    rintro ⟨hnone | hdone | ⟨hret, hnil⟩, -⟩
    · simp [hi] at hnone
    · exact hd (Option.some.inj (hi.symm.trans hdone))
    · exact hr (Option.some.inj (hi.symm.trans hret)) hnil

/-- A branch that has not stopped goes on with a move. -/
theorem ShowsBelow.exists_move (h : ShowsBelow (limit + 1) program style b es stop)
    (hb : ¬ Stops program b stop) :
    ∃ m t es', Moves program style b m t ∧ es = m.event?.toList ++ es'
      ∧ ShowsBelow limit program style t es' stop := by
  obtain ⟨path, u, hlt, hr, rfl, hu⟩ := h
  cases hr with
  | nil => exact absurd hu hb
  | @cons _ t _ m rest hm hr =>
    exact ⟨m, t, Path.events rest, hm, Path.events_cons m rest, rest, u,
      Nat.lt_of_succ_lt_succ hlt, hr, rfl, hu⟩

/-! ## Places that show the same -/

section

variable (program program' : Program) (style : CaptureStyle)

/-- What a branch shows at `x` in fewer moves than `limit`, in the one program, it shows at `y` in
the other. The lists are the calls that are open. -/
def Mimics (limit x : Nat) (rs : List Nat) (y : Nat) (rs' : List Nat) : Prop :=
  ∀ (b : Branch) (es : List Input) (stop : Option Captures),
    ShowsBelow limit program style (b.put x rs) es stop → Shows program' style (b.put y rs') es stop

end

variable {x y z x' y' z' : Nat} {rs rs' : List Nat}

theorem mimics_zero : Mimics program program' style 0 x rs y rs' := by
  rintro b es stop ⟨path, t, hlt, -⟩
  exact absurd hlt (Nat.not_lt_zero _)

theorem Mimics.mono {limit' : Nat} (h : Mimics program program' style limit x rs y rs')
    (hle : limit' ≤ limit) : Mimics program program' style limit' x rs y rs' := by
  rintro b es stop ⟨path, t, hlt, hshows⟩
  exact h b es stop ⟨path, t, Nat.lt_of_lt_of_le hlt hle, hshows⟩

/-! ### One instruction on each side -/

theorem Mimics.consume {m : Matcher} (hi : program.get? x = some (.consume m))
    (hi' : program'.get? y = some (.consume m))
    (h : Mimics program program' style limit (x + 1) rs (y + 1) rs') :
    Mimics program program' style (limit + 1) x rs y rs' := by
  rintro b es stop ⟨path, t, hlt, hr, rfl, ht⟩
  cases hr with
  | nil =>
    cases stop with
    | none => exact ⟨[], _, .nil, rfl, m, hi'⟩
    | some c => exact absurd ht.1 (not_complete hi nofun nofun)
  | cons hm hr =>
    obtain ⟨e, v, hv, rfl, rfl⟩ := hm.of_consume hi
    have hshows : Shows program' style _ _ stop :=
      h { b with consumed := b.consumed + 1, payloads := v :: b.payloads } _ stop
        ⟨_, t, Nat.lt_of_succ_lt_succ hlt, hr, rfl, ht⟩
    exact hshows.cons (.consume (b := b.put y rs') hi' hv)

theorem Mimics.jump (hj : JumpsTo program x z) (hj' : JumpsTo program' y z')
    (h : Mimics program program' style limit z rs z' rs') :
    Mimics program program' style (limit + 1) x rs y rs' := by
  intro b es stop hs
  obtain ⟨offset, hi, rfl⟩ := hj
  obtain ⟨offset', hi', rfl⟩ := hj'
  obtain ⟨m, t, es', hm, rfl, ht⟩ := hs.exists_move (not_stops hi nofun nofun nofun)
  obtain ⟨rfl, rfl⟩ := hm.of_jump hi
  exact (h b es' stop ht).cons (.jump (b := b.put y rs') hi')

theorem Mimics.split {w w' : Nat} (hs : SplitsTo program x z w) (hs' : SplitsTo program' y z' w')
    (h : Mimics program program' style limit z rs z' rs')
    (hw : Mimics program program' style limit w rs w' rs') :
    Mimics program program' style (limit + 1) x rs y rs' := by
  intro b es stop hshows
  obtain ⟨first, second, hi, rfl, rfl⟩ := hs
  obtain ⟨first', second', hi', rfl, rfl⟩ := hs'
  obtain ⟨m, t, es', hm, rfl, ht⟩ := hshows.exists_move (not_stops hi nofun nofun nofun)
  obtain ⟨rfl, rfl | rfl⟩ := hm.of_split hi
  · exact (h b es' stop ht).cons (.splitFirst (b := b.put y rs') hi')
  · exact (hw b es' stop ht).cons (.splitSecond (b := b.put y rs') hi')

theorem Mimics.capStart (hi : program.get? x = some .capStart)
    (hi' : program'.get? y = some .capStart)
    (h : Mimics program program' style limit (x + 1) rs (y + 1) rs') :
    Mimics program program' style (limit + 1) x rs y rs' := by
  intro b es stop hs
  obtain ⟨m, t, es', hm, rfl, ht⟩ := hs.exists_move (not_stops hi nofun nofun nofun)
  obtain ⟨rfl, rfl⟩ := hm.of_capStart hi
  have hshows := h { b with marks := b.consumed :: b.marks } es' stop ht
  exact hshows.cons (.capStart (b := b.put y rs') hi')

theorem Mimics.capEnd {template : String} (hi : program.get? x = some (.capEnd template))
    (hi' : program'.get? y = some (.capEnd template))
    (h : Mimics program program' style limit (x + 1) rs (y + 1) rs') :
    Mimics program program' style (limit + 1) x rs y rs' := by
  intro b es stop hs
  obtain ⟨m, t, es', hm, rfl, ht⟩ := hs.exists_move (not_stops hi nofun nofun nofun)
  obtain ⟨rfl, rfl⟩ := hm.of_capEnd hi
  have hshows := h (closeCapture style template b) es' stop ht
  exact hshows.cons (.capEnd (b := b.put y rs') hi')

/-- Where matches are complete on both sides. -/
theorem Mimics.complete (hx : ∀ b : Branch, Complete program (b.put x rs))
    (hy : ∀ b : Branch, Complete program' (b.put y rs')) :
    Mimics program program' style limit x rs y rs' := by
  rintro b es stop ⟨path, t, -, hr, rfl, ht⟩
  obtain ⟨rfl, rfl⟩ := hr.of_complete (hx b)
  cases stop with
  | none =>
    obtain ⟨m, hm⟩ := ht
    exact absurd (hx b) (not_complete hm nofun nofun)
  | some c => exact ⟨[], _, .nil, rfl, hy b, ht.2⟩

/-! ### Calls on one side -/

theorem Mimics.call {address : Nat} (hi : program.get? x = some (.call address))
    (h : Mimics program program' style limit address ((x + 1) :: rs) y rs') :
    Mimics program program' style (limit + 1) x rs y rs' := by
  intro b es stop hs
  obtain ⟨m, t, es', hm, rfl, ht⟩ := hs.exists_move (not_stops hi nofun nofun nofun)
  obtain ⟨rfl, rfl⟩ := hm.of_call hi
  exact h b es' stop ht

theorem Mimics.ret {address : Nat} (hi : program.get? x = some .ret)
    (h : Mimics program program' style limit address rs y rs') :
    Mimics program program' style (limit + 1) x (address :: rs) y rs' := by
  intro b es stop hs
  obtain ⟨m, t, es', hm, rfl, ht⟩ := hs.exists_move (not_stops hi nofun nofun nofun)
  obtain ⟨rfl, address', rest, hreturns, rfl⟩ := hm.of_ret hi
  obtain ⟨rfl, rfl⟩ := List.cons.inj hreturns
  exact h b es' stop ht

theorem Mimics.callAfter {address : Nat} (hi : program'.get? y = some (.call address))
    (h : Mimics program program' style limit x rs address ((y + 1) :: rs')) :
    Mimics program program' style limit x rs y rs' := by
  intro b es stop hs
  exact (h b es stop hs).cons (.call (b := b.put y rs') hi)

theorem Mimics.retAfter {address : Nat} (hi : program'.get? y = some .ret)
    (h : Mimics program program' style limit x rs address rs') :
    Mimics program program' style limit x rs y (address :: rs') := by
  intro b es stop hs
  exact (h b es stop hs).cons (.ret (b := b.put y (address :: rs')) hi rfl)

/-! ## Patterns that resemble each other -/

section

variable {addresses addresses' : List (String × Nat)} {rules rules' : List (String × Pattern)}
  {p q : Pattern} {a c : Nat}

/-- The codes of two patterns that resemble each other show the same, if the places behind them
do. -/
theorem mimics_of_resembles (hl : RuleLayout program addresses rules)
    (hl' : RuleLayout program' addresses' rules') (h : p.Resembles rules rules' q)
    (hp : Placed program addresses a p.code) (hq : Placed program' addresses' c q.code)
    (hstop : Mimics program program' style limit (a + p.code.length) rs (c + q.code.length) rs') :
    Mimics program program' style limit a rs c rs' := by
  induction h generalizing a c rs rs' limit with
  | event m =>
    simp only [Pattern.code_event, placed_inst] at hp hq
    exact (Mimics.consume hp.1 hq.1 hstop).mono (Nat.le_succ limit)
  | seq _ _ ihp ihq =>
    simp only [Pattern.code_seq, placed_append, List.length_append, ← Nat.add_assoc] at hp hq hstop
    exact ihp hp.1 hq.1 (ihq hp.2 hq.2 hstop)
  | alt _ _ ihp ihq =>
    obtain ⟨hs, hfirst, hj, hsecond⟩ := hp.alt
    obtain ⟨hs', hfirst', hj', hsecond'⟩ := hq.alt
    have hback := (Mimics.jump hj hj' hstop).mono (Nat.le_succ limit)
    rw [← end_alt, ← end_alt] at hstop
    exact (Mimics.split hs hs' (ihp hfirst hfirst' hback) (ihq hsecond hsecond' hstop)).mono
      (Nat.le_succ limit)
  | star _ ih =>
    obtain ⟨hs, hbody, hj⟩ := hp.star
    obtain ⟨hs', hbody', hj'⟩ := hq.star
    -- The loop begins again with fewer moves.
    induction limit with
    | zero => exact mimics_zero
    | succ limit again =>
      have hstop := hstop.mono (Nat.le_succ limit)
      have hback := (Mimics.jump hj hj' (again hstop)).mono (Nat.le_succ limit)
      exact .split hs hs' (ih hbody hbody' hback) hstop
  | plus _ ih =>
    obtain ⟨hbody, hs⟩ := hp.plus
    obtain ⟨hbody', hs'⟩ := hq.plus
    induction limit with
    | zero => exact mimics_zero
    | succ limit again =>
      have hstop := hstop.mono (Nat.le_succ limit)
      exact ih hbody hbody' (.split hs hs' (again hstop) hstop)
  | opt _ ih =>
    obtain ⟨hs, hbody⟩ := hp.opt
    obtain ⟨hs', hbody'⟩ := hq.opt
    have hbehind := hstop
    rw [← end_opt, ← end_opt] at hbehind
    exact (Mimics.split hs hs' (ih hbody hbody' hbehind) hstop).mono (Nat.le_succ limit)
  | capture _ ih =>
    obtain ⟨hstart, hbody, hend⟩ := hp.capture
    obtain ⟨hstart', hbody', hend'⟩ := hq.capture
    rw [← end_capture, ← end_capture] at hstop
    have hclose := (Mimics.capEnd hend hend' hstop).mono (Nat.le_succ limit)
    exact (Mimics.capStart hstart hstart' (ih hbody hbody' hclose)).mono (Nat.le_succ limit)
  | done =>
    simp only [Pattern.code_done, placed_inst] at hp hq
    exact .complete (fun _ => .inr (.inl hp.1)) fun _ => .inr (.inl hq.1)
  | first hr _ ih =>
    obtain ⟨address, hcall, hbody, hret⟩ := hl.of_call hr hp
    have hback := (Mimics.ret hret hstop).mono (Nat.le_succ limit)
    exact (Mimics.call hcall (ih hbody hq hback)).mono (Nat.le_succ limit)
  | second hr _ ih =>
    obtain ⟨address, hcall, hbody, hret⟩ := hl'.of_call hr hq
    exact .callAfter hcall (ih hp hbody (.retAfter hret hstop))

/-- From the start, programs of patterns that resemble each other show the same. -/
theorem Shows.of_resembles (hl : Layout program addresses rules p)
    (hl' : Layout program' addresses' rules' q) (h : p.Resembles rules rules' q)
    (hs : Shows program style {} es stop) : Shows program' style {} es stop := by
  obtain ⟨limit, hbelow⟩ := hs.exists_below
  have hstop : Mimics program program' style limit (0 + p.code.length) []
      (0 + q.code.length) [] := by
    rw [Nat.zero_add, Nat.zero_add]
    exact .complete (fun _ => hl.exit.imp_right .inl) fun _ => hl'.exit.imp_right .inl
  exact mimics_of_resembles hl.toRuleLayout hl'.toRuleLayout h hl.main hl'.main hstop {} es stop
    hbelow

theorem shows_iff_of_resembles (hl : Layout program addresses rules p)
    (hl' : Layout program' addresses' rules' q) (h : p.Resembles rules rules' q) :
    Shows program style {} es stop ↔ Shows program' style {} es stop :=
  ⟨.of_resembles hl hl' h, .of_resembles hl' hl h.symm⟩

end

end Branch

end Keymap
