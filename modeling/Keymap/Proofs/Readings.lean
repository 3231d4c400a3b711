-- The code of a pattern reads what the pattern derives: each derivation is a run
-- over the code, and each complete run is a derivation.
import Keymap.Proofs.Runs

namespace Keymap.Branch

/-! ## What a part of a run leaves -/

/-- The branch after it has consumed events, with the values that are kept of
them and with other captures. -/
def past (b : Branch) (vs : List Value) (c : Captures) : Branch :=
  { b with
    captures := c
    consumed := b.consumed + vs.length
    payloads := vs.reverse ++ b.payloads }

/-- The branch with one more open capture. -/
def opened (b : Branch) : Branch := { b with marks := b.consumed :: b.marks }

/-- The branch with one more open call. -/
def called (b : Branch) (address : Nat) : Branch := { b with returns := address :: b.returns }

theorem past_past (b : Branch) (vs vs' : List Value) (c c' : Captures) :
    (b.past vs c).past vs' c' = b.past (vs ++ vs') c' := by
  simp [past, Nat.add_assoc]

/-- A capture closes over what has been consumed since it was opened. -/
theorem closeCapture_past (style : CaptureStyle) (template : String) (s : Branch)
    (vs : List Value) (c : Captures) (n : Nat) :
    closeCapture style template ((s.opened.past vs c).goto n)
      = (s.past vs (c.close style template vs)).goto n := by
  simp [closeCapture, spanFrom, past, opened, goto]

variable {program : Program} {style : CaptureStyle} {rules : List (String × Pattern)}
  {addresses : List (String × Nat)}

/-- The branch at `a` reads the path and goes on at `n`, or completes its
match, with the captures `c`. -/
def Reads (program : Program) (style : CaptureStyle) (s : Branch) (a n : Nat) (path : Path)
    (c : Captures) : Ending → Prop
  | .goesOn => Runs program style (s.goto a) path ((s.past (Path.values path) c).goto n)
  | .ends => ∃ b, Runs program style (s.goto a) path b
      ∧ program.get? b.pc = some .done ∧ b.captures = c

section

variable {s : Branch} {a a' n n' : Nat} {path path' : Path} {c c' : Captures} {k : Ending}

theorem Reads.cons {m : Move} (hm : Moves program style (s.goto a) m (s.goto a'))
    (hv : m.value? = none) (h : Reads program style s a' n path c k) :
    Reads program style s a n (m :: path) c k := by
  cases k with
  | goesOn =>
    have hvs : Path.values (m :: path) = Path.values path := by
      rw [Path.values_cons, hv]
      rfl
    rw [Reads, hvs]
    exact .cons hm h
  | ends =>
    obtain ⟨b, hr, hb⟩ := h
    exact ⟨b, .cons hm hr, hb⟩

theorem Reads.append (h : Reads program style s a n path c .goesOn)
    (h' : Reads program style (s.past (Path.values path) c) n n' path' c' k) :
    Reads program style s a n' (path ++ path') c' k := by
  cases k with
  | goesOn =>
    have hr := Runs.append h h'
    simpa [Reads, past_past] using hr
  | ends =>
    obtain ⟨b, hr, hb⟩ := h'
    exact ⟨b, Runs.append h hr, hb⟩

theorem Reads.nil : Reads program style s n n [] s.captures .goesOn := Runs.nil

/-- After a path, a jump. -/
theorem Reads.jump (h : Reads program style s a n path c .goesOn) (hj : JumpsTo program n n') :
    Reads program style s a n' (path ++ [.quiet]) c .goesOn := by
  obtain ⟨offset, hi, rfl⟩ := hj
  exact h.append (.cons (.jump hi) rfl .nil)

/-- Before a path, a split that goes on at its start. -/
theorem Reads.splitFirst (hs : SplitsTo program a a' n')
    (h : Reads program style s a' n path c k) :
    Reads program style s a n (.quiet :: path) c k := by
  obtain ⟨first, second, hi, rfl, rfl⟩ := hs
  exact .cons (.splitFirst hi) rfl h

/-- Before a path, a split that has its fork at its start. -/
theorem Reads.splitSecond (hs : SplitsTo program a n' a')
    (h : Reads program style s a' n path c k) :
    Reads program style s a n (.quiet :: path) c k := by
  obtain ⟨first, second, hi, rfl, rfl⟩ := hs
  exact .cons (.splitSecond hi) rfl h

/-- Around a path, a capture. -/
theorem Reads.capture {template : String} (hstart : program.get? a = some .capStart)
    (hend : program.get? n = some (.capEnd template))
    (h : Reads program style s.opened (a + 1) n path c .goesOn) :
    Reads program style s a (n + 1) (.quiet :: path ++ [.quiet])
      (c.close style template (Path.values path)) .goesOn := by
  have hclose : Moves program style ((s.opened.past (Path.values path) c).goto n) .quiet
      ((s.past (Path.values path) (c.close style template (Path.values path))).goto (n + 1)) := by
    rw [← closeCapture_past]
    exact .capEnd hend
  have hr := Runs.cons (.capStart (b := s.goto a) hstart) (Runs.append h (.single hclose))
  simpa [Reads] using hr

/-- Around a path, a call. -/
theorem Reads.call {address : Nat} (hcall : program.get? a = some (.call address))
    (hret : program.get? n = some .ret)
    (h : Reads program style (s.called (a + 1)) address n path c .goesOn) :
    Reads program style s a (a + 1) (.enter :: path ++ [.leave]) c .goesOn := by
  have hback : Moves program style (((s.called (a + 1)).past (Path.values path) c).goto n) .leave
      ((s.past (Path.values path) c).goto (a + 1)) :=
    .ret hret rfl
  have hr := Runs.cons (.call (b := s.goto a) hcall) (Runs.append h (.single hback))
  simpa [Reads] using hr

end

/-! ## From derivations to runs -/

/-- The code of a pattern reads what the pattern derives, wherever it stands. -/
theorem reads_of_derives (hl : RuleLayout program addresses rules) {p : Pattern}
    {c c' : Captures} {path : Path} {k : Ending} (hd : Derives style rules p c path c' k)
    {s : Branch} {a : Nat} (hp : Placed program addresses a p.code) (hs : s.captures = c) :
    Reads program style s a (a + p.code.length) path c' k := by
  induction hd generalizing s a with
  | event h =>
    subst hs
    simp only [Pattern.code_event, placed_inst] at hp
    exact .single (.consume hp.1 h)
  | seq _ _ ihp ihq =>
    simp only [Pattern.code_seq, placed_append, List.length_append] at hp ⊢
    rw [← Nat.add_assoc]
    exact (ihp hp.1 hs).append (ihq hp.2 rfl)
  | seqEnds _ ih =>
    simp only [Pattern.code_seq, placed_append] at hp
    exact ih hp.1 hs
  | altFirst _ ih =>
    obtain ⟨hsplit, hp, hj, -⟩ := hp.alt
    exact .splitFirst hsplit ((ih hp hs).jump hj)
  | altFirstEnds _ ih =>
    obtain ⟨hsplit, hp, -, -⟩ := hp.alt
    exact .splitFirst hsplit (ih hp hs)
  | altSecond _ ih =>
    obtain ⟨hsplit, -, -, hq⟩ := hp.alt
    rw [← end_alt]
    exact .splitSecond hsplit (ih hq hs)
  | starNone =>
    subst hs
    exact .splitSecond hp.star.1 .nil
  | starMore _ _ ihp ihs =>
    obtain ⟨hsplit, hbody, hj⟩ := hp.star
    have hr := (Reads.splitFirst hsplit ((ihp hbody hs).jump hj)).append (ihs hp rfl)
    simpa using hr
  | starEnds _ ih =>
    obtain ⟨hsplit, hbody, -⟩ := hp.star
    exact .splitFirst hsplit (ih hbody hs)
  | plusOnce _ ih =>
    obtain ⟨hbody, hsplit⟩ := hp.plus
    exact (ih hbody hs).append (.splitSecond hsplit .nil)
  | plusMore _ _ ihp ihs =>
    obtain ⟨hbody, hsplit⟩ := hp.plus
    exact (ihp hbody hs).append (.splitFirst hsplit (ihs hp rfl))
  | plusEnds _ ih => exact ih hp.plus.1 hs
  | optNone =>
    subst hs
    exact .splitSecond hp.opt.1 .nil
  | optSome _ ih =>
    obtain ⟨hsplit, hbody⟩ := hp.opt
    rw [← end_opt]
    exact .splitFirst hsplit (ih hbody hs)
  | capture _ ih =>
    obtain ⟨hstart, hbody, hend⟩ := hp.capture
    rw [← end_capture]
    exact .capture hstart hend (ih hbody hs)
  | captureEnds _ ih =>
    obtain ⟨hstart, hbody, -⟩ := hp.capture
    obtain ⟨b, hr, hb⟩ := ih (s := s.opened) hbody hs
    exact ⟨b, .cons (.capStart hstart) hr, hb⟩
  | done =>
    simp only [Pattern.code_done, placed_inst] at hp
    exact ⟨_, .nil, hp.1, hs⟩
  | rule hmem _ ih =>
    obtain ⟨address, hcall, hbody, hret⟩ := hl.of_call hmem hp
    exact .call hcall hret (ih hbody hs)
  | ruleEnds hmem _ ih =>
    obtain ⟨address, hcall, hbody, -⟩ := hl.of_call hmem hp
    obtain ⟨b, hr, hb⟩ := ih (s := s.called (a + 1)) hbody hs
    exact ⟨b, .cons (.call hcall) hr, hb⟩

/-! ## From runs to derivations -/

/-- The pattern derives the first part of a run, up to where the branch goes on
at `n`, or it derives the run as a whole. -/
inductive ReadsFirst (program : Program) (style : CaptureStyle) (rules : List (String × Pattern))
    (p : Pattern) (s : Branch) (n : Nat) : Path → Branch → Prop
  | goesOn {path rest : Path} {c : Captures} {b : Branch}
    (hd : Derives style rules p s.captures path c .goesOn)
    (hr : Runs program style ((s.past (Path.values path) c).goto n) rest b) :
    ReadsFirst program style rules p s n (path ++ rest) b
  | ends {path : Path} {b : Branch} (hd : Derives style rules p s.captures path b.captures .ends) :
    ReadsFirst program style rules p s n path b

theorem ReadsFirst.of_goesOn {p : Pattern} {s b : Branch} {n : Nat} {path rest whole : Path}
    {vs : List Value} {c : Captures} (hwhole : whole = path ++ rest)
    (hd : Derives style rules p s.captures path c .goesOn) (hvs : Path.values path = vs)
    (hr : Runs program style ((s.past vs c).goto n) rest b) :
    ReadsFirst program style rules p s n whole b := by
  subst hwhole hvs
  exact .goesOn hd hr

/-- The pattern derives the first part of each run from `a` to `b` that has fewer
than `limit` moves. -/
def ReadsBelow (program : Program) (style : CaptureStyle) (rules : List (String × Pattern))
    (p : Pattern) (a n limit : Nat) (b : Branch) : Prop :=
  ∀ s path, path.length < limit → Runs program style (s.goto a) path b →
    ReadsFirst program style rules p s n path b

theorem ReadsBelow.mono {p : Pattern} {a n limit limit' : Nat} {b : Branch}
    (h : ReadsBelow program style rules p a n limit b) (hle : limit' ≤ limit) :
    ReadsBelow program style rules p a n limit' b := by
  intro s path hlt hr
  exact h s path (Nat.lt_of_lt_of_le hlt hle) hr

/-! ### Each kind of pattern -/

section

variable {p q : Pattern} {s b : Branch} {a n n' : Nat} {path : Path}

theorem ReadsFirst.event {m : Matcher} (hb : Complete program b)
    (hi : program.get? a = some (.consume m)) (hr : Runs program style (s.goto a) path b) :
    ReadsFirst program style rules (.event m) s (a + 1) path b := by
  obtain ⟨e, v, rest, hv, rfl, hrest⟩ := hr.of_consume hb hi
  exact .goesOn (.event hv) hrest

theorem ReadsFirst.seq (hp : ReadsBelow program style rules p a n (path.length + 1) b)
    (hq : ReadsBelow program style rules q n n' (path.length + 1) b)
    (hr : Runs program style (s.goto a) path b) :
    ReadsFirst program style rules (.seq p q) s n' path b := by
  cases hp s _ (Nat.lt_succ_self _) hr with
  | ends hd => exact .ends (.seqEnds hd)
  | @goesOn path rest c _ hd hrest =>
    have hlt : rest.length < (path ++ rest).length + 1 := by
      rw [List.length_append]
      omega
    cases hq (s.past (Path.values path) c) _ hlt hrest with
    | ends hd' => exact .ends (.seq hd hd')
    | goesOn hd' hrest' =>
      rw [past_past] at hrest'
      exact .of_goesOn (by simp) (.seq hd hd') (by simp) hrest'

theorem ReadsFirst.alt (hb : Complete program b) (hs : SplitsTo program a (a + 1) n')
    (hj : JumpsTo program n (a + (Pattern.alt p q).code.length))
    (hp : ReadsBelow program style rules p (a + 1) n path.length b)
    (hq : ReadsBelow program style rules q n' (a + (Pattern.alt p q).code.length) path.length b)
    (hr : Runs program style (s.goto a) path b) :
    ReadsFirst program style rules (.alt p q) s (a + (Pattern.alt p q).code.length) path b := by
  obtain ⟨rest, rfl, hgo | hgo⟩ := hr.of_split hb hs
  · cases hp s _ (Nat.lt_succ_self _) hgo with
    | ends hd => exact .ends (.altFirstEnds hd)
    | goesOn hd hrest =>
      obtain ⟨rest', rfl, hrest'⟩ := hrest.of_jump hb hj
      exact .of_goesOn (by simp) (.altFirst hd) (by simp) hrest'
  · cases hq s _ (Nat.lt_succ_self _) hgo with
    | ends hd => exact .ends (.altSecond hd)
    | goesOn hd hrest => exact .of_goesOn (by simp) (.altSecond hd) (by simp) hrest

/-- The loop goes round again on a shorter path. -/
theorem ReadsFirst.star (hb : Complete program b) (hs : SplitsTo program a (a + 1) n')
    (hj : JumpsTo program n a) (hp : ReadsBelow program style rules p (a + 1) n path.length b)
    (again : ReadsBelow program style rules (.star p) a n' path.length b)
    (hr : Runs program style (s.goto a) path b) :
    ReadsFirst program style rules (.star p) s n' path b := by
  obtain ⟨rest, rfl, hgo | hgo⟩ := hr.of_split hb hs
  · cases hp s _ (Nat.lt_succ_self _) hgo with
    | ends hd => exact .ends (.starEnds hd)
    | @goesOn path _ c _ hd hrest =>
      obtain ⟨rest', rfl, hrest'⟩ := hrest.of_jump hb hj
      have hlt : rest'.length < (Move.quiet :: (path ++ Move.quiet :: rest')).length := by
        simp only [List.length_cons, List.length_append]
        omega
      cases again (s.past (Path.values path) c) _ hlt hrest' with
      | ends hd' => exact .ends (by simpa using Derives.starMore hd hd')
      | goesOn hd' hrest'' =>
        rw [past_past] at hrest''
        exact .of_goesOn (by simp) (.starMore hd hd') (by simp) hrest''
  · exact .of_goesOn List.singleton_append.symm .starNone rfl hgo

theorem ReadsFirst.plus (hb : Complete program b) (hs : SplitsTo program n a n')
    (hp : ReadsBelow program style rules p a n (path.length + 1) b)
    (again : ReadsBelow program style rules (.plus p) a n' path.length b)
    (hr : Runs program style (s.goto a) path b) :
    ReadsFirst program style rules (.plus p) s n' path b := by
  cases hp s _ (Nat.lt_succ_self _) hr with
  | ends hd => exact .ends (.plusEnds hd)
  | @goesOn path _ c _ hd hrest =>
    obtain ⟨rest', rfl, hgo | hgo⟩ := hrest.of_split hb hs
    · have hlt : rest'.length < (path ++ Move.quiet :: rest').length := by
        simp only [List.length_cons, List.length_append]
        omega
      cases again (s.past (Path.values path) c) _ hlt hgo with
      | ends hd' => exact .ends (.plusMore hd hd')
      | goesOn hd' hrest'' =>
        rw [past_past] at hrest''
        exact .of_goesOn (by simp) (.plusMore hd hd') (by simp) hrest''
    · exact .of_goesOn (by simp) (.plusOnce hd) (by simp) hgo

theorem ReadsFirst.opt (hb : Complete program b) (hs : SplitsTo program a (a + 1) n)
    (hp : ReadsBelow program style rules p (a + 1) n path.length b)
    (hr : Runs program style (s.goto a) path b) :
    ReadsFirst program style rules (.opt p) s n path b := by
  obtain ⟨rest, rfl, hgo | hgo⟩ := hr.of_split hb hs
  · cases hp s _ (Nat.lt_succ_self _) hgo with
    | ends hd => exact .ends (.optSome hd)
    | goesOn hd hrest => exact .of_goesOn (by simp) (.optSome hd) (by simp) hrest
  · exact .of_goesOn List.singleton_append.symm .optNone rfl hgo

theorem ReadsFirst.capture {template : String} (hb : Complete program b)
    (hstart : program.get? a = some .capStart) (hend : program.get? n = some (.capEnd template))
    (hp : ReadsBelow program style rules p (a + 1) n path.length b)
    (hr : Runs program style (s.goto a) path b) :
    ReadsFirst program style rules (.capture p template) s (n + 1) path b := by
  obtain ⟨rest, rfl, hgo⟩ := hr.of_capStart hb hstart
  cases hp s.opened _ (Nat.lt_succ_self _) hgo with
  | ends hd => exact .ends (.captureEnds hd)
  | @goesOn path _ c _ hd hrest =>
    obtain ⟨rest', rfl, hrest'⟩ := hrest.of_capEnd hb hend
    have hclosed : Runs program style
        ((s.past (Path.values path) (c.close style template (Path.values path))).goto (n + 1))
        rest' b := by
      rw [← closeCapture_past]
      exact hrest'
    exact .of_goesOn (by simp) (.capture hd) (by simp) hclosed

theorem ReadsFirst.rule {name : String} {body : Pattern} {address : Nat}
    (hb : Complete program b) (hmem : (name, body) ∈ rules)
    (hcall : program.get? a = some (.call address)) (hret : program.get? n = some .ret)
    (hbody : ReadsBelow program style rules body address n path.length b)
    (hr : Runs program style (s.goto a) path b) :
    ReadsFirst program style rules (.rule name) s (a + 1) path b := by
  obtain ⟨rest, rfl, hgo⟩ := hr.of_call hb hcall
  cases hbody (s.called (a + 1)) _ (Nat.lt_succ_self _) hgo with
  | ends hd => exact .ends (.ruleEnds hmem hd)
  | goesOn hd hrest =>
    obtain ⟨rest', rfl, hrest'⟩ := hrest.of_ret hb hret rfl
    exact .of_goesOn (by simp) (.rule hmem hd) (by simp) hrest'

end

/-! ### All patterns -/

/-- A complete run that starts at the code of a pattern is what the pattern
derives, and what comes after it. -/
theorem readsBelow (hl : RuleLayout program addresses rules) {b : Branch}
    (hb : Complete program b) (limit : Nat) {p : Pattern} {a : Nat}
    (hp : Placed program addresses a p.code) :
    ReadsBelow program style rules p a (a + p.code.length) limit b := by
  -- Loops and rules go round again on a shorter path, other patterns have parts.
  induction limit generalizing p a with
  | zero =>
    intro s path hlt
    exact absurd hlt (Nat.not_lt_zero _)
  | succ limit again =>
    induction p generalizing a with
    | event m =>
      intro s path hlt hr
      simp only [Pattern.code_event, placed_inst] at hp
      exact .event hb hp.1 hr
    | seq p q ihp ihq =>
      intro s path hlt hr
      simp only [Pattern.code_seq, placed_append, List.length_append] at hp ⊢
      rw [← Nat.add_assoc]
      exact .seq ((ihp hp.1).mono hlt) ((ihq hp.2).mono hlt) hr
    | alt p q ihp ihq =>
      intro s path hlt hr
      obtain ⟨hs, hpp, hj, hpq⟩ := hp.alt
      have hq := ihq hpq
      rw [end_alt] at hq
      exact .alt hb hs hj ((ihp hpp).mono (Nat.le_of_lt hlt)) (hq.mono (Nat.le_of_lt hlt)) hr
    | star p ih =>
      intro s path hlt hr
      obtain ⟨hs, hbody, hj⟩ := hp.star
      exact .star hb hs hj ((ih hbody).mono (Nat.le_of_lt hlt))
        ((again hp).mono (Nat.le_of_lt_succ hlt)) hr
    | plus p ih =>
      intro s path hlt hr
      obtain ⟨hbody, hs⟩ := hp.plus
      exact .plus hb hs ((ih hbody).mono hlt) ((again hp).mono (Nat.le_of_lt_succ hlt)) hr
    | opt p ih =>
      intro s path hlt hr
      obtain ⟨hs, hbody⟩ := hp.opt
      have hread := ih hbody
      rw [end_opt] at hread
      exact .opt hb hs (hread.mono (Nat.le_of_lt hlt)) hr
    | capture p template ih =>
      intro s path hlt hr
      obtain ⟨hstart, hbody, hend⟩ := hp.capture
      rw [← end_capture]
      exact .capture hb hstart hend ((ih hbody).mono (Nat.le_of_lt hlt)) hr
    | done =>
      intro s path hlt hr
      simp only [Pattern.code_done, placed_inst] at hp
      obtain ⟨rfl, rfl⟩ := hr.of_complete (.inr (.inl hp.1))
      exact .ends .done
    | rule name =>
      intro s path hlt hr
      obtain ⟨body, hmem⟩ := hl.exists_body hp
      obtain ⟨address, hcall, hbody, hret⟩ := hl.of_call hmem hp
      exact .rule hb hmem hcall hret ((again hbody).mono (Nat.le_of_lt_succ hlt)) hr

/-! ## Compiled programs -/

/-- The complete runs of a compiled program, from its start, are what its
pattern derives. -/
theorem exists_derives_iff {p : Pattern} (hl : Layout program addresses rules p) {path : Path}
    {c : Captures} :
    (∃ k, Derives style rules p {} path c k)
      ↔ ∃ b, Runs program style {} path b ∧ Complete program b ∧ b.captures = c := by
  constructor
  · rintro ⟨k, hd⟩
    have hr := reads_of_derives hl.toRuleLayout hd (s := {}) hl.main rfl
    rw [Nat.zero_add] at hr
    cases k with
    | goesOn => exact ⟨_, hr, hl.exit.imp_right .inl, rfl⟩
    | ends =>
      obtain ⟨b, hr, hb, hc⟩ := hr
      exact ⟨b, hr, .inr (.inl hb), hc⟩
  · rintro ⟨b, hr, hb, rfl⟩
    have hread := readsBelow hl.toRuleLayout hb (path.length + 1) hl.main {} path
      (Nat.lt_succ_self _) hr
    rw [Nat.zero_add] at hread
    cases hread with
    | ends hd => exact ⟨.ends, hd⟩
    | @goesOn path rest c _ hd hrest =>
      have hstop : Complete program
          ((({} : Branch).past (Path.values path) c).goto p.code.length) :=
        hl.exit.imp_right .inl
      obtain ⟨rfl, rfl⟩ := hrest.of_complete hstop
      rw [List.append_nil]
      exact ⟨.goesOn, hd⟩

end Keymap.Branch
