-- Reading between brackets. The reader goes over the tokens of a pattern inside a bracket as it
-- does when they stand alone: what was read before the bracket is only kept for later.
import Keymap.Proofs.Agreement
import Keymap.Proofs.Lines

namespace Keymap.Notation

/-! ## Going over tokens -/

namespace Reader

/-- The reader behind these tokens, if it goes over all of them. -/
def after (r : Reader) : List Token → Option Reader
  | [] => some r
  | t :: ts =>
    match r.turn t with
    | .ok (.reads next) => next.after ts
    | _ => none

@[simp] theorem after_nil (r : Reader) : r.after [] = some r := rfl

theorem after_cons {r next : Reader} {t : Token} (h : r.turn t = .ok (.reads next))
    (ts : List Token) : r.after (t :: ts) = next.after ts := by
  rw [after, h]

theorem exists_of_after_cons {r last : Reader} {t : Token} {ts : List Token}
    (h : r.after (t :: ts) = some last) :
    ∃ next, r.turn t = .ok (.reads next) ∧ next.after ts = some last := by
  unfold after at h
  split at h
  · next next hturn => exact ⟨next, hturn, h⟩
  · cases h

theorem after_append {r next : Reader} {ts : List Token} (h : r.after ts = some next)
    (us : List Token) : r.after (ts ++ us) = next.after us := by
  induction ts generalizing r with
  | nil =>
    cases h
    rfl
  | cons t ts ih =>
    obtain ⟨r', hturn, hrest⟩ := exists_of_after_cons h
    rw [List.cons_append, after_cons hturn, ih hrest]

/-- A token that is not well formed is never gone over. -/
theorem isFaulty_of_after {r last : Reader} {ts : List Token} (h : r.after ts = some last) :
    ∀ t ∈ ts, t.isFaulty = false := by
  induction ts generalizing r with
  | nil => exact List.forall_mem_nil _
  | cons t ts ih =>
    obtain ⟨next, hturn, hrest⟩ := exists_of_after_cons h
    exact List.forall_mem_cons.mpr ⟨Token.isFaulty_of_isInner (isInner_of_reads hturn), ih hrest⟩

theorem finish_eq_ok_iff {r : Reader} {p : Pattern} :
    r.finish = .ok p ↔ ∃ d : Draft, r = .inside d [] ∧ d.toPattern? = some p := by
  unfold finish
  split
  · simp
  · next draft frames =>
    split <;> simp_all

/-- A pattern takes up all tokens if the reader goes over all of them and may stop there. -/
theorem run_eq_ok_nil_iff {r : Reader} {ts : List Lexeme} {p : Pattern} :
    r.run ts = .ok (p, [])
      ↔ ∃ last, r.after (ts.map Lexeme.token) = some last ∧ last.finish = .ok p := by
  induction ts generalizing r with
  | nil =>
    unfold run
    split <;> simp_all
  | cons t ts ih =>
    unfold run
    rw [List.map_cons, after]
    split <;> simp_all

end Reader

/-! ## The tokens of a pattern -/

/-- The tokens make the pattern, and there are no more of them. -/
def Makes (ts : List Token) (p : Pattern) : Prop :=
  ∃ d : Draft, Reader.start.after ts = some (.inside d []) ∧ d.toPattern? = some p

theorem readPattern_eq_ok_iff {ts : List Lexeme} {p : Pattern} :
    readPattern ts = .ok p ↔ Reader.start.run ts = .ok (p, []) := by
  unfold readPattern
  split <;> simp_all

/-- Reading a text gives the pattern that its tokens make. -/
theorem parse_eq_ok_iff {text : String} {p : Pattern} :
    Pattern.parse text = .ok p ↔ Makes (tokens text.toList) p := by
  have hmap : ∀ x : Except Objection Pattern,
      x.mapError (Objection.toError text.toList) = .ok p ↔ x = .ok p := by
    intro x
    cases x <;> simp [Except.mapError]
  rw [Pattern.parse, hmap, readPattern_eq_ok_iff, Reader.run_eq_ok_nil_iff, Makes, tokens]
  constructor
  · rintro ⟨last, hafter, hfinish⟩
    obtain ⟨d, rfl, hd⟩ := Reader.finish_eq_ok_iff.mp hfinish
    exact ⟨d, hafter, hd⟩
  · rintro ⟨d, hafter, hd⟩
    exact ⟨_, hafter, Reader.finish_eq_ok_iff.mpr ⟨d, rfl, hd⟩⟩

/-! ## Inside a bracket -/

namespace Reader

/-- The reader with more brackets open, around those that it has open. -/
def nest (outer : List Frame) : Reader → Reader
  | .inside draft frames => .inside draft (frames ++ outer)
  | .beforeTemplate body draft frames => .beforeTemplate body draft (frames ++ outer)

theorem closeTurn_nest {draft : Draft} {frames : List Frame} {b : Bracket} {next : Reader}
    (h : closeTurn draft frames b = .ok (.reads next)) (outer : List Frame) :
    closeTurn draft (frames ++ outer) b = .ok (.reads (next.nest outer)) := by
  cases frames with
  | nil =>
    have hend : closeTurn draft [] b = endTurn (.inside draft []) := by
      unfold closeTurn
      split
      · simp_all
      · rfl
    rw [hend] at h
    exact absurd h endTurn_ne_reads
  | cons f rest =>
    cases hd : draft.toPattern? with
    | none =>
      simp only [closeTurn, hd] at h
      exact absurd h endTurn_ne_reads
    | some p =>
      simp only [closeTurn, hd, List.cons_append] at h ⊢
      by_cases hb : f.bracket = b
      · rw [if_pos hb] at h ⊢
        cases b <;> cases h <;> rfl
      · rw [if_neg hb] at h
        exact absurd h endTurn_ne_reads

theorem changeTurn_nest {changed : Option Draft} {frames : List Frame} {next : Reader}
    (h : changeTurn changed frames = .ok (.reads next)) (outer : List Frame) :
    changeTurn changed (frames ++ outer) = .ok (.reads (next.nest outer)) := by
  cases changed with
  | none => cases h
  | some draft =>
    cases h
    rfl

/-- The brackets around it make no difference to a reader that goes on. -/
theorem turn_nest {r next : Reader} {t : Token} (h : r.turn t = .ok (.reads next))
    (outer : List Frame) : (r.nest outer).turn t = .ok (.reads (next.nest outer)) := by
  cases r with
  | inside draft frames =>
    cases t with
    | closes b => exact closeTurn_nest h outer
    | arrow | other => exact absurd h endTurn_ne_reads
    | mark | slash => exact changeTurn_nest h outer
    | name word heads =>
      cases heads with
      | true => exact absurd h endTurn_ne_reads
      | false =>
        cases h
        rfl
    | quoted content =>
      cases content with
      | error f => cases h
      | ok text =>
        cases hp : Pattern.parseEvent {} text with
        | error e => simp [turn, insideTurn, hp] at h
        | ok p =>
          simp only [turn, insideTurn, hp, nest] at h ⊢
          cases h
          rfl
    | oneOf set =>
      cases set with
      | error f => cases h
      | ok s =>
        cases h
        rfl
    | opens | dot =>
      cases h
      rfl
  | beforeTemplate body draft frames =>
    cases t with
    | quoted content =>
      cases content with
      | error f => cases h
      | ok text =>
        cases h
        rfl
    | _ => cases h

theorem after_nest {r last : Reader} {ts : List Token} (h : r.after ts = some last)
    (outer : List Frame) : (r.nest outer).after ts = some (last.nest outer) := by
  induction ts generalizing r with
  | nil =>
    cases h
    rfl
  | cons t ts ih =>
    obtain ⟨next, hturn, hrest⟩ := exists_of_after_cons h
    rw [after_cons (turn_nest hturn outer), ih hrest]

/-- A pattern in round brackets is read as one pattern. -/
theorem after_group {ts : List Token} {p : Pattern} (h : Makes ts p) (draft : Draft)
    (frames : List Frame) (us : List Token) :
    (inside draft frames).after (.opens .group :: ts ++ .closes .group :: us)
      = (inside (draft.add p) frames).after us := by
  obtain ⟨d, hafter, hd⟩ := h
  have hopen : (inside draft frames).turn (.opens .group)
      = .ok (.reads (start.nest (⟨.group, draft⟩ :: frames))) := rfl
  have hclose : (inside d (⟨.group, draft⟩ :: frames)).turn (.closes .group)
      = .ok (.reads (.inside (draft.add p) frames)) := by
    simp [turn, insideTurn, closeTurn, hd]
  rw [List.cons_append, after_cons hopen, after_append (after_nest hafter _)]
  exact after_cons hclose us

/-- A pattern in braces is captured by the template behind them. -/
theorem after_capture {ts : List Token} {p : Pattern} (h : Makes ts p) (draft : Draft)
    (frames : List Frame) (template : String) (us : List Token) :
    (inside draft frames).after
        (.opens .capture :: ts ++ .closes .capture :: .quoted (.ok template) :: us)
      = (inside (draft.add (.capture p template)) frames).after us := by
  obtain ⟨d, hafter, hd⟩ := h
  have hopen : (inside draft frames).turn (.opens .capture)
      = .ok (.reads (start.nest (⟨.capture, draft⟩ :: frames))) := rfl
  have hclose : (inside d (⟨.capture, draft⟩ :: frames)).turn (.closes .capture)
      = .ok (.reads (.beforeTemplate p draft frames)) := by
    simp [turn, insideTurn, closeTurn, hd]
  have htemplate : (beforeTemplate p draft frames).turn (.quoted (.ok template))
      = .ok (.reads (.inside (draft.add (.capture p template)) frames)) := rfl
  rw [List.cons_append, after_cons hopen, after_append (after_nest hafter _)]
  exact (after_cons hclose _).trans (after_cons htemplate us)

end Reader

end Keymap.Notation
