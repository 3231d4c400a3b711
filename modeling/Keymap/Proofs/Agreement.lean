-- Reading a grammar goes by what the tokens say: from tokens that say the same, the same grammar is
-- read, or both are refused. The definitions that are read have their names and arrows in order.
import Keymap.Notation
import Keymap.Proofs.Words
import Mathlib.Data.List.Chain

namespace Keymap.Notation

/-! ## Results that agree -/

/-- Both are refused, or both are read and the results are related. -/
inductive Agree {ε α β : Type} (related : α → β → Prop) : Except ε α → Except ε β → Prop
  | refused (e e' : ε) : Agree related (.error e) (.error e')
  | read {a : α} {b : β} (h : related a b) : Agree related (.ok a) (.ok b)

namespace Agree

variable {ε ε' α β : Type} {x y : Except ε α}

theorem refl (x : Except ε α) : Agree Eq x x := by
  cases x with
  | error e => exact .refused e e
  | ok a => exact .read rfl

theorem of_eq (h : x = y) : Agree Eq x y := h ▸ refl x

theorem trans {z : Except ε α} (h : Agree Eq x y) (h' : Agree Eq y z) : Agree Eq x z := by
  cases h with
  | refused e e' =>
    cases h' with
    | refused _ e'' => exact .refused e e''
  | read h =>
    cases h' with
    | read h' => exact .read (h.trans h')

theorem symm (h : Agree Eq x y) : Agree Eq y x := by
  cases h with
  | refused e e' => exact .refused e' e
  | read h => exact .read h.symm

theorem map (h : Agree Eq x y) (f : α → β) : Agree Eq (x.map f) (y.map f) := by
  cases h with
  | refused e e' => exact .refused e e'
  | read h => exact .read (congrArg f h)

theorem mapError (h : Agree Eq x y) (f f' : ε → ε') :
    Agree Eq (x.mapError f) (y.mapError f') := by
  cases h with
  | refused e e' => exact .refused (f e) (f' e')
  | read h => exact .read h

theorem toOption_eq (h : Agree Eq x y) : x.toOption = y.toOption := by
  cases h with
  | refused e e' => rfl
  | read h => exact congrArg some h

end Agree

theorem eq_ok_of_toOption {ε α : Type} {x : Except ε α} {a : α} (h : x.toOption = some a) :
    x = .ok a := by
  cases x with
  | error e => cases h
  | ok b => exact congrArg _ (Option.some.inj h)

/-! ## Reading goes by what the tokens say -/

/-- A token that is not well formed is refused, whatever is wrong with it. -/
theorem Reader.turn_gist (r : Reader) (t : Token) : Agree Eq (r.turn t.gist) (r.turn t) := by
  unfold Token.gist
  split
  · cases r with
    | inside => exact .refused _ _
    | beforeTemplate => exact .refused _ _
  · cases r with
    | inside => exact .refused _ _
    | beforeTemplate => exact .refused _ _
  · exact .refl _

theorem Reader.turn_agree (r : Reader) {t t' : Lexeme} (h : t.gist = t'.gist) :
    Agree Eq (r.turn t.token) (r.turn t'.token) := by
  have hgist : Agree Eq (r.turn t.token.gist) (r.turn t'.token.gist) :=
    .of_eq (congrArg r.turn h)
  exact ((r.turn_gist t.token).symm.trans hgist).trans (r.turn_gist t'.token)

/-- The same pattern is read, and tokens are left that say the same. -/
theorem Reader.run_agree (r : Reader) {ts ts' : List Lexeme}
    (h : ts.map Lexeme.gist = ts'.map Lexeme.gist) :
    Agree (fun x y => x.1 = y.1 ∧ x.2.map Lexeme.gist = y.2.map Lexeme.gist)
      (r.run ts) (r.run ts') := by
  induction ts generalizing r ts' with
  | nil =>
    obtain rfl : ts' = [] := by simpa using h.symm
    unfold Reader.run
    cases r.finish with
    | error e => exact .refused _ _
    | ok p => exact .read ⟨rfl, rfl⟩
  | cons t ts ih =>
    cases ts' with
    | nil => cases h
    | cons t' ts' =>
      obtain ⟨ht, hts⟩ := List.cons.inj h
      have hturn := r.turn_agree ht
      unfold Reader.run
      generalize r.turn t.token = x at hturn
      generalize r.turn t'.token = y at hturn
      cases hturn with
      | refused e e' => exact .refused _ _
      | @read turn _ heq =>
        subst heq
        cases turn with
        | reads next => exact ih next hts
        | ends p => exact .read ⟨rfl, h⟩

/-! ## Definitions -/

theorem Token.gist_eq_name_iff {t : Token} {word : String} {heads : Bool} :
    t.gist = .name word heads ↔ t = .name word heads := by
  unfold Token.gist
  split <;> simp

theorem Token.gist_eq_arrow_iff {t : Token} : t.gist = .arrow ↔ t = .arrow := by
  unfold Token.gist
  split <;> simp

/-- The name that a definition gives, if the tokens begin with a definition. -/
def heading? : List Token → Option String
  | .name word _ :: .arrow :: _ => some word
  | _ => none

theorem heading?_eq_some_iff {tokens : List Token} {word : String} :
    heading? tokens = some word
      ↔ ∃ heads body, tokens = .name word heads :: .arrow :: body := by
  unfold heading?
  split <;> simp_all

theorem readDefinitions_of_heading {ts : List Lexeme} {word : String}
    (h : heading? (ts.map Lexeme.gist) = some word) :
    readDefinitions ts = (Reader.start.run (ts.drop 2)).bind fun (p, rest) =>
      (readDefinitions rest).map ((word, p) :: ·) := by
  obtain ⟨heads, body, hts⟩ := heading?_eq_some_iff.mp h
  obtain ⟨t, ts, rfl, ht, hts⟩ := List.map_eq_cons_iff.mp hts
  obtain ⟨⟨token, first, after⟩, ts, rfl, ha, -⟩ := List.map_eq_cons_iff.mp hts
  obtain rfl : token = .arrow := Token.gist_eq_arrow_iff.mp ha
  rw [readDefinitions, Token.gist_eq_name_iff.mp ht]
  simp only [List.drop_succ_cons, List.drop_zero]
  split <;> simp_all [Except.bind]

theorem readDefinitions_of_no_heading {ts : List Lexeme} (hne : ts ≠ [])
    (h : heading? (ts.map Lexeme.gist) = none) : ∃ o, readDefinitions ts = .error o := by
  cases ts with
  | nil => exact absurd rfl hne
  | cons t ts =>
    rw [readDefinitions]
    split
    · next word heads ht =>
      split
      · next first after body =>
        have hsome : heading? ((t :: ⟨.arrow, first, after⟩ :: body).map Lexeme.gist)
            = some word := by
          simp [heading?, Lexeme.gist, ht, Token.gist]
        rw [h] at hsome
        cases hsome
      · exact ⟨_, rfl⟩
    · exact ⟨_, rfl⟩

/-- A name by itself, whether or not it heads a definition. -/
def Token.bare : Token → Token
  | .name word _ => .name word false
  | t => t

theorem heading?_modifyHead (tokens : List Token) :
    heading? (tokens.modifyHead Token.bare) = heading? tokens := by
  cases tokens with
  | nil => rfl
  | cons t tokens =>
    cases t with
    | name word heads =>
      cases tokens with
      | nil => rfl
      | cons a tokens => cases a <;> rfl
    | _ => rfl

/-- The first token is taken for the head of a definition anyway. -/
theorem readDefinitions_agree (ts ts' : List Lexeme)
    (h : (ts.map Lexeme.gist).modifyHead Token.bare = (ts'.map Lexeme.gist).modifyHead Token.bare) :
    Agree Eq (readDefinitions ts) (readDefinitions ts') := by
  have hheading : heading? (ts.map Lexeme.gist) = heading? (ts'.map Lexeme.gist) := by
    rw [← heading?_modifyHead, h, heading?_modifyHead]
  cases hsome : heading? (ts.map Lexeme.gist) with
  | none =>
    by_cases hne : ts = []
    · subst hne
      obtain rfl : ts' = [] := by simpa using h.symm
      exact .refl _
    · have hne' : ts' ≠ [] := by
        rintro rfl
        exact hne (by simpa using h)
      obtain ⟨o, ho⟩ := readDefinitions_of_no_heading hne hsome
      obtain ⟨o', ho'⟩ := readDefinitions_of_no_heading hne' (hheading ▸ hsome)
      rw [ho, ho']
      exact .refused o o'
  | some word =>
    have hbody : (ts.drop 2).map Lexeme.gist = (ts'.drop 2).map Lexeme.gist := by
      have hdrop : ∀ tokens : List Token,
          (tokens.modifyHead Token.bare).drop 2 = tokens.drop 2 := by
        intro tokens
        cases tokens <;> rfl
      rw [List.map_drop, List.map_drop, ← hdrop, h, hdrop]
    rw [readDefinitions_of_heading hsome, readDefinitions_of_heading (hheading ▸ hsome)]
    have hrun := Reader.start.run_agree hbody
    generalize hx : Reader.start.run (ts.drop 2) = x at hrun
    generalize Reader.start.run (ts'.drop 2) = y at hrun
    cases hrun with
    | refused o o' => exact .refused o o'
    | @read x y hxy =>
      obtain ⟨p, rest⟩ := x
      obtain ⟨p', rest'⟩ := y
      obtain ⟨rfl, hrest⟩ := hxy
      have hlen : rest.length < ts.length := by
        have hle := Reader.length_run_le hx
        have hpos : ts ≠ [] := by
          rintro rfl
          cases hsome
        have := List.length_pos_iff.mpr hpos
        rw [List.length_drop] at hle
        omega
      exact (readDefinitions_agree rest rest' (by rw [hrest])).map _
termination_by ts.length

theorem readGrammar_agree {ts ts' : List Lexeme}
    (h : Agree Eq (readDefinitions ts) (readDefinitions ts')) :
    Agree Eq (readGrammar ts) (readGrammar ts') := by
  unfold readGrammar
  generalize readDefinitions ts = x at h
  generalize readDefinitions ts' = y at h
  cases h with
  | refused o o' => exact .refused o o'
  | read h => exact h ▸ .refl _

/-! ## Tokens of definitions that are read -/

/-- A token that a pattern goes over. -/
def Token.IsInner : Token → Prop
  | .arrow => False
  | .name _ heads => heads = false
  | .other _ => False
  | t => t.isFaulty = false

/-- A token before which a pattern may end. -/
def Token.IsEnd : Token → Prop
  | .arrow => True
  | .name _ heads => heads = true
  | .closes _ => True
  | .other _ => True
  | _ => False

theorem Reader.endTurn_ne_reads {r next : Reader} : r.endTurn ≠ .ok (.reads next) := by
  unfold endTurn
  cases r.finish <;> exact nofun

theorem Reader.changeTurn_ne_ends {changed : Option Draft} {frames : List Frame} {p : Pattern} :
    changeTurn changed frames ≠ .ok (.ends p) := by
  cases changed <;> exact nofun

theorem Reader.isInner_of_reads {r next : Reader} {t : Token} (h : r.turn t = .ok (.reads next)) :
    t.IsInner := by
  cases r with
  | inside draft frames =>
    cases t with
    | opens | closes | mark | slash | dot => rfl
    | arrow | other => exact endTurn_ne_reads h
    | name word heads =>
      cases heads with
      | false => rfl
      | true => exact absurd h endTurn_ne_reads
    | quoted content =>
      cases content with
      | ok text => rfl
      | error f => cases h
    | oneOf set =>
      cases set with
      | ok s => rfl
      | error f => cases h
  | beforeTemplate body outer frames =>
    cases t with
    | quoted content =>
      cases content with
      | ok text => rfl
      | error f => cases h
    | _ => cases h

theorem Reader.isEnd_of_ends {r : Reader} {t : Token} {p : Pattern}
    (h : r.turn t = .ok (.ends p)) : t.IsEnd := by
  cases r with
  | inside draft frames =>
    cases t with
    | closes | arrow | other => trivial
    | mark | slash => exact absurd h changeTurn_ne_ends
    | name word heads =>
      cases heads with
      | false => cases h
      | true => rfl
    | quoted content =>
      cases content with
      | ok text =>
        simp only [turn, insideTurn] at h
        split at h <;> cases h
      | error f => cases h
    | oneOf set => cases set <;> cases h
    | opens | dot => cases h
  | beforeTemplate body outer frames =>
    cases t with
    | quoted content => cases content <;> cases h
    | _ => cases h

/-- A pattern goes over its tokens, and ends before one that it cannot go over. -/
theorem Reader.run_eq_ok {r : Reader} {ts rest : List Lexeme} {p : Pattern}
    (h : r.run ts = .ok (p, rest)) :
    ∃ inner, ts = inner ++ rest ∧ (∀ t ∈ inner, t.token.IsInner)
      ∧ ∀ t ∈ rest.head?, t.token.IsEnd := by
  induction ts generalizing r with
  | nil =>
    unfold run at h
    split at h
    · cases h
      exact ⟨[], rfl, List.forall_mem_nil _, by simp⟩
    · cases h
  | cons t ts ih =>
    unfold run at h
    split at h
    · next next hturn =>
      obtain ⟨inner, rfl, hinner, hend⟩ := ih h
      refine ⟨t :: inner, rfl, ?_, hend⟩
      exact List.forall_mem_cons.mpr ⟨isInner_of_reads hturn, hinner⟩
    · next hturn =>
      cases h
      refine ⟨[], rfl, List.forall_mem_nil _, ?_⟩
      intro t' ht'
      cases ht'
      exact isEnd_of_ends hturn
    · cases h

theorem Token.isFaulty_of_isInner {t : Token} (h : t.IsInner) : t.isFaulty = false := by
  cases t with
  | arrow | other => exact h.elim
  | name => rfl
  | _ => exact h

/-- Tokens that can be definitions. Each definition is a name, an arrow, and tokens that a pattern
goes over. It ends before one that a pattern may end before. -/
inductive Definitions : List Lexeme → Prop
  | none : Definitions []
  | more {t a : Lexeme} {inner rest : List Lexeme} {word : String} {heads : Bool}
    (ht : t.token = .name word heads) (ha : a.token = .arrow)
    (hinner : ∀ u ∈ inner, u.token.IsInner) (hend : ∀ u ∈ rest.head?, u.token.IsEnd)
    (hrest : Definitions rest) : Definitions (t :: a :: (inner ++ rest))

theorem definitions_of_ok {ts : List Lexeme} {rules : List (String × Pattern)}
    (h : readDefinitions ts = .ok rules) : Definitions ts := by
  by_cases hne : ts = []
  · exact hne ▸ .none
  cases hsome : heading? (ts.map Lexeme.gist) with
  | none =>
    obtain ⟨o, ho⟩ := readDefinitions_of_no_heading hne hsome
    rw [h] at ho
    cases ho
  | some word =>
    rw [readDefinitions_of_heading hsome] at h
    obtain ⟨heads, body, hts⟩ := heading?_eq_some_iff.mp hsome
    obtain ⟨t, ts', rfl, ht, hts'⟩ := List.map_eq_cons_iff.mp hts
    obtain ⟨a, body, rfl, ha, -⟩ := List.map_eq_cons_iff.mp hts'
    change (Reader.start.run body).bind _ = _ at h
    cases hrun : Reader.start.run body with
    | error o =>
      rw [hrun] at h
      cases h
    | ok x =>
      obtain ⟨p, rest⟩ := x
      have hle := Reader.length_run_le hrun
      rw [hrun] at h
      change (readDefinitions rest).map _ = _ at h
      cases hrest : readDefinitions rest with
      | error o =>
        rw [hrest] at h
        cases h
      | ok rules' =>
        obtain ⟨inner, rfl, hinner, hend⟩ := Reader.run_eq_ok hrun
        exact .more (Token.gist_eq_name_iff.mp ht) (Token.gist_eq_arrow_iff.mp ha) hinner hend
          (definitions_of_ok hrest)
termination_by ts.length
decreasing_by simp_all; omega

/-- All tokens are well formed. -/
theorem Definitions.isFaulty_eq_false {ts : List Lexeme} (h : Definitions ts) :
    ∀ t ∈ ts, t.token.isFaulty = false := by
  induction h with
  | none => exact List.forall_mem_nil _
  | more ht ha hinner _ _ ih =>
    refine List.forall_mem_cons.mpr ⟨ht ▸ rfl, List.forall_mem_cons.mpr ⟨ha ▸ rfl, ?_⟩⟩
    intro u hu
    rcases List.mem_append.mp hu with hu | hu
    · exact Token.isFaulty_of_isInner (hinner u hu)
    · exact ih u hu

/-- An arrow comes after no name that does not head a definition. -/
def InOrder (t t' : Token) : Prop := t' = .arrow → ∀ word, t ≠ .name word false

theorem isChain_cons_append {t : Lexeme} {inner rest : List Lexeme}
    (hinner : ∀ u ∈ inner, u.token.IsInner) (hrest : ∀ u ∈ rest.head?, u.token ≠ .arrow)
    (h : rest.IsChain fun t t' => InOrder t.token t'.token) :
    (t :: (inner ++ rest)).IsChain fun t t' => InOrder t.token t'.token := by
  induction inner generalizing t with
  | nil => exact List.isChain_cons.mpr ⟨fun u hu harrow => absurd harrow (hrest u hu), h⟩
  | cons u inner ih =>
    obtain ⟨hu, hinner⟩ := List.forall_mem_cons.mp hinner
    refine List.isChain_cons.mpr ⟨?_, ih hinner⟩
    intro u' hu' harrow
    cases hu'
    rw [harrow] at hu
    exact hu.elim

/-- No name before an arrow fails to head a definition, but for the first token. -/
theorem Definitions.isChain_tail {ts : List Lexeme} (h : Definitions ts) :
    ts.tail.IsChain fun t t' => InOrder t.token t'.token := by
  induction h with
  | none => exact .nil
  | @more t a inner rest word heads _ _ hinner hend hrest ih =>
    cases hrest with
    | none => exact isChain_cons_append hinner (by simp) .nil
    | @more n a' inner' rest' word' heads' hn ha' hinner' hend' hrest' =>
      -- The pattern ends before the next name, so this one heads a definition.
      have hheads : heads' = true := by
        have := hend n rfl
        rw [hn] at this
        exact this
      refine isChain_cons_append hinner ?_ (List.isChain_cons.mpr ⟨?_, ih⟩)
      · intro u hu harrow
        cases hu
        rw [hn] at harrow
        cases harrow
      · intro u _ _ word hw
        rw [hn, hheads] at hw
        cases hw

theorem exists_definitions_of_parse {text : List Char} {g : Grammar}
    (h : Grammar.parse (String.ofList text) = .ok g) :
    ∃ rules, readDefinitions (lex text) = .ok rules := by
  rw [Grammar.parse, String.toList_ofList, readGrammar] at h
  cases hrules : readDefinitions (lex text) with
  | error o =>
    rw [hrules] at h
    cases h
  | ok rules => exact ⟨rules, rfl⟩

end Keymap.Notation
