-- Two readers of one text. The reader that takes a token at a time and the readers of the rules
-- come to the same places with the same patterns, and object to the same things. So what is known of
-- the readers of the rules is known of how texts are read.
import Keymap.Proofs.Stops

namespace Keymap.Notation

/-! ## Tokens and their first characters -/

/-- The text from the first character on is that of such a token. -/
def Token.BeginsWith : Token → Char → List Char → Prop
  | .opens b, c, _ => c = b.opening
  | .closes b, c, _ => c = b.closing
  | .mark m, c, _ => c = m.char
  | .slash, c, _ => c = '/'
  | .dot, c, _ => c = '.'
  | .arrow, c, rest => c = '<' ∧ ∃ after, rest = '-' :: after
  | .name _ heads, c, rest =>
    isNameStart c = true ∧ heads = arrowFollows (rest.dropWhile isNameChar)
  | .quoted _, c, _ => c = '\'' ∨ c = '"'
  | .oneOf _, c, _ => c = '['
  | .other _, _, _ => True

theorem readToken_beginsWith (c : Char) (rest : List Char) :
    (readToken c rest).1.BeginsWith c rest := by
  have hquoted : ∀ x : Except Fault (String × List Char), (c = '\'' ∨ c = '"') →
      (tokenOf Token.quoted x).1.BeginsWith c rest := by
    intro x hc
    cases x <;> exact hc
  unfold readToken
  split
  case h_10 => exact hquoted _ (.inl rfl)
  case h_11 => exact hquoted _ (.inr rfl)
  case h_12 => cases readClass rest <;> rfl
  case h_13 =>
    split
    · next hname => exact ⟨hname, rfl⟩
    · split
      · exact ⟨rfl, _, rfl⟩
      · trivial
  all_goals rfl

theorem beginsWith_of_readToken {c : Char} {rest : List Char} {t : Token}
    (h : (readToken c rest).1 = t) : t.BeginsWith c rest :=
  h ▸ readToken_beginsWith c rest

/-! ## The running reader at a place -/

/-- Why nothing is read if there is this objection. -/
def Objection.toHalt (o : Objection) : Halt :=
  match o.refusal with
  | .problem p => .fault ⟨p, o.place⟩
  | .fault f => .fault f
  | .event e => .event e

@[simp] theorem lex_skipBlanks (text : List Char) : lex (skipBlanks false text) = lex text :=
  lex_congr (bare_skipBlanks false text)

@[simp] theorem lex_nil : lex [] = [] := lex_of_skipBlanks_nil rfl

theorem Bare.lex_cons {c : Char} {rest : List Char} (h : Bare (c :: rest)) :
    lex (c :: rest) = ⟨(readToken c rest).1, c, rest⟩ :: lex (readToken c rest).2 :=
  lex_of_skipBlanks_cons h

namespace Reader

/-- What the reader makes of the text from a place on. -/
def reads (r : Reader) (place : List Char) : Except Halt (Pattern × List Lexeme) :=
  (r.run (lex place)).mapError Objection.toHalt

@[simp] theorem reads_skipBlanks (r : Reader) (place : List Char) :
    r.reads (skipBlanks false place) = r.reads place := by
  rw [reads, lex_skipBlanks, reads]

theorem reads_nil (r : Reader) :
    r.reads [] = match r.finish with
      | .ok p => .ok (p, [])
      | .error e => .error (Objection.toHalt ⟨e, []⟩) := by
  rw [reads, lex_nil, run]
  cases r.finish <;> rfl

theorem reads_cons (r : Reader) {c : Char} {rest : List Char} (h : Bare (c :: rest)) :
    r.reads (c :: rest) = match r.turn (readToken c rest).1 with
      | .ok (.reads next) => next.reads (readToken c rest).2
      | .ok (.ends p) => .ok (p, lex (c :: rest))
      | .error e => .error (Objection.toHalt ⟨e, c :: rest⟩) := by
  rw [reads, h.lex_cons, run]
  cases r.turn (readToken c rest).1 with
  | error e => rfl
  | ok turn => cases turn <;> rfl

end Reader

open Reader Descent

variable {α β γ : Type} {place rest : List Char}

theorem Reading.andThen_assoc (x : Reading α) (next : α → List Char → Reading β)
    (last : β → List Char → Except Halt γ) :
    Reading.andThen (x.andThen next) last = x.andThen fun a rest => (next a rest).andThen last := by
  cases x <;> rfl

/-- The running reader goes along with one for many things if it goes along with each. -/
theorem reads_many {σ : Type} (state : σ → Reader) (f : σ → α → σ)
    {next : List Char → Option (Reading α)}
    (htakes : ∀ p x, p.length ≤ place.length → next p = some x → Takes 1 p x)
    (h : ∀ p x, p.length ≤ place.length → next p = some x → ∀ s,
      (state s).reads p = x.andThen fun a rest => (state (f s a)).reads rest) (s : σ) :
    (state s).reads place
      = (many next place).andThen fun as rest => (state (as.foldl f s)).reads rest := by
  fun_induction many next place generalizing s with
  | case1 place hnext => rfl
  | case2 place e hnext => exact h place _ (Nat.le_refl _) hnext s
  | case3 place a rest hnext hlt ih =>
    have hfirst := h place _ (Nat.le_refl _) hnext s
    have hmore := ih (fun p x hp => htakes p x (by omega)) (fun p x hp => h p x (by omega)) (f s a)
    rw [hfirst]
    refine hmore.trans ?_
    cases many next rest <;> rfl
  | case4 place a rest hnext hlt =>
    exact absurd ((htakes place _ (Nat.le_refl _) hnext).length_add_le rfl) hlt

/-! ## Items and marks -/

theorem bare_of_isNameStart {c : Char} (h : isNameStart c = true) (rest : List Char) :
    Bare (c :: rest) := by
  have hblank : Text.isBlank c = false := isBlank_of_isNameChar (isNameChar_of_isNameStart h)
  have hhash : c ≠ '#' := by
    rintro rfl
    exact absurd h (by decide)
  simp [Bare, skipBlanks, hblank, hhash]

variable {d : Draft} {frames : List Frame}

theorem reads_event {quote : Char} (hbare : Bare (quote :: rest))
    (htoken : readToken quote rest = tokenOf .quoted (readQuoted quote rest)) :
    (inside d frames).reads (quote :: rest)
      = (event quote rest).andThen fun p left => (inside (d.add p) frames).reads left := by
  rw [reads_cons _ hbare, htoken, event, literal]
  cases readQuoted quote rest with
  | error f => rfl
  | ok found =>
    obtain ⟨text, left⟩ := found
    simp only [tokenOf, turn, insideTurn, behind, Reading.andThen_ok]
    cases Pattern.parseEvent {} text with
    | error e => rfl
    | ok p => exact (reads_skipBlanks _ left).symm

/-- A literal or a class, and what the running reader makes of it. -/
theorem reads_tokenOf {token : Except Fault α → Token} {c : Char}
    {x : Except Fault (α × List Char)} (hbare : Bare (c :: rest))
    (htoken : readToken c rest = tokenOf token x) {r : Reader} {next : α → Reader}
    (herror : ∀ f, r.turn (token (.error f)) = .error (.fault f))
    (hok : ∀ a, r.turn (token (.ok a)) = .ok (.reads (next a))) :
    r.reads (c :: rest) = (behind x).andThen fun a left => (next a).reads left := by
  rw [reads_cons _ hbare, htoken]
  cases x with
  | error f =>
    simp only [tokenOf, herror]
    rfl
  | ok found =>
    simp only [tokenOf, hok]
    exact (reads_skipBlanks _ found.2).symm

theorem Draft.mark_add (d : Draft) (p : Pattern) (m : Mark) :
    (d.add p).mark m = some (d.add (m.apply p)) := by
  cases m <;> rfl

theorem reads_mark {x : Reading Mark} (hx : mark? place = some x) (p : Pattern) :
    (inside (d.add p) frames).reads place
      = x.andThen fun m rest => (inside (d.add (m.apply p)) frames).reads rest := by
  have hmark : ∀ m : Mark, ∀ rest, readToken m.char rest = (.mark m, rest) := by
    intro m rest
    cases m <;> rfl
  have hread : ∀ (m : Mark) (rest : List Char), Bare (m.char :: rest) →
      (inside (d.add p) frames).reads (m.char :: rest)
        = (inside (d.add (m.apply p)) frames).reads (skipBlanks false rest) := by
    intro m rest hbare
    rw [reads_cons _ hbare, hmark, turn, insideTurn, Draft.mark_add]
    exact (reads_skipBlanks _ rest).symm
  unfold mark? at hx
  split at hx <;> cases hx
  · exact hread .star _ rfl
  · exact hread .plus _ rfl
  · exact hread .opt _ rfl

theorem reads_marks (p : Pattern) (place : List Char) :
    (inside (d.add p) frames).reads place = (many mark? place).andThen fun ms rest =>
      (inside (d.add (ms.foldl (fun q m => m.apply q) p)) frames).reads rest :=
  reads_many (fun p => inside (d.add p) frames) (fun q m => m.apply q)
    (fun _ _ _ => takes_mark) (fun _ _ _ hx s => reads_mark hx s) p

/-! ## Where a pattern stops -/

/-- What stands where no item begins: something that may end a pattern, a slash or a mark. -/
theorem isEnd_of_not_startsItem {c : Char} (h : startsItem (c :: rest) = false) :
    (readToken c rest).1.IsEnd ∨ c = '/' ∨ ∃ m : Mark, c = m.char := by
  simp only [startsItem, Bool.or_eq_false_iff, Bool.and_eq_false_iff] at h
  obtain ⟨hsigns, hname⟩ := h
  cases ht : (readToken c rest).1 with
  | closes | arrow | other => exact .inl trivial
  | slash => exact .inr (.inl (beginsWith_of_readToken ht))
  | mark m => exact .inr (.inr ⟨m, beginsWith_of_readToken ht⟩)
  | name word heads =>
    obtain ⟨hstart, rfl⟩ := beginsWith_of_readToken ht
    rw [hstart] at hname
    exact .inl (by simpa [Token.IsEnd] using hname)
  | opens b =>
    obtain rfl : c = b.opening := beginsWith_of_readToken ht
    cases b <;> cases hsigns
  | quoted content =>
    rcases beginsWith_of_readToken ht with rfl | rfl <;> cases hsigns
  | dot | oneOf =>
    obtain rfl := beginsWith_of_readToken ht
    cases hsigns

theorem Descent.Stops.isEnd {c : Char} (h : Stops (c :: rest))
    (hslash : sign? '/' (c :: rest) = none) : (readToken c rest).1.IsEnd := by
  rcases isEnd_of_not_startsItem h.item with hend | rfl | ⟨m, rfl⟩
  · exact hend
  · cases hslash
  · have hmark := h.mark
    cases m <;> cases hmark

/-- Where a pattern may end, the running reader knows its draft only by the pattern in it. -/
theorem turn_eq_of_toPattern? {d d' : Draft} (h : d.toPattern? = d'.toPattern?) {t : Token}
    (ht : t.IsEnd) : (inside d frames).turn t = (inside d' frames).turn t := by
  cases t with
  | closes b => simp only [turn, insideTurn, closeTurn, endTurn, finish, h]
  | arrow | other => simp only [turn, insideTurn, endTurn, finish, h]
  | name word heads =>
    obtain rfl : heads = true := ht
    simp only [turn, insideTurn, endTurn, finish, h]
  | opens | mark | slash | dot | quoted | oneOf => exact ht.elim

/-- A token that may end a pattern ends it, unless it closes the bracket. -/
theorem turn_eq_endTurn {t : Token} (ht : t.IsEnd)
    (hclose : ∀ b, t = .closes b → closeTurn d frames b = endTurn (inside d frames)) :
    (inside d frames).turn t = endTurn (inside d frames) := by
  cases t with
  | closes b => exact hclose b rfl
  | arrow | other => rfl
  | name word heads =>
    obtain rfl : heads = true := ht
    rfl
  | opens | mark | slash | dot | quoted | oneOf => exact ht.elim

theorem reads_eq_of_toPattern? {d d' : Draft} (h : d.toPattern? = d'.toPattern?)
    (hs : Stops place) (hslash : sign? '/' place = none) :
    (inside d frames).reads place = (inside d' frames).reads place := by
  cases place with
  | nil => simp only [reads_nil, finish, h]
  | cons c rest =>
    rw [reads_cons _ hs.bare, reads_cons _ hs.bare, turn_eq_of_toPattern? h (hs.isEnd hslash)]

theorem reads_eq_of_slash {d d' : Draft} (h : d.slash = d'.slash) (hs : Stops place) :
    (inside d frames).reads place = (inside d' frames).reads place := by
  have hp : d.toPattern? = d'.toPattern? := by rw [Draft.toPattern?, h, Draft.toPattern?]
  cases hslash : sign? '/' place with
  | none => exact reads_eq_of_toPattern? hp hs hslash
  | some rest =>
    obtain ⟨after, rfl, -⟩ := exists_of_sign hslash
    rw [reads_cons _ hs.bare, reads_cons _ hs.bare]
    simp only [readToken, turn, insideTurn, h]

/-- Nothing has been read that could be a pattern, and no item is here. -/
theorem reads_nothing {alternatives : List Pattern} (hbare : Bare place)
    (h : startsItem place = false) :
    (inside ⟨alternatives, []⟩ frames).reads place
      = .error (.fault ⟨.expectedPattern, place⟩) := by
  cases place with
  | nil => rw [reads_nil]; rfl
  | cons c rest =>
    rw [reads_cons _ hbare]
    rcases isEnd_of_not_startsItem h with hend | rfl | ⟨m, rfl⟩
    · rw [turn_eq_endTurn hend fun b _ => rfl]
      rfl
    · rfl
    · cases m <;> rfl

/-! ## Brackets -/

/-- The reader behind the bracket that closes. -/
def Reader.behindBracket (q : Pattern) (d : Draft) (frames : List Frame) : Bracket → Reader
  | .group => inside (d.add q) frames
  | .capture => beforeTemplate q d frames

theorem reads_closing (q : Pattern) (b : Bracket) (hs : Stops place)
    (hslash : sign? '/' place = none) :
    (inside (Draft.add {} q) (⟨b, d⟩ :: frames)).reads place = (closing b.closing place).andThen
      fun _ rest => (behindBracket q d frames b).reads rest := by
  cases place with
  | nil => rw [reads_nil]; rfl
  | cons c rest =>
    rw [reads_cons _ hs.bare, closing, sign?]
    by_cases hc : c = b.closing
    · subst hc
      have htoken : readToken b.closing rest = (.closes b, rest) := by
        cases b <;> rfl
      have hturn : (inside (Draft.add {} q) (⟨b, d⟩ :: frames)).turn (.closes b)
          = .ok (.reads (behindBracket q d frames b)) := by
        cases b <;> rfl
      rw [htoken, hturn, if_pos rfl]
      exact (reads_skipBlanks _ rest).symm
    · have hother : ∀ b', (readToken c rest).1 = .closes b' → b ≠ b' := by
        rintro b' ht rfl
        exact hc (beginsWith_of_readToken ht)
      have hturn : (inside (Draft.add {} q) (⟨b, d⟩ :: frames)).turn (readToken c rest).1
          = endTurn (inside (Draft.add {} q) (⟨b, d⟩ :: frames)) :=
        turn_eq_endTurn (hs.isEnd hslash) fun b' ht => if_neg (hother b' ht)
      rw [hturn, if_neg hc]
      rfl

theorem reads_template (q : Pattern) (hbare : Bare place) :
    (beforeTemplate q d frames).reads place = (template place).andThen
      fun t rest => (inside (d.add (.capture q t)) frames).reads rest := by
  unfold template
  split
  · exact reads_tokenOf hbare rfl (fun _ => rfl) fun _ => rfl
  · exact reads_tokenOf hbare rfl (fun _ => rfl) fun _ => rfl
  · next hsingle hdouble =>
    cases place with
    | nil => rw [reads_nil]; rfl
    | cons c rest =>
      have hturn : (beforeTemplate q d frames).turn (readToken c rest).1
          = .error (.problem .expectedTemplate) := by
        cases ht : (readToken c rest).1 with
        | quoted content =>
          rcases beginsWith_of_readToken ht with rfl | rfl
          · exact absurd rfl (hsingle rest)
          · exact absurd rfl (hdouble rest)
        | _ => rfl
      rw [reads_cons _ hbare, hturn]
      rfl

/-! ## Drafts -/

theorem slash_foldl_add (ps : List Pattern) (d : Draft) :
    (ps.foldl Draft.add d).slash
      = (Pattern.seqAll (d.items.reverse ++ ps)).map fun p => ⟨p :: d.alternatives, []⟩ := by
  induction ps generalizing d with
  | nil => rw [List.append_nil]; rfl
  | cons p ps ih => simp [ih, Draft.add]

/-- The running reader behind a sequence, with the alternatives before it, newest first. -/
def Reader.behindSequence (frames : List Frame) (ps : Pattern × List Pattern) : Reader :=
  inside ⟨ps.2, [ps.1]⟩ frames

/-- One more alternative, and the last one is among those before it. -/
def addAlternative (ps : Pattern × List Pattern) (p : Pattern) : Pattern × List Pattern :=
  (p, ps.1 :: ps.2)

theorem toPattern?_behindSequence (more : List Pattern) (ps : Pattern × List Pattern) :
    let last := more.foldl addAlternative ps
    Draft.toPattern? ⟨last.2, [last.1]⟩ = Pattern.altAll (ps.2.reverse ++ ps.1 :: more) := by
  induction more generalizing ps with
  | nil => simp [Draft.toPattern?, Draft.slash, Pattern.seqAll]
  | cons p more ih => simpa [addAlternative] using ih (addAlternative ps p)

theorem exists_altAll (p : Pattern) (ps : List Pattern) :
    ∃ q, Pattern.altAll (p :: ps) = some q := by
  rw [Pattern.altAll]
  split
  · exact ⟨p, rfl⟩
  · exact ⟨_, rfl⟩

/-! ## Rules -/

/-- What the readers of the rules need of the one for patterns in brackets: at this place it goes
along with the running reader, up to where the pattern ends. -/
structure Tracks (inner : List Char → Reading Pattern) (place : List Char) : Prop where
  takes : Takes 0 place (inner place)
  stops : Leaves (fun p => Stops p ∧ sign? '/' p = none) (inner place)
  reads : Bare place → ∀ frames, (inside {} frames).reads place
    = (inner place).andThen fun q rest => (inside (Draft.add {} q) frames).reads rest

section Rules

variable {inner : List Char → Reading Pattern}

/-- What stands in brackets, and the bracket that closes. -/
theorem reads_brackets {b : Bracket} (hinner : Tracks inner (skipBlanks false rest)) :
    (inside d frames).reads (b.opening :: rest)
      = (inner (skipBlanks false rest)).andThen fun q left =>
        (closing b.closing left).andThen fun _ left => (behindBracket q d frames b).reads left := by
  have hbare : Bare (b.opening :: rest) := by
    cases b <;> rfl
  have htoken : readToken b.opening rest = (.opens b, rest) := by
    cases b <;> rfl
  rw [reads_cons _ hbare, htoken]
  simp only [turn, insideTurn]
  rw [← reads_skipBlanks, hinner.reads (bare_skipBlanks ..)]
  cases hread : inner (skipBlanks false rest) with
  | error e => rfl
  | ok found =>
    obtain ⟨q, left⟩ := found
    obtain ⟨hs, hslash⟩ := hinner.stops.rest hread
    exact reads_closing q b hs hslash

variable (h : ∀ p : List Char, p.length < place.length → Tracks inner p)
include h

theorem reads_item (hstart : startsItem place = true) :
    (inside d frames).reads place
      = (item inner place).andThen fun p rest => (inside (d.add p) frames).reads rest := by
  have hskip : ∀ {c : Char} {rest : List Char}, place = c :: rest →
      Tracks inner (skipBlanks false rest) := by
    rintro c rest rfl
    exact h _ (Nat.lt_succ_of_le (length_skipBlanks_le false rest))
  unfold item
  split
  · cases hstart
  · next rest =>
    refine (reads_brackets (b := .group) (hskip rfl)).trans ?_
    simp only [Reading.andThen_assoc]
    rfl
  · next rest =>
    refine (reads_brackets (b := .capture) (hskip rfl)).trans ?_
    simp only [Reading.andThen_assoc]
    cases inner (skipBlanks false rest) with
    | error e => rfl
    | ok found =>
      cases hclose : closing '\x7d' found.2 with
      | error e =>
        simp only [Reading.andThen, Except.bind, Bracket.closing, hclose]
      | ok closed =>
        simp only [Reading.andThen, Except.bind, Bracket.closing, hclose]
        exact reads_template found.1 ((leaves_closing _ _).rest hclose)
  · next rest =>
    have hbare : Bare ('[' :: rest) := rfl
    rw [Reading.andThen_assoc]
    exact reads_tokenOf hbare rfl (fun _ => rfl) fun _ => rfl
  · next rest =>
    have hbare : Bare ('.' :: rest) := rfl
    rw [reads_cons _ hbare]
    exact (reads_skipBlanks _ rest).symm
  · exact reads_event rfl rfl
  · exact reads_event rfl rfl
  · next c rest hparen hbrace hbracket hdot hsingle hdouble =>
    have hname : isNameStart c = true ∧ arrowFollows (rest.dropWhile isNameChar) = false := by
      simp only [startsItem, itemSigns, Bool.or_eq_true, List.contains_iff_mem, List.mem_cons,
        List.not_mem_nil, or_false] at hstart
      rcases hstart with (rfl | rfl | rfl | rfl | rfl | rfl) | hname
      · exact absurd rfl hparen
      · exact absurd rfl hbrace
      · exact absurd rfl hbracket
      · exact absurd rfl hdot
      · exact absurd rfl hsingle
      · exact absurd rfl hdouble
      · simpa using hname
    obtain ⟨hc, harrow⟩ := hname
    rw [reads_cons _ (bare_of_isNameStart hc rest), readToken_of_isNameStart hc, harrow,
      if_pos hc, name, if_pos hc]
    exact (reads_skipBlanks _ _).symm

theorem reads_marked (hstart : startsItem place = true) :
    (inside d frames).reads place
      = (marked inner place).andThen fun p rest => (inside (d.add p) frames).reads rest := by
  rw [marked, Reading.andThen_assoc, reads_item h hstart]
  cases item inner place with
  | error e => rfl
  | ok found =>
    obtain ⟨p, rest⟩ := found
    refine (reads_marks p rest).trans ?_
    simp only [Reading.andThen_ok]
    cases many mark? rest <;> rfl

theorem reads_items (d : Draft) :
    (inside d frames).reads place = (many (marked? inner) place).andThen fun ps rest =>
      (inside (ps.foldl Draft.add d) frames).reads rest := by
  refine reads_many (fun d => inside d frames) Draft.add
    (fun p _ hp => takes_marked? fun q hq => (h q (by omega)).takes) (fun p x hp hx d => ?_) d
  unfold marked? at hx
  split at hx
  · next hstart =>
    cases hx
    exact reads_marked (fun q hq => h q (by omega)) hstart
  · cases hx

theorem reads_sequence (hbare : Bare place) (alternatives : List Pattern) :
    (inside ⟨alternatives, []⟩ frames).reads place = (sequence inner place).andThen
      fun p rest => (inside ⟨alternatives, [p]⟩ frames).reads rest := by
  rw [reads_items h, Descent.sequence, Reading.andThen_assoc]
  cases hitems : many (marked? inner) place with
  | error e => rfl
  | ok found =>
    obtain ⟨ps, rest⟩ := found
    obtain ⟨hend, hrest⟩ := many_stops (fun _ _ => leaves_marked?) hitems
    have hitem := startsItem_of_marked? hend
    have hslash := slash_foldl_add ps ⟨alternatives, []⟩
    simp only [Reading.andThen_ok]
    cases ps with
    | nil =>
      rcases hrest with ⟨-, rfl⟩ | ⟨hbare, -⟩
      · exact reads_nothing hbare hitem
      · exact reads_nothing hbare hitem
    | cons p ps =>
      obtain ⟨hbare, hmark⟩ := hrest.resolve_left fun hnil => nomatch hnil.1
      exact reads_eq_of_slash hslash ⟨hbare, hitem, hmark⟩

theorem reads_alternative {x : Reading Pattern} (hx : alternative? inner place = some x)
    (ps : Pattern × List Pattern) :
    (behindSequence frames ps).reads place
      = x.andThen fun p rest => (behindSequence frames (addAlternative ps p)).reads rest := by
  obtain ⟨left, hslash, rfl⟩ := Option.map_eq_some_iff.mp hx
  obtain ⟨after, rfl, rfl⟩ := exists_of_sign hslash
  have hbare : Bare ('/' :: after) := rfl
  have hturn : (behindSequence frames ps).reads ('/' :: after)
      = (inside ⟨ps.1 :: ps.2, []⟩ frames).reads after := by
    rw [reads_cons _ hbare]
    rfl
  have hle := length_skipBlanks_le false after
  have hinner : ∀ p : List Char, p.length < (skipBlanks false after).length → Tracks inner p :=
    fun p hp => h p (by rw [List.length_cons]; omega)
  rw [hturn, ← reads_skipBlanks]
  exact reads_sequence hinner (bare_skipBlanks false after) _

theorem reads_alternatives (hbare : Bare place) :
    (inside {} frames).reads place = (alternatives inner place).andThen
      fun q rest => (inside (Draft.add {} q) frames).reads rest := by
  refine (reads_sequence h hbare []).trans ?_
  cases hfirst : sequence inner place with
  | error e => rw [alternatives, hfirst]; rfl
  | ok found =>
    obtain ⟨p, rest⟩ := found
    have hle : rest.length ≤ place.length :=
      (takes_sequence fun q hq => (h q hq).takes).length_add_le hfirst
    have hmany : (behindSequence frames (p, [])).reads rest
        = (many (alternative? inner) rest).andThen fun ps left =>
          (behindSequence frames (ps.foldl addAlternative (p, []))).reads left :=
      reads_many (behindSequence frames) addAlternative
        (fun q _ hq => takes_alternative? fun r hr => (h r (by omega)).takes)
        (fun q _ hq hx ps => reads_alternative (fun r hr => h r (by omega)) hx ps) (p, [])
    refine hmany.trans ?_
    cases hmore : many (alternative? inner) rest with
    | error e => simp [alternatives, hfirst, hmore]
    | ok found =>
      obtain ⟨ps, left⟩ := found
      obtain ⟨q, hq⟩ := exists_altAll p ps
      have hread : alternatives inner place = .ok (q, left) := by
        simp [alternatives, hfirst, hmore, hq]
      obtain ⟨hs, hslash⟩ := (leaves_alternatives place).rest hread
      rw [hread]
      refine reads_eq_of_toPattern? ?_ hs hslash
      rw [toPattern?_behindSequence]
      exact hq

end Rules

theorem tracks_pattern {depth : Nat} (h : place.length < depth) :
    Tracks (pattern depth) place := by
  induction depth generalizing place with
  | zero => exact absurd h (Nat.not_lt_zero _)
  | succ depth ih =>
    refine ⟨takes_pattern h, leaves_pattern _ _, fun hbare frames => ?_⟩
    exact reads_alternatives (fun p hp => ih (by omega)) hbare

/-! ## Whole texts -/

theorem reads_pattern {depth : Nat} (hbare : Bare place) (h : place.length < depth) :
    Reader.start.reads place = (pattern depth place).andThen fun q rest => .ok (q, lex rest) := by
  rw [Reader.start, (tracks_pattern h).reads hbare]
  cases hread : pattern depth place with
  | error e => rfl
  | ok found =>
    obtain ⟨q, rest⟩ := found
    obtain ⟨hs, hslash⟩ := (leaves_pattern depth place).rest hread
    have hfinish : (inside (Draft.add {} q) []).finish = .ok q := rfl
    simp only [Reading.andThen_ok]
    cases rest with
    | nil => rw [reads_nil, hfinish, lex_nil]
    | cons c rest =>
      rw [reads_cons _ hs.bare, turn_eq_endTurn (hs.isEnd hslash) fun b _ => rfl, endTurn, hfinish]
      rfl

theorem mapError_readPattern (tokens : List Lexeme) :
    (readPattern tokens).mapError Objection.toHalt
      = ((Reader.start.run tokens).mapError Objection.toHalt).bind fun
        | (p, []) => .ok p
        | (_, t :: _) => .error (.fault ⟨.unexpected t.first, t.place⟩) := by
  unfold readPattern
  cases Reader.start.run tokens with
  | error o => rfl
  | ok found =>
    obtain ⟨p, rest⟩ := found
    cases rest <;> rfl

/-- The running reader reads a pattern as the readers of the rules do. -/
theorem readPattern_eq_wholePattern (text : List Char) :
    (readPattern (lex text)).mapError Objection.toHalt = (wholePattern text).map Prod.fst := by
  have hlt := Nat.lt_succ_of_le (length_skipBlanks_le false text)
  rw [mapError_readPattern, ← Reader.reads, ← reads_skipBlanks,
    reads_pattern (bare_skipBlanks false text) hlt, wholePattern]
  cases hread : pattern (text.length + 1) (skipBlanks false text) with
  | error e => rfl
  | ok found =>
    obtain ⟨q, rest⟩ := found
    simp only [Reading.andThen_ok]
    cases rest with
    | nil => rw [lex_nil]; rfl
    | cons c rest =>
      obtain ⟨hs, -⟩ := (leaves_pattern _ _).rest hread
      rw [hs.bare.lex_cons]
      rfl

/-! ## Definitions -/

theorem mapError_bind {ε ε' : Type} (x : Except ε α) (f : α → Except ε β) (g : ε → ε') :
    (x.bind f).mapError g = (x.mapError g).bind fun a => (f a).mapError g := by
  cases x <;> rfl

theorem arrow?_of_lex {first : Char} {after : List Char} {body : List Lexeme} (hbare : Bare place)
    (h : lex place = ⟨.arrow, first, after⟩ :: body) : ∃ left, arrow? place = some left := by
  cases place with
  | nil =>
    rw [lex_nil] at h
    cases h
  | cons c rest =>
    rw [hbare.lex_cons] at h
    have htoken : (readToken c rest).1 = .arrow := congrArg Lexeme.token (List.cons.inj h).1
    obtain ⟨rfl, more, rfl⟩ := beginsWith_of_readToken htoken
    exact ⟨_, rfl⟩

/-- The running reader behind a name. -/
theorem readDefinitions_name (word : String) (heads : Bool) (c : Char) (rest : List Char)
    (hbare : Bare place) :
    readDefinitions (⟨.name word heads, c, rest⟩ :: lex place) = match arrow? place with
      | some body => (Reader.start.run (lex body)).bind fun (p, ts) =>
        (readDefinitions ts).map ((word, p) :: ·)
      | none => .error ⟨.problem (.expectedArrow word), c :: rest⟩ := by
  cases harrow : arrow? place with
  | some body =>
    obtain ⟨after, rfl, rfl⟩ := exists_of_arrow harrow
    have htoken : readToken '<' ('-' :: after) = (.arrow, after) := rfl
    simp only [hbare.lex_cons, htoken, lex_skipBlanks]
    exact readDefinitions_of_heading rfl
  | none =>
    rw [readDefinitions]
    simp only
    split
    · next hlex =>
      obtain ⟨left, hleft⟩ := arrow?_of_lex hbare hlex
      rw [harrow] at hleft
      cases hleft
    · rfl

theorem reads_definition {c : Char} (hbare : Bare (c :: rest)) {depth : Nat}
    (h : rest.length < depth) :
    (readDefinitions (lex (c :: rest))).mapError Objection.toHalt
      = (definition depth (c :: rest)).andThen fun rule left =>
        ((readDefinitions (lex left)).mapError Objection.toHalt).map (rule :: ·) := by
  rw [definition, name]
  by_cases hc : isNameStart c = true
  · have hdrop := (List.dropWhile_suffix isNameChar (l := rest)).length_le
    have hskip := length_skipBlanks_le false (rest.dropWhile isNameChar)
    have hleft := bare_skipBlanks false (rest.dropWhile isNameChar)
    rw [if_pos hc, hbare.lex_cons, readToken_of_isNameStart hc, ← lex_skipBlanks,
      readDefinitions_name _ _ _ _ hleft]
    simp only [Reading.andThen_ok]
    cases harrow : arrow? (skipBlanks false (rest.dropWhile isNameChar)) with
    | none => rfl
    | some body =>
      obtain ⟨-, hn⟩ := takes_arrow harrow
      have hbody : body.length < depth := by omega
      simp only
      rw [mapError_bind, ← Reader.reads, reads_pattern (bare_of_arrow harrow) hbody]
      cases pattern depth body with
      | error e => rfl
      | ok found =>
        obtain ⟨p, left⟩ := found
        simp only [Reading.andThen_ok, Except.bind]
        cases readDefinitions (lex left) <;> rfl
  · have hname : ∀ word heads, (readToken c rest).1 ≠ .name word heads :=
      fun _ _ ht => hc (beginsWith_of_readToken ht).1
    rw [if_neg hc, hbare.lex_cons, readDefinitions]
    split
    · next word heads ht => exact absurd ht (hname word heads)
    · rfl

theorem readDefinitions_eq_many {depth : Nat} (hbare : Bare place) (h : place.length ≤ depth) :
    (readDefinitions (lex place)).mapError Objection.toHalt
      = (many (definition? depth) place).andThen fun rules _ => .ok rules := by
  fun_induction many (definition? depth) place with
  | case1 place hnext =>
    obtain rfl : place = [] := by simpa [definition?] using hnext
    rw [lex_nil, readDefinitions]
    rfl
  | case2 place e hnext =>
    obtain ⟨c, rest, rfl, hread⟩ := definition?_eq_some hnext
    rw [reads_definition hbare h, hread]
    rfl
  | case3 place rule rest hnext hlt ih =>
    obtain ⟨c, after, rfl, hread⟩ := definition?_eq_some hnext
    have hrest : Bare rest := (leaves_definition depth _).rest hread
    rw [reads_definition hbare h, hread, Reading.andThen_ok, ih hrest (by omega)]
    cases many (definition? depth) rest <;> rfl
  | case4 place rule rest hnext hlt =>
    exact absurd ((takes_definition? h hnext).length_add_le rfl) hlt

theorem mapError_readGrammar (tokens : List Lexeme) :
    (readGrammar tokens).mapError Objection.toHalt
      = ((readDefinitions tokens).mapError Objection.toHalt).bind fun
        | [] => .error (.fault ⟨.expectedDefinition, []⟩)
        | (name, body) :: rules => .ok ⟨name, (name, body) :: rules⟩ := by
  unfold readGrammar
  cases readDefinitions tokens with
  | error o => rfl
  | ok rules => cases rules <;> rfl

/-- The running reader reads a grammar as the readers of the rules do. -/
theorem readGrammar_eq_wholeGrammar (text : List Char) :
    (readGrammar (lex text)).mapError Objection.toHalt = (wholeGrammar text).map Prod.fst := by
  have hle := Nat.le_succ_of_le (length_skipBlanks_le false text)
  rw [mapError_readGrammar, ← lex_skipBlanks,
    readDefinitions_eq_many (bare_skipBlanks false text) hle, wholeGrammar]
  cases hmany : many (definition? (text.length + 1)) (skipBlanks false text) with
  | error e => rfl
  | ok found =>
    obtain ⟨rules, rest⟩ := found
    cases rules with
    | cons rule rules => rfl
    | nil =>
      obtain ⟨hend, -⟩ := many_stops (fun _ _ => leaves_definition?) hmany
      obtain rfl : rest = [] := by simpa [definition?] using hend
      rfl

end Keymap.Notation
