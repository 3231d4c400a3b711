-- Which patterns have a notation. Every pattern that is read from a text is expressible, since each
-- token keeps what has been read expressible. And every expressible pattern has a text: its parts
-- have texts, and they are put together.
import Keymap.Proofs.Composition

namespace Keymap

/-! ## Expressible patterns -/

/-- The set has ranges, and no range is empty. -/
def CharSet.Proper (s : CharSet) : Prop := s.ranges ≠ [] ∧ ∀ r ∈ s.ranges, r.1 ≤ r.2

/-- A letter or an underscore comes first, then letters, digits and underscores. All are ASCII. -/
def Notation.IsName (word : List Char) : Prop :=
  ∃ c rest, word = c :: rest ∧ (c.isAlpha ∨ c = '_') ∧ ∀ d ∈ rest, d.isAlphanum ∨ d = '_'

/-- The pattern can be written. Its events have descriptors or are proper sets of characters, its
templates are not empty, and its rules have names. -/
def Pattern.Expressible : Pattern → Prop
  | .event m => (∃ text, Matcher.parse {} text = .ok m) ∨ ∃ s : CharSet, m = .oneOf s ∧ s.Proper
  | .seq a b => a.Expressible ∧ b.Expressible
  | .alt a b => a.Expressible ∧ b.Expressible
  | .star p => p.Expressible
  | .plus p => p.Expressible
  | .opt p => p.Expressible
  | .capture p template => p.Expressible ∧ template ≠ ""
  | .done => False
  | .rule name => Notation.IsName name.toList

namespace Notation

/-! ## What the lexer finds -/

/-- What a token holds can stand in an expressible pattern. -/
def Token.Sound : Token → Prop
  | .name word _ => IsName word.toList
  | .quoted (.ok content) => content ≠ ""
  | .oneOf (.ok set) => set.Proper
  | _ => True

theorem Token.sound_of_isSign {t : Token} (h : t.isSign = true) : t.Sound := by
  cases t with
  | name => cases h
  | quoted => cases h
  | oneOf => cases h
  | _ => trivial

theorem isName_of_isNameStart {c : Char} (hc : isNameStart c = true) (rest : List Char) :
    IsName (c :: rest.takeWhile isNameChar) := by
  refine ⟨c, _, rfl, by simpa [isNameStart] using hc, ?_⟩
  intro d hd
  have hall : (rest.takeWhile isNameChar).all isNameChar = true := List.all_takeWhile
  simpa [isNameChar] using List.all_eq_true.mp hall d hd

theorem ne_empty_of_readQuoted {quote : Char} {text rest : List Char} {content : String}
    (h : readQuoted quote text = .ok (content, rest)) : content ≠ "" := by
  unfold readQuoted at h
  split at h
  · cases h
  · cases h
  · next body _ hne _ =>
    cases h
    intro hempty
    have hbody : body = [] := by simpa using congrArg String.toList hempty
    exact hne hbody

theorem le_of_readRange {text rest : List Char} {r : Char × Char}
    (h : readRange text = .ok (r, rest)) : r.1 ≤ r.2 := by
  unfold readRange at h
  split at h
  · cases h
  · split at h
    · cases h
    · split at h
      · cases h
      · next hle =>
        cases h
        exact Char.not_lt.mp hle

theorem le_of_readRanges {start text rest : List Char} {rs : List (Char × Char)}
    (h : readRanges start text = .ok (rs, rest)) : ∀ r ∈ rs, r.1 ≤ r.2 := by
  fun_induction readRanges start text generalizing rs rest with
  | case1 => cases h
  | case2 after =>
    cases h
    exact List.forall_mem_nil _
  | case3 => cases h
  | case4 c after hc r left hr hl ih =>
    cases hb : readRanges start left with
    | error f =>
      rw [hb] at h
      cases h
    | ok found =>
      obtain ⟨rs', rest'⟩ := found
      rw [hb] at h
      cases h
      exact List.forall_mem_cons.mpr ⟨le_of_readRange hr, ih hb⟩

theorem proper_of_readClass {text rest : List Char} {set : CharSet}
    (h : readClass text = .ok (set, rest)) : set.Proper := by
  unfold readClass at h
  simp only at h
  split at h
  · cases h
  · cases h
  · next ranges _ hne hranges =>
    cases h
    refine ⟨?_, le_of_readRanges hranges⟩
    rintro rfl
    exact hne rfl

theorem sound_readToken (c : Char) (rest : List Char) : (readToken c rest).1.Sound := by
  cases begins c with
  | sign t ht h =>
    rw [h]
    exact Token.sound_of_isSign ht
  | angle hc =>
    subst hc
    cases rest with
    | nil => trivial
    | cons d rest =>
      by_cases hd : d = '-'
      · subst hd
        trivial
      · rw [readToken_angle hd]
        trivial
  | name hc =>
    rw [readToken_of_isNameStart hc]
    change IsName (String.ofList (c :: rest.takeWhile isNameChar)).toList
    rw [String.toList_ofList]
    exact isName_of_isNameStart hc rest
  | quoted h =>
    rw [h]
    cases hread : readQuoted c rest with
    | error f => trivial
    | ok found => exact ne_empty_of_readQuoted hread
  | oneOf h =>
    rw [h]
    cases hread : readClass rest with
    | error f => trivial
    | ok found => exact proper_of_readClass hread

theorem sound_tokens (text : List Char) : ∀ t ∈ tokens text, t.Sound := by
  fun_induction lex text with
  | case1 text hskip =>
    rw [tokens_of_skipBlanks_nil hskip]
    exact List.forall_mem_nil _
  | case2 text c rest hskip hs hle ih =>
    rw [tokens_of_skipBlanks_cons hskip]
    exact List.forall_mem_cons.mpr ⟨sound_readToken c rest, ih⟩

/-! ## What the reader makes of it -/

theorem expressible_of_seqAll {ps : List Pattern} {p : Pattern} (h : ∀ q ∈ ps, q.Expressible)
    (hp : Pattern.seqAll ps = some p) : p.Expressible := by
  have hfold : ∀ (qs : List Pattern) (q : Pattern), q.Expressible → (∀ r ∈ qs, r.Expressible) →
      (qs.foldl .seq q).Expressible := by
    intro qs
    induction qs with
    | nil => exact fun q hq _ => hq
    | cons r qs ih =>
      intro q hq hqs
      obtain ⟨hr, hqs⟩ := List.forall_mem_cons.mp hqs
      exact ih (.seq q r) ⟨hq, hr⟩ hqs
  cases ps with
  | nil => cases hp
  | cons q qs =>
    cases hp
    obtain ⟨hq, hqs⟩ := List.forall_mem_cons.mp h
    exact hfold qs q hq hqs

theorem expressible_of_altAll {ps : List Pattern} {p : Pattern} (h : ∀ q ∈ ps, q.Expressible)
    (hp : Pattern.altAll ps = some p) : p.Expressible := by
  induction ps generalizing p with
  | nil => cases hp
  | cons q qs ih =>
    obtain ⟨hq, hqs⟩ := List.forall_mem_cons.mp h
    unfold Pattern.altAll at hp
    split at hp
    · cases hp
      exact hq
    · next r hr =>
      cases hp
      exact ⟨hq, ih hqs hr⟩

namespace Draft

/-- What has been read is expressible. -/
structure Expressible (d : Draft) : Prop where
  alternatives : ∀ p ∈ d.alternatives, p.Expressible
  items : ∀ p ∈ d.items, p.Expressible

theorem Expressible.empty : Expressible {} := ⟨List.forall_mem_nil _, List.forall_mem_nil _⟩

theorem Expressible.add {d : Draft} {p : Pattern} (h : d.Expressible) (hp : p.Expressible) :
    (d.add p).Expressible :=
  ⟨h.alternatives, List.forall_mem_cons.mpr ⟨hp, h.items⟩⟩

theorem Expressible.mark {d d' : Draft} {m : Mark} (h : d.Expressible)
    (hd : d.mark m = some d') : d'.Expressible := by
  unfold Draft.mark at hd
  split at hd
  · cases hd
  · next p ps hitems =>
    cases hd
    have hall := h.items
    rw [hitems] at hall
    obtain ⟨hp, hps⟩ := List.forall_mem_cons.mp hall
    refine ⟨h.alternatives, List.forall_mem_cons.mpr ⟨?_, hps⟩⟩
    cases m <;> exact hp

theorem Expressible.slash {d d' : Draft} (h : d.Expressible) (hd : d.slash = some d') :
    d'.Expressible := by
  obtain ⟨p, hp, rfl⟩ := Option.map_eq_some_iff.mp hd
  refine ⟨List.forall_mem_cons.mpr ⟨?_, h.alternatives⟩, List.forall_mem_nil _⟩
  exact expressible_of_seqAll (fun q hq => h.items q (List.mem_reverse.mp hq)) hp

theorem Expressible.toPattern? {d : Draft} {p : Pattern} (h : d.Expressible)
    (hp : d.toPattern? = some p) : p.Expressible := by
  obtain ⟨closed, hclosed, hp⟩ := Option.bind_eq_some_iff.mp hp
  have hall := (h.slash hclosed).alternatives
  exact expressible_of_altAll (fun q hq => hall q (List.mem_reverse.mp hq)) hp

end Draft

namespace Reader

/-- What has been read, also before the open brackets, is expressible. -/
def Expressible : Reader → Prop
  | .inside draft frames => draft.Expressible ∧ ∀ f ∈ frames, f.outer.Expressible
  | .beforeTemplate body outer frames =>
    body.Expressible ∧ outer.Expressible ∧ ∀ f ∈ frames, f.outer.Expressible

theorem Expressible.closeTurn {draft : Draft} {frames : List Frame} {b : Bracket} {next : Reader}
    (h : (inside draft frames).Expressible)
    (ht : Reader.closeTurn draft frames b = .ok (.reads next)) : next.Expressible := by
  obtain ⟨hdraft, hframes⟩ := h
  unfold Reader.closeTurn at ht
  split at ht
  · next p f rest hp =>
    obtain ⟨hf, hrest⟩ := List.forall_mem_cons.mp hframes
    have hexpr := hdraft.toPattern? hp
    split at ht
    · cases b with
      | group =>
        cases ht
        exact ⟨hf.add hexpr, hrest⟩
      | capture =>
        cases ht
        exact ⟨hexpr, hf, hrest⟩
    · exact absurd ht endTurn_ne_reads
  · exact absurd ht endTurn_ne_reads

theorem Expressible.changeTurn {changed : Option Draft} {frames : List Frame} {next : Reader}
    (hdraft : ∀ d, changed = some d → d.Expressible) (hframes : ∀ f ∈ frames, f.outer.Expressible)
    (ht : Reader.changeTurn changed frames = .ok (.reads next)) : next.Expressible := by
  unfold Reader.changeTurn at ht
  split at ht
  · cases ht
    exact ⟨hdraft _ rfl, hframes⟩
  · cases ht

/-- A token keeps what has been read expressible. -/
theorem Expressible.turn {r next : Reader} {t : Token} (h : r.Expressible) (ht : t.Sound)
    (hturn : r.turn t = .ok (.reads next)) : next.Expressible := by
  cases r with
  | inside draft frames =>
    obtain ⟨hdraft, hframes⟩ := h
    cases t with
    | opens b =>
      cases hturn
      exact ⟨.empty, List.forall_mem_cons.mpr ⟨hdraft, hframes⟩⟩
    | closes b => exact Expressible.closeTurn ⟨hdraft, hframes⟩ hturn
    | mark m => exact Expressible.changeTurn (fun _ => hdraft.mark) hframes hturn
    | slash => exact Expressible.changeTurn (fun _ => hdraft.slash) hframes hturn
    | dot =>
      cases hturn
      exact ⟨hdraft.add (.inl ⟨"any", rfl⟩), hframes⟩
    | name word heads =>
      cases heads with
      | true => exact absurd hturn endTurn_ne_reads
      | false =>
        cases hturn
        exact ⟨hdraft.add ht, hframes⟩
    | quoted content =>
      cases content with
      | error f => cases hturn
      | ok text =>
        cases hm : Matcher.parse {} text with
        | error e => simp [Reader.turn, insideTurn, Pattern.parseEvent, hm, Except.map] at hturn
        | ok m =>
          simp only [Reader.turn, insideTurn, Pattern.parseEvent, hm, Except.map] at hturn
          cases hturn
          exact ⟨hdraft.add (.inl ⟨text, hm⟩), hframes⟩
    | oneOf set =>
      cases set with
      | error f => cases hturn
      | ok s =>
        cases hturn
        exact ⟨hdraft.add (.inr ⟨s, rfl, ht⟩), hframes⟩
    | arrow | other => exact absurd hturn endTurn_ne_reads
  | beforeTemplate body outer frames =>
    obtain ⟨hbody, houter, hframes⟩ := h
    cases t with
    | quoted content =>
      cases content with
      | error f => cases hturn
      | ok template =>
        cases hturn
        exact ⟨houter.add ⟨hbody, ht⟩, hframes⟩
    | _ => cases hturn

theorem Expressible.after {r last : Reader} {ts : List Token} (h : r.Expressible)
    (hts : ∀ t ∈ ts, t.Sound) (hafter : r.after ts = some last) : last.Expressible := by
  induction ts generalizing r with
  | nil =>
    cases hafter
    exact h
  | cons t ts ih =>
    obtain ⟨ht, hts⟩ := List.forall_mem_cons.mp hts
    obtain ⟨next, hturn, hrest⟩ := exists_of_after_cons hafter
    exact ih (h.turn ht hturn) hts hrest

end Reader

theorem expressible_of_parse {text : String} {p : Pattern} (h : Pattern.parse text = .ok p) :
    p.Expressible := by
  obtain ⟨d, hafter, hd⟩ := parse_eq_ok_iff.mp h
  have hstart : Reader.start.Expressible := ⟨.empty, List.forall_mem_nil _⟩
  obtain ⟨hdraft, -⟩ := hstart.after (sound_tokens text.toList) hafter
  exact hdraft.toPattern? hd

end Notation

end Keymap
