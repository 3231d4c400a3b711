-- Reading along the grammar of the notation. Every rule of the grammar has a reader of its own,
-- which begins at a place in the text and gives what it reads and the place behind it. A reader that
-- does not move on is stuck, and none is: what a rule takes again and again has a character at least,
-- and nothing is objected to before the place where its reader begins.
import Keymap.Proofs.Composition
import Keymap.Proofs.Places

namespace Keymap.Notation

/-! ## Readers of the rules -/

/-- Why nothing is read. -/
inductive Halt where
  /-- Something is wrong at a place of the text. -/
  | fault (f : Fault)
  /-- A literal is no event. -/
  | event (e : Error)
  /-- A reader comes back to where it was, or goes deeper than it may. -/
  | stuck
deriving DecidableEq

/-- What is read, and the place behind it and the blanks after it. -/
abbrev Reading (α : Type) := Except Halt (α × List Char)

variable {α β γ : Type}

/-- Goes on from the place behind. -/
def Reading.andThen (x : Reading α) (next : α → List Char → Except Halt γ) : Except Halt γ :=
  x.bind fun (a, rest) => next a rest

@[simp] theorem Reading.andThen_ok (a : α) (rest : List Char)
    (next : α → List Char → Except Halt γ) : Reading.andThen (.ok (a, rest)) next = next a rest :=
  rfl

@[simp] theorem Reading.andThen_error (e : Halt) (next : α → List Char → Except Halt γ) :
    Reading.andThen (.error e) next = .error e := rfl

namespace Descent

/-- Goes on behind the blanks. -/
def behind : Except Fault (α × List Char) → Reading α
  | .ok (a, rest) => .ok (a, skipBlanks false rest)
  | .error f => .error (.fault f)

/-- Reads one thing after the other, as long as another one begins. -/
def many (next : List Char → Option (Reading α)) (place : List Char) : Reading (List α) :=
  match next place with
  | none => .ok ([], place)
  | some (.error e) => .error e
  | some (.ok (a, rest)) =>
    if rest.length < place.length then
      (many next rest).map fun (as, left) => (a :: as, left)
    else .error .stuck
termination_by place.length

/-- What follows a sign and the blanks after it, if the sign is there. -/
def sign? (c : Char) : List Char → Option (List Char)
  | [] => none
  | d :: rest => if d = c then some (skipBlanks false rest) else none

/-- What follows an arrow and the blanks after it, if the arrow is there. -/
def arrow? : List Char → Option (List Char)
  | '<' :: '-' :: rest => some (skipBlanks false rest)
  | _ => none

def closing (c : Char) (place : List Char) : Reading Unit :=
  match sign? c place with
  | some rest => .ok ((), rest)
  | none => .error (.fault ⟨.expectedClosing c, place⟩)

def name : List Char → Reading String
  | [] => .error (.fault ⟨.expectedIdentifier, []⟩)
  | c :: rest =>
    if isNameStart c then
      .ok (String.ofList (c :: rest.takeWhile isNameChar),
        skipBlanks false (rest.dropWhile isNameChar))
    else .error (.fault ⟨.expectedIdentifier, c :: rest⟩)

/-- Reads a literal from behind its opening quote on. -/
def literal (quote : Char) (rest : List Char) : Reading String := behind (readQuoted quote rest)

/-- Reads a class from behind its opening bracket on. -/
def set (rest : List Char) : Reading CharSet := behind (readClass rest)

def template : List Char → Reading String
  | '\'' :: rest => literal '\'' rest
  | '"' :: rest => literal '"' rest
  | place => .error (.fault ⟨.expectedTemplate, place⟩)

def event (quote : Char) (rest : List Char) : Reading Pattern :=
  (literal quote rest).andThen fun text left =>
    match Pattern.parseEvent {} text with
    | .ok p => .ok (p, left)
    | .error e => .error (.event e)

def mark? : List Char → Option (Reading Mark)
  | '*' :: rest => some (.ok (.star, skipBlanks false rest))
  | '+' :: rest => some (.ok (.plus, skipBlanks false rest))
  | '?' :: rest => some (.ok (.opt, skipBlanks false rest))
  | _ => none

/-- The signs that an item begins with. -/
def itemSigns : List Char := ['(', '\x7b', '[', '.', '\'', '"']

/-- An item begins here, and no definition. -/
def startsItem : List Char → Bool
  | [] => false
  | c :: rest =>
    itemSigns.contains c || isNameStart c && !arrowFollows (rest.dropWhile isNameChar)

section Rules

/-! The argument of these readers is the one for patterns in brackets. -/

variable (inner : List Char → Reading Pattern)

def item : List Char → Reading Pattern
  | [] => .error (.fault ⟨.unexpectedEnd, []⟩)
  | '(' :: rest =>
    (inner (skipBlanks false rest)).andThen fun p left =>
      (closing ')' left).andThen fun _ left => .ok (p, left)
  | '\x7b' :: rest =>
    (inner (skipBlanks false rest)).andThen fun p left =>
      (closing '\x7d' left).andThen fun _ left =>
        (template left).andThen fun t left => .ok (.capture p t, left)
  | '[' :: rest => (set rest).andThen fun s left => .ok (.event (.oneOf s), left)
  | '.' :: rest => .ok (.event .any, skipBlanks false rest)
  | '\'' :: rest => event '\'' rest
  | '"' :: rest => event '"' rest
  | c :: rest =>
    if isNameStart c then (name (c :: rest)).andThen fun word left => .ok (.rule word, left)
    else .error (.fault ⟨.unexpected c, c :: rest⟩)

def marked (place : List Char) : Reading Pattern :=
  (item inner place).andThen fun p rest =>
    (many mark? rest).andThen fun ms left => .ok (ms.foldl (fun q m => m.apply q) p, left)

def marked? (place : List Char) : Option (Reading Pattern) :=
  if startsItem place then some (marked inner place) else none

def sequence (place : List Char) : Reading Pattern :=
  (many (marked? inner) place).andThen fun ps rest =>
    match Pattern.seqAll ps with
    | some p => .ok (p, rest)
    | none => .error (.fault ⟨.expectedPattern, rest⟩)

/-- A sequence behind a slash. -/
def alternative? (place : List Char) : Option (Reading Pattern) :=
  (sign? '/' place).map (sequence inner)

def alternatives (place : List Char) : Reading Pattern :=
  (sequence inner place).andThen fun p rest =>
    (many (alternative? inner) rest).andThen fun ps left =>
      match Pattern.altAll (p :: ps) with
      | some q => .ok (q, left)
      | none => .error (.fault ⟨.expectedPattern, left⟩)

end Rules

/-- Reads a pattern with less than `depth` brackets open at a time. -/
def pattern : Nat → List Char → Reading Pattern
  | 0, _ => .error .stuck
  | depth + 1, place => alternatives (pattern depth) place

def definition (depth : Nat) (place : List Char) : Reading (String × Pattern) :=
  (name place).andThen fun word rest =>
    match arrow? rest with
    | some body => (pattern depth body).andThen fun p left => .ok ((word, p), left)
    | none => .error (.fault ⟨.expectedArrow word, place⟩)

def definition? (depth : Nat) (place : List Char) : Option (Reading (String × Pattern)) :=
  if place = [] then none else some (definition depth place)

/-- Reads a text that is a pattern. -/
def wholePattern (text : List Char) : Reading Pattern :=
  (pattern (text.length + 1) (skipBlanks false text)).andThen fun p rest =>
    match rest with
    | [] => .ok (p, [])
    | c :: after => .error (.fault ⟨.unexpected c, c :: after⟩)

/-- Reads a text that is a grammar. -/
def wholeGrammar (text : List Char) : Reading Grammar :=
  (many (definition? (text.length + 1)) (skipBlanks false text)).andThen fun rules rest =>
    match rules with
    | [] => .error (.fault ⟨.expectedDefinition, rest⟩)
    | (root, body) :: others => .ok (⟨root, (root, body) :: others⟩, rest)

end Descent

/-! ## Moving on -/

/-- At least `n` characters are taken and an end of the place is left, or the objection is to an end
of the place or to a descriptor. In any case the reading is not stuck. -/
inductive Takes {α : Type} (n : Nat) (place : List Char) : Reading α → Prop
  | read {a : α} {rest : List Char} (h : rest <:+ place) (hn : rest.length + n ≤ place.length) :
    Takes n place (.ok (a, rest))
  | fault {f : Fault} (h : f.place <:+ place) : Takes n place (.error (.fault f))
  | event (descriptor : String) : Takes n place (.error (.event (.invalidKey descriptor)))

namespace Takes

variable {m n : Nat} {place rest : List Char} {x : Reading α}

theorem andThen {next : α → List Char → Reading β} (h : Takes m place x)
    (hnext : ∀ a rest, rest <:+ place → rest.length + m ≤ place.length →
      Takes n place (next a rest)) : Takes n place (x.andThen next) := by
  cases h with
  | read h hm => exact hnext _ _ h hm
  | fault h => exact .fault h
  | event descriptor => exact .event descriptor

theorem map (h : Takes n place x) (f : α → β) :
    Takes n place (x.map fun (a, rest) => (f a, rest)) := by
  cases h with
  | read h hn => exact .read h hn
  | fault h => exact .fault h
  | event descriptor => exact .event descriptor

theorem length_add_le (h : Takes n place x) {a : α} (hx : x = .ok (a, rest)) :
    rest.length + n ≤ place.length := by
  subst hx
  cases h with
  | read _ hn => exact hn

/-- A reading that begins further on. -/
theorem later (h : Takes m rest x) (hs : rest <:+ place)
    (hn : rest.length + n ≤ place.length + m) : Takes n place x := by
  cases h with
  | read h hm => exact .read (h.trans hs) (by omega)
  | fault h => exact .fault (h.trans hs)
  | event descriptor => exact .event descriptor

/-- The blanks behind the first character are passed over. -/
theorem skip {c : Char} (h : Takes 0 (skipBlanks false rest) x) : Takes 1 (c :: rest) x := by
  have hle := length_skipBlanks_le false rest
  refine h.later ((suffix_skipBlanks false rest).trans (List.suffix_cons c rest)) ?_
  rw [List.length_cons]
  omega

theorem read_skip {a : α} (h : rest <:+ place) (hn : rest.length + n ≤ place.length) :
    Takes n place (.ok (a, skipBlanks false rest)) := by
  have hle := length_skipBlanks_le false rest
  exact .read ((suffix_skipBlanks false rest).trans h) (by omega)

end Takes

namespace Descent

variable {place rest : List Char} {n : Nat}

theorem takes_behind {x : Except Fault (α × List Char)} (h : Ends place x)
    (hn : ∀ a rest, x = .ok (a, rest) → rest.length + n ≤ place.length) :
    Takes n place (behind x) := by
  cases h with
  | read h => exact .read_skip h (hn _ _ rfl)
  | fault h => exact .fault h

theorem takes_literal (quote : Char) (rest : List Char) :
    Takes 1 (quote :: rest) (literal quote rest) :=
  takes_behind (ends_readQuoted quote rest) fun _ _ h =>
    Nat.succ_le_succ (length_readQuoted_le h)

theorem takes_set (rest : List Char) : Takes 1 ('[' :: rest) (set rest) :=
  takes_behind (ends_readClass rest) fun _ _ h => Nat.succ_le_succ (length_readClass_le h)

theorem takes_name (place : List Char) : Takes 1 place (name place) := by
  unfold name
  split
  · exact .fault (List.suffix_refl _)
  · next c rest =>
    split
    · have hdrop := List.dropWhile_suffix isNameChar (l := rest)
      exact .read_skip (hdrop.trans (List.suffix_cons c rest)) (Nat.succ_le_succ hdrop.length_le)
    · exact .fault (List.suffix_refl _)

/-- A name is what stands from the place up to where it ends. -/
theorem exists_of_name {word : String} (h : name place = .ok (word, rest)) :
    ∃ letters after, place = letters ++ after ∧ word = String.ofList letters
      ∧ rest = skipBlanks false after := by
  unfold name at h
  split at h
  · cases h
  · next c more =>
    split at h
    · cases h
      refine ⟨c :: more.takeWhile isNameChar, more.dropWhile isNameChar, ?_, rfl, rfl⟩
      rw [List.cons_append, List.takeWhile_append_dropWhile]
    · cases h

theorem exists_of_sign {c : Char} (h : sign? c place = some rest) :
    ∃ after, place = c :: after ∧ rest = skipBlanks false after := by
  unfold sign? at h
  split at h
  · cases h
  · next d after =>
    split at h
    · next hd =>
      cases h
      exact ⟨after, by rw [hd], rfl⟩
    · cases h

theorem takes_sign {c : Char} (h : sign? c place = some rest) :
    rest <:+ place ∧ rest.length + 1 ≤ place.length := by
  obtain ⟨after, rfl, rfl⟩ := exists_of_sign h
  exact ⟨(suffix_skipBlanks false after).trans (List.suffix_cons c after),
    Nat.succ_le_succ (length_skipBlanks_le false after)⟩

theorem exists_of_arrow (h : arrow? place = some rest) :
    ∃ after, place = '<' :: '-' :: after ∧ rest = skipBlanks false after := by
  unfold arrow? at h
  split at h
  · next after =>
    cases h
    exact ⟨after, rfl, rfl⟩
  · cases h

theorem takes_arrow (h : arrow? place = some rest) :
    rest <:+ place ∧ rest.length + 2 ≤ place.length := by
  obtain ⟨after, rfl, rfl⟩ := exists_of_arrow h
  have hsuffix : after <:+ '<' :: '-' :: after := List.suffix_append ['<', '-'] after
  have hle := length_skipBlanks_le false after
  exact ⟨(suffix_skipBlanks false after).trans hsuffix, by simp only [List.length_cons]; omega⟩

theorem takes_closing (c : Char) (place : List Char) : Takes 1 place (closing c place) := by
  unfold closing
  split
  · next h =>
    obtain ⟨hs, hn⟩ := takes_sign h
    exact .read hs hn
  · exact .fault (List.suffix_refl _)

theorem takes_template (place : List Char) : Takes 1 place (template place) := by
  unfold template
  split
  · exact takes_literal _ _
  · exact takes_literal _ _
  · exact .fault (List.suffix_refl _)

/-- An event is refused for its descriptor only. -/
theorem eq_invalidKey_of_parseEvent {codec : Codec} {text : String} {e : Error}
    (h : Pattern.parseEvent codec text = .error e) : e = .invalidKey text := by
  unfold Pattern.parseEvent Matcher.parse at h
  split at h
  · cases h
  · split at h
    · cases h
    · unfold KeyPress.parse at h
      split at h
      · cases h
      · cases h
        rfl

theorem takes_event (quote : Char) (rest : List Char) :
    Takes 1 (quote :: rest) (event quote rest) := by
  refine (takes_literal quote rest).andThen fun text left hs hn => ?_
  split
  · exact .read hs hn
  · next e he =>
    obtain rfl := eq_invalidKey_of_parseEvent he
    exact .event text

theorem takes_mark {x : Reading Mark} (h : mark? place = some x) : Takes 1 place x := by
  unfold mark? at h
  split at h
  · cases h
    exact .read_skip (List.suffix_cons _ _) (Nat.le_refl _)
  · cases h
    exact .read_skip (List.suffix_cons _ _) (Nat.le_refl _)
  · cases h
    exact .read_skip (List.suffix_cons _ _) (Nat.le_refl _)
  · cases h

/-- A reader of many things does not get stuck if each of them takes a character. -/
theorem takes_many {next : List Char → Option (Reading α)} (place : List Char)
    (h : ∀ p x, p.length ≤ place.length → next p = some x → Takes 1 p x) :
    Takes 0 place (many next place) := by
  fun_induction many next place with
  | case1 place hnext => exact .read (List.suffix_refl _) (Nat.le_refl _)
  | case2 place e hnext =>
    cases h _ _ (Nat.le_refl _) hnext with
    | fault h => exact .fault h
    | event descriptor => exact .event descriptor
  | case3 place a rest hnext hlt ih =>
    cases h _ _ (Nat.le_refl _) hnext with
    | read hs hn =>
      have hrest := ih fun p x hp => h p x (by omega)
      exact (hrest.later hs (by omega)).map (a :: ·)
  | case4 place a rest hnext hlt =>
    exact absurd ((h _ _ (Nat.le_refl _) hnext).length_add_le rfl) hlt

/-! ## Rules that take a character -/

section Rules

/-! What stands in brackets is read from further on. -/

variable {inner : List Char → Reading Pattern}
  (h : ∀ p : List Char, p.length < place.length → Takes 0 p (inner p))
include h

theorem takes_item : Takes 1 place (item inner place) := by
  have hinner : ∀ {c : Char} {rest : List Char}, place = c :: rest →
      Takes 1 (c :: rest) (inner (skipBlanks false rest)) := by
    rintro c rest rfl
    exact .skip (h _ (Nat.lt_succ_of_le (length_skipBlanks_le false rest)))
  unfold item
  split
  · exact .fault (List.suffix_refl _)
  · next rest =>
    refine (hinner rfl).andThen fun p left hs hn => ?_
    refine ((takes_closing ')' left).andThen fun _ left' hs' hn' => ?_).later (m := 0) hs
      (by omega)
    exact .read hs' (by omega)
  · next rest =>
    refine (hinner rfl).andThen fun p left hs hn => ?_
    refine ((takes_closing '\x7d' left).andThen fun _ left' hs' hn' => ?_).later (m := 0) hs
      (by omega)
    refine ((takes_template left').andThen fun t left'' hs'' hn'' => ?_).later (m := 0) hs'
      (by omega)
    exact .read hs'' (by omega)
  · next rest => exact (takes_set rest).andThen fun s left hs hn => .read hs hn
  · next rest => exact .read_skip (List.suffix_cons _ _) (Nat.le_refl _)
  · exact takes_event _ _
  · exact takes_event _ _
  · split
    · exact (takes_name _).andThen fun word left hs hn => .read hs hn
    · exact .fault (List.suffix_refl _)

theorem takes_marked : Takes 1 place (marked inner place) := by
  refine (takes_item h).andThen fun p rest hs hn => ?_
  have hmarks : Takes 0 rest (many mark? rest) := takes_many rest fun _ _ _ => takes_mark
  refine (hmarks.andThen fun ms left hs' hn' => ?_).later (m := 0) hs (by omega)
  exact .read hs' (by omega)

theorem takes_marked? {x : Reading Pattern} (hx : marked? inner place = some x) :
    Takes 1 place x := by
  unfold marked? at hx
  split at hx
  · cases hx
    exact takes_marked h
  · cases hx

theorem takes_sequence : Takes 0 place (sequence inner place) := by
  have hitems : Takes 0 place (many (marked? inner) place) :=
    takes_many place fun p _ hp => takes_marked? fun q hq => h q (by omega)
  refine hitems.andThen fun ps rest hs hn => ?_
  split
  · exact .read hs hn
  · exact .fault hs

theorem takes_alternative? {x : Reading Pattern} (hx : alternative? inner place = some x) :
    Takes 1 place x := by
  obtain ⟨left, hleft, rfl⟩ := Option.map_eq_some_iff.mp hx
  obtain ⟨hs, hn⟩ := takes_sign hleft
  exact (takes_sequence fun q hq => h q (by omega)).later hs (by omega)

theorem takes_alternatives : Takes 0 place (alternatives inner place) := by
  refine (takes_sequence h).andThen fun p rest hs hn => ?_
  have hmore : Takes 0 rest (many (alternative? inner) rest) :=
    takes_many rest fun p _ hp => takes_alternative? fun q hq => h q (by omega)
  refine (hmore.later hs (by omega)).andThen fun ps left hs' hn' => ?_
  split
  · exact .read hs' hn'
  · exact .fault hs'

end Rules

theorem takes_pattern {depth : Nat} {place : List Char} (h : place.length < depth) :
    Takes 0 place (pattern depth place) := by
  induction depth generalizing place with
  | zero => exact absurd h (Nat.not_lt_zero _)
  | succ depth ih => exact takes_alternatives fun p hp => ih (by omega)

theorem takes_definition {depth : Nat} {place : List Char} (h : place.length ≤ depth) :
    Takes 1 place (definition depth place) := by
  refine (takes_name place).andThen fun word rest hs hn => ?_
  split
  · next body harrow =>
    obtain ⟨hs', hn'⟩ := takes_arrow harrow
    have hbody : Takes 0 body (pattern depth body) := takes_pattern (by omega)
    refine (hbody.later (n := 1) (hs'.trans hs) (by omega)).andThen fun p left hs hn => ?_
    exact .read hs hn
  · exact .fault (List.suffix_refl _)

theorem definition?_eq_some {depth : Nat} {x : Reading (String × Pattern)}
    (h : definition? depth place = some x) :
    ∃ c rest, place = c :: rest ∧ definition depth place = x := by
  unfold definition? at h
  split at h
  · cases h
  · next hne =>
    obtain ⟨c, rest, rfl⟩ := List.exists_cons_of_ne_nil hne
    exact ⟨c, rest, rfl, Option.some.inj h⟩

theorem takes_definition? {depth : Nat} {x : Reading (String × Pattern)}
    (h : place.length ≤ depth) (hx : definition? depth place = some x) : Takes 1 place x := by
  obtain ⟨c, rest, -, rfl⟩ := definition?_eq_some hx
  exact takes_definition h

theorem takes_wholePattern (text : List Char) : Takes 0 text (wholePattern text) := by
  have hle := length_skipBlanks_le false text
  have hpattern : Takes 0 (skipBlanks false text)
      (pattern (text.length + 1) (skipBlanks false text)) := takes_pattern (by omega)
  have hread := hpattern.later (n := 0) (suffix_skipBlanks false text) (by omega)
  refine hread.andThen fun p rest hs hn => ?_
  split
  · exact .read hs hn
  · exact .fault hs

theorem takes_wholeGrammar (text : List Char) : Takes 0 text (wholeGrammar text) := by
  have hle := length_skipBlanks_le false text
  have hrules : Takes 0 (skipBlanks false text)
      (many (definition? (text.length + 1)) (skipBlanks false text)) :=
    takes_many _ fun p _ hp => takes_definition? (by omega)
  have hread := hrules.later (n := 0) (suffix_skipBlanks false text) (by omega)
  refine hread.andThen fun rules rest hs hn => ?_
  split
  · exact .fault hs
  · exact .read hs hn

end Descent

end Keymap.Notation
