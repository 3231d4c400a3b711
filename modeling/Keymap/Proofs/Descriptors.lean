-- The texts that describe a key. The reader of a key takes modifiers on both sides of it, where the
-- writer puts them in front.
import Keymap.Proofs.Spelling
import Mathlib.Data.List.Forall2

namespace Keymap

/-- The modifiers that are held down together. -/
def Modifiers.of (ms : List Modifier) : Modifiers := ms.foldl .add .empty

@[simp] theorem Modifiers.has_of (ms : List Modifier) (m : Modifier) :
    (Modifiers.of ms).has m = decide (m ∈ ms) := by
  have hfold : ∀ mods : Modifiers,
      (ms.foldl .add mods).has m = (decide (m ∈ ms) || mods.has m) := by
    induction ms with
    | nil => simp
    | cons n ms ih =>
      intro mods
      rw [List.foldl_cons, ih, has_add]
      simp [Bool.or_left_comm, Bool.or_assoc]
  rw [Modifiers.of, hfold, has_empty, Bool.or_false]

namespace Descriptor

/-! ## Pieces of a text -/

theorem plus_not_mem_pieces (text : List Char) : ∀ piece ∈ pieces text, '+' ∉ piece := by
  by_cases hplus : '+' ∈ text
  · obtain ⟨before, after, htext, hbefore⟩ := List.eq_append_cons_of_mem hplus
    have hlt : after.length < text.length := by
      rw [htext, List.length_append, List.length_cons]
      omega
    rw [htext, pieces, List.splitOn_append_cons_self_of_not_mem hbefore]
    exact List.forall_mem_cons.mpr ⟨hbefore, plus_not_mem_pieces after⟩
  · rw [pieces, List.splitOn_eq_singleton hplus]
    simpa using hplus
termination_by text.length

theorem eq_of_pieces_eq {text text' : List Char} (h : pieces text = pieces text') :
    text = text' := by
  have hjoin : ∀ t, ['+'].intercalate (pieces t) = t := fun t => List.intercalate_splitOn '+'
  rw [← hjoin text, h, hjoin]

/-- Pieces with a plus behind each. -/
def heads (front : List (List Char)) : List Char := front.flatMap fun piece => piece ++ ['+']

/-- Pieces with a plus before each. -/
def tails (back : List (List Char)) : List Char := back.flatMap fun piece => '+' :: piece

theorem heads_cons (piece : List Char) (rest : List (List Char)) :
    heads (piece :: rest) = piece ++ tails rest ++ ['+'] := by
  induction rest generalizing piece with
  | nil => simp [heads, tails]
  | cons next rest ih =>
    have hheads : heads (piece :: next :: rest) = piece ++ '+' :: heads (next :: rest) := by
      simp [heads]
    have htails : tails (next :: rest) = '+' :: (next ++ tails rest) := rfl
    rw [hheads, ih, htails]
    simp

theorem heads_concat (piece : List Char) (rest : List (List Char)) :
    heads (piece :: rest) ++ ['+'] = piece ++ tails rest ++ ['+', '+'] := by
  rw [heads_cons, List.append_assoc]
  rfl

theorem pieces_tails {piece : List Char} {back : List (List Char)} (hpiece : '+' ∉ piece)
    (hback : ∀ p ∈ back, '+' ∉ p) : pieces (piece ++ tails back) = piece :: back := by
  induction back generalizing piece with
  | nil =>
    rw [tails, List.flatMap_nil, List.append_nil]
    exact List.splitOn_eq_singleton hpiece
  | cons next back ih =>
    obtain ⟨hnext, hback⟩ := List.forall_mem_cons.mp hback
    have htails : tails (next :: back) = '+' :: (next ++ tails back) := rfl
    rw [htails, pieces, List.splitOn_append_cons_self_of_not_mem hpiece]
    exact congrArg _ (ih hnext hback)

theorem pieces_heads {front : List (List Char)} (hfront : ∀ p ∈ front, '+' ∉ p)
    (text : List Char) : pieces (heads front ++ text) = front ++ pieces text := by
  induction front with
  | nil => rfl
  | cons piece front ih =>
    obtain ⟨hpiece, hfront⟩ := List.forall_mem_cons.mp hfront
    have hheads : heads (piece :: front) ++ text = piece ++ '+' :: (heads front ++ text) := by
      simp [heads]
    rw [hheads, pieces, List.splitOn_append_cons_self_of_not_mem hpiece]
    exact congrArg _ (ih hfront)

theorem stripPlusKey_eq_some_iff {text head : List Char} :
    stripPlusKey text = some head ↔ text = head ++ ['+', '+'] := by
  unfold stripPlusKey
  constructor
  · intro h
    split at h
    · next front hreverse =>
      cases h
      rw [← List.reverse_reverse text, hreverse]
      simp
    · cases h
  · rintro rfl
    simp

theorem eq_heads_of_strip {text head : List Char} (h : stripPlusKey text = some head) :
    text = heads (pieces head) ++ ['+'] := by
  cases hpieces : pieces head with
  | nil => exact absurd hpieces (List.splitOn_ne_nil _ _)
  | cons piece rest =>
    have hplus := plus_not_mem_pieces head
    rw [hpieces] at hplus
    obtain ⟨hpiece, hrest⟩ := List.forall_mem_cons.mp hplus
    have hhead : head = piece ++ tails rest :=
      eq_of_pieces_eq (hpieces.trans (pieces_tails hpiece hrest).symm)
    rw [stripPlusKey_eq_some_iff.mp h, heads_concat, hhead]

/-! ## Descriptors -/

/-- The pieces name the modifiers. -/
def Names (ms : List Modifier) (pieces : List (List Char)) : Prop :=
  List.Forall₂ (fun m piece => sameName piece (modifierName m).toList = true) ms pieces

/-- The text describes the key: a piece that spells it, with names of modifiers before and after it.
Only the names before it may go with the plus key, which comes at the end. -/
inductive Describes : List Modifier → KeyCode → List Modifier → List Char → Prop
  | plus {ms : List Modifier} {front : List (List Char)} (hfront : Names ms front) :
    Describes ms (.char '+') [] (heads front ++ ['+'])
  | key {ms ns : List Modifier} {front back : List (List Char)} {code : KeyCode}
    {piece : List Char} (hfront : Names ms front) (hpiece : Spells code piece)
    (hback : Names ns back) : Describes ms code ns (heads front ++ (piece ++ tails back))

theorem Names.plus_not_mem {ms : List Modifier} {names : List (List Char)} (h : Names ms names) :
    ∀ piece ∈ names, '+' ∉ piece := by
  induction h with
  | nil => exact List.forall_mem_nil _
  | cons hname _ ih =>
    exact List.forall_mem_cons.mpr ⟨Descriptor.plus_not_mem (mem_names_of_modifier _) hname, ih⟩

theorem Names.ne_nil {ms : List Modifier} {names : List (List Char)} (h : Names ms names) :
    ∀ piece ∈ names, piece ≠ [] := by
  induction h with
  | nil => exact List.forall_mem_nil _
  | @cons m _ _ _ hname _ ih =>
    refine List.forall_mem_cons.mpr ⟨?_, ih⟩
    rintro rfl
    cases m <;> cases hname

theorem Describes.function_le {ms ns : List Modifier} {n : Nat} {text : List Char}
    (h : Describes ms (.function n) ns text) : 1 ≤ n ∧ n ≤ 64 := by
  cases h with
  | key _ hpiece _ =>
    cases hpiece with
    | function _ hlow hhigh => exact ⟨hlow, hhigh⟩

/-! ## Gathering -/

theorem gather_names {ms : List Modifier} {names : List (List Char)} (h : Names ms names)
    (rest : List (List Char)) (mods : Modifiers) (code : Option KeyCode) :
    gather (names ++ rest) mods code = gather rest (ms.foldl .add mods) code := by
  induction h generalizing mods with
  | nil => rfl
  | cons hname _ ih =>
    simp only [List.cons_append, gather, readModifier_eq_some_iff.mpr hname]
    exact ih _

theorem gather_names_some {ms : List Modifier} {names : List (List Char)} (h : Names ms names)
    (mods : Modifiers) (code : KeyCode) :
    gather names mods (some code) = some ⟨code, ms.foldl .add mods⟩ := by
  have hgather := gather_names h [] mods (some code)
  rwa [List.append_nil] at hgather

theorem gather_key {code : KeyCode} {piece : List Char} (h : Spells code piece)
    (rest : List (List Char)) (mods : Modifiers) :
    gather (piece :: rest) mods none = gather rest mods (some code) := by
  simp only [gather, h.readModifier_eq_none, h.readCode_eq_some]
  rfl

/-- After the key, only modifiers may follow. -/
theorem exists_names_of_gather {ps : List (List Char)} {mods : Modifiers} {code : KeyCode}
    {k : KeyPress} (h : gather ps mods (some code) = some k) :
    ∃ ms, Names ms ps ∧ k = ⟨code, ms.foldl .add mods⟩ := by
  induction ps generalizing mods with
  | nil =>
    cases h
    exact ⟨[], .nil, rfl⟩
  | cons piece rest ih =>
    unfold gather at h
    split at h
    · next m hm =>
      obtain ⟨ms, hms, rfl⟩ := ih h
      exact ⟨m :: ms, .cons (readModifier_eq_some_iff.mp hm) hms, rfl⟩
    · cases h

theorem exists_key_of_gather {ps : List (List Char)} (hplus : ∀ p ∈ ps, '+' ∉ p)
    {mods : Modifiers} {k : KeyPress} (h : gather ps mods none = some k) :
    ∃ ms code ns front piece back, ps = front ++ piece :: back ∧ Names ms front
      ∧ Spells code piece ∧ Names ns back ∧ k = ⟨code, (ms ++ ns).foldl .add mods⟩ := by
  induction ps generalizing mods with
  | nil => cases h
  | cons piece rest ih =>
    obtain ⟨hpiece, hrest⟩ := List.forall_mem_cons.mp hplus
    unfold gather at h
    split at h
    · next m hm =>
      obtain ⟨ms, code, ns, front, piece', back, rfl, hfront, hspells, hback, rfl⟩ := ih hrest h
      exact ⟨m :: ms, code, ns, piece :: front, piece', back, rfl,
        .cons (readModifier_eq_some_iff.mp hm) hfront, hspells, hback, rfl⟩
    · obtain ⟨code, hcode, h⟩ := Option.bind_eq_some_iff.mp h
      obtain ⟨ns, hns, rfl⟩ := exists_names_of_gather h
      exact ⟨[], code, ns, [], piece, rest, rfl, .nil, (readCode_eq_some_iff hpiece).mp hcode, hns,
        rfl⟩

/-! ## Reading a key -/

variable {ms ns : List Modifier} {code : KeyCode} {text : List Char}

theorem pieces_key {front back : List (List Char)} {piece : List Char} (hfront : Names ms front)
    (hpiece : Spells code piece) (hback : Names ns back) :
    pieces (heads front ++ (piece ++ tails back)) = front ++ piece :: back := by
  rw [pieces_heads hfront.plus_not_mem, pieces_tails hpiece.plus_not_mem hback.plus_not_mem]

/-- Only the plus key makes a plus at the end. -/
theorem key_ne_concat {front back : List (List Char)} {piece : List Char} (hfront : Names ms front)
    (hpiece : Spells code piece) (hback : Names ns back) (head : List Char) :
    heads front ++ (piece ++ tails back) ≠ head ++ ['+'] := by
  intro heq
  have hpieces : front ++ piece :: back = pieces head ++ [[]] := by
    rw [← pieces_key hfront hpiece hback, heq]
    exact List.splitOn_append_cons_self head []
  -- Nothing would stand behind the last plus, but the last piece is a key or a name.
  have hlast : (piece :: back).getLast? = some [] := by
    have hgetLast := congrArg List.getLast? hpieces
    rw [List.getLast?_append_of_ne_nil _ (List.cons_ne_nil _ _)] at hgetLast
    rw [hgetLast, List.getLast?_concat]
  rcases List.mem_cons.mp (List.mem_of_getLast? hlast) with hnil | hmem
  · exact hpiece.ne_nil hnil.symm
  · exact hback.ne_nil [] hmem rfl

theorem readPieces_plus {front : List (List Char)} (hfront : Names ms front) :
    readPieces (heads front ++ ['+']) = some ⟨.char '+', .of ms⟩ := by
  cases front with
  | nil =>
    cases hfront
    rfl
  | cons piece rest =>
    obtain ⟨hpiece, hrest⟩ := List.forall_mem_cons.mp hfront.plus_not_mem
    have hstrip := stripPlusKey_eq_some_iff.mpr (heads_concat piece rest)
    have hne : heads (piece :: rest) ++ ['+'] ≠ ['+'] := by
      intro heq
      have hlength := congrArg List.length (heads_concat piece rest)
      rw [heq] at hlength
      simp only [List.length_append, List.length_cons, List.length_nil] at hlength
      omega
    rw [readPieces, if_neg hne, hstrip]
    simp only
    rw [pieces_tails hpiece hrest, gather_names_some hfront]
    rfl

theorem readPieces_key {front back : List (List Char)} {piece : List Char}
    (hfront : Names ms front) (hpiece : Spells code piece) (hback : Names ns back) :
    readPieces (heads front ++ (piece ++ tails back)) = some ⟨code, .of (ms ++ ns)⟩ := by
  have hend := key_ne_concat hfront hpiece hback
  have hstrip : stripPlusKey (heads front ++ (piece ++ tails back)) = none := by
    apply Option.eq_none_iff_forall_ne_some.mpr
    intro head hhead
    apply hend (head ++ ['+'])
    rw [stripPlusKey_eq_some_iff.mp hhead, List.append_assoc]
    rfl
  have hne : heads front ++ (piece ++ tails back) ≠ ['+'] := hend []
  rw [readPieces, if_neg hne, hstrip]
  simp only
  rw [pieces_key hfront hpiece hback, gather_names hfront, gather_key hpiece,
    gather_names_some hback, Modifiers.of, List.foldl_append]

theorem readPieces_of_describes (h : Describes ms code ns text) :
    readPieces text = some ⟨code, .of (ms ++ ns)⟩ := by
  cases h with
  | plus hfront =>
    rw [List.append_nil]
    exact readPieces_plus hfront
  | key hfront hpiece hback => exact readPieces_key hfront hpiece hback

theorem exists_describes_of_readPieces {k : KeyPress} (h : readPieces text = some k) :
    ∃ ms code ns, Describes ms code ns text ∧ k = ⟨code, .of (ms ++ ns)⟩ := by
  unfold readPieces at h
  split at h
  · next htext =>
    cases h
    exact ⟨[], .char '+', [], htext ▸ .plus .nil, rfl⟩
  · split at h
    · next head hhead =>
      obtain ⟨ms, hnames, rfl⟩ := exists_names_of_gather h
      rw [eq_heads_of_strip hhead]
      exact ⟨ms, .char '+', [], .plus hnames, by rw [List.append_nil]; rfl⟩
    · obtain ⟨ms, code, ns, front, piece, back, hpieces, hfront, hpiece, hback, rfl⟩ :=
        exists_key_of_gather (plus_not_mem_pieces text) h
      rw [← pieces_key hfront hpiece hback] at hpieces
      exact ⟨ms, code, ns, eq_of_pieces_eq hpieces ▸ .key hfront hpiece hback, rfl⟩

theorem parse_eq_ok_iff {codec : Codec} {text : String} {k : KeyPress} :
    KeyPress.parse codec text = .ok k
      ↔ ∃ found, readPieces text.toList = some found ∧ k = found.normal codec := by
  unfold KeyPress.parse
  cases readPieces text.toList with
  | none => simp
  | some found => simp [eq_comm]

theorem parse_eq_error_iff {codec : Codec} {text : String} {e : Error} :
    KeyPress.parse codec text = .error e
      ↔ readPieces text.toList = none ∧ e = .invalidKey text := by
  unfold KeyPress.parse
  cases readPieces text.toList with
  | none => simp [eq_comm]
  | some found => simp

/-- A text is read just when it describes a key, with modifiers before it, after it or on both
sides. Then all of them are held down, and the key is the one that stands for it. Any other text is
refused, with the text in the error. -/
theorem a_key_is_read_with_modifiers_on_both_sides (codec : Codec) (text : String) :
    (∀ k, KeyPress.parse codec text = .ok k
        ↔ ∃ ms code ns, Describes ms code ns text.toList
          ∧ k = (KeyPress.mk code (.of (ms ++ ns))).normal codec)
      ∧ ∀ e, KeyPress.parse codec text = .error e
        ↔ e = .invalidKey text ∧ ¬ ∃ ms code ns, Describes ms code ns text.toList := by
  refine ⟨fun k => ?_, fun e => ?_⟩
  · rw [parse_eq_ok_iff]
    constructor
    · rintro ⟨found, hread, rfl⟩
      obtain ⟨ms, code, ns, h, rfl⟩ := exists_describes_of_readPieces hread
      exact ⟨ms, code, ns, h, rfl⟩
    · rintro ⟨ms, code, ns, h, rfl⟩
      exact ⟨_, readPieces_of_describes h, rfl⟩
  · rw [parse_eq_error_iff]
    constructor
    · rintro ⟨hread, rfl⟩
      refine ⟨rfl, ?_⟩
      rintro ⟨ms, code, ns, h⟩
      rw [readPieces_of_describes h] at hread
      cases hread
    · rintro ⟨rfl, hnot⟩
      refine ⟨Option.eq_none_iff_forall_ne_some.mpr ?_, rfl⟩
      intro found hread
      obtain ⟨ms, code, ns, h, -⟩ := exists_describes_of_readPieces hread
      exact hnot ⟨ms, code, ns, h⟩

/-- A key with all its modifiers in front does not end in the name of one. -/
theorem readModifier_getLast (h : Describes ms code [] text) :
    ∀ last ∈ (pieces text).getLast?, readModifier last = none := by
  intro last hlast
  cases h with
  | plus hfront =>
    rw [pieces_heads hfront.plus_not_mem] at hlast
    have hpieces : pieces ['+'] = [[], []] := by decide
    rw [hpieces, List.getLast?_append_of_ne_nil _ (List.cons_ne_nil _ _)] at hlast
    cases hlast
    decide
  | key hfront hpiece hback =>
    cases hback
    rw [pieces_key hfront hpiece .nil, List.getLast?_concat] at hlast
    cases hlast
    exact hpiece.readModifier_eq_none

theorem a_modifier_after_the_key_is_accepted :
    KeyPress.parse {} "a+Ctrl" = .ok ⟨.char 'a', .of [.ctrl]⟩
      ∧ ¬ ∃ ms code, Describes ms code [] "a+Ctrl".toList := by
  refine ⟨by decide +kernel, ?_⟩
  rintro ⟨ms, code, h⟩
  have hlast : (pieces "a+Ctrl".toList).getLast? = some "Ctrl".toList := by decide
  have hnone := readModifier_getLast h _ hlast
  cases hnone

end Descriptor

end Keymap
