-- What a compiled program is: the code of its pattern, put together from the codes of the
-- parts, with the address of a rule in the place of its name.
import Keymap.Proofs.Layout
import Keymap.Proofs.Parts
import Mathlib.Data.List.Forall2

namespace Keymap

/-! ## Linking -/

/-- What a slot becomes in a program whose rules begin where `starts` says. -/
inductive Links (starts : String → Nat → Prop) : Slot → Inst → Prop
  | inst (i : Inst) : Links starts (.inst i) i
  | call {name : String} {address : Nat} (h : starts name address) :
    Links starts (.callRule name) (.call address)

theorem map_eq_ok_iff {α β : Type} {f : α → β} {x : Except Error α} {b : β} :
    x.map f = .ok b ↔ ∃ a, x = .ok a ∧ f a = b := by
  cases x with
  | error e => simp [Except.map]
  | ok a => simp [Except.map]

theorem link_eq_ok_iff {addresses : List (String × Nat)} {code : List Slot} {insts : List Inst} :
    link addresses code = .ok insts
      ↔ List.Forall₂ (Links fun name address => addresses.lookup name = some address)
          code insts := by
  induction code generalizing insts with
  | nil =>
    rw [List.forall₂_nil_left_iff, link, Except.ok.injEq]
    exact eq_comm
  | cons s rest ih =>
    rw [List.forall₂_cons_left_iff]
    cases s with
    | inst i =>
      simp only [link, map_eq_ok_iff, ih]
      constructor
      · rintro ⟨insts', hl, rfl⟩
        exact ⟨i, insts', .inst i, hl, rfl⟩
      · rintro ⟨_, insts', hs, hl, rfl⟩
        cases hs with
        | inst => exact ⟨insts', hl, rfl⟩
    | callRule name =>
      simp only [link]
      constructor
      · intro h
        split at h
        · simp at h
        · next address ha =>
          obtain ⟨insts', hl, rfl⟩ := map_eq_ok_iff.mp h
          exact ⟨.call address, insts', .call ha, ih.mp hl, rfl⟩
      · rintro ⟨_, insts', hs, hl, rfl⟩
        cases hs with
        | call ha =>
          rw [ha]
          exact map_eq_ok_iff.mpr ⟨insts', ih.mpr hl, rfl⟩

/-- No name is repeated, nor stands in `seen`. -/
theorem firstRepeated_eq_none_iff {seen names : List String} :
    firstRepeated seen names = none ↔ names.Nodup ∧ ∀ n ∈ names, n ∉ seen := by
  refine ⟨nodup_of_firstRepeated, ?_⟩
  induction names generalizing seen with
  | nil => simp [firstRepeated]
  | cons n names ih =>
    rintro ⟨hd, hs⟩
    rw [List.nodup_cons] at hd
    rw [firstRepeated, if_neg (hs n (List.mem_cons_self ..))]
    refine ih ⟨hd.2, ?_⟩
    intro m hm hseen
    rcases List.mem_cons.mp hseen with rfl | hseen
    · exact hd.1 hm
    · exact hs m (List.mem_cons_of_mem _ hm) hseen

/-! ## Where the rules begin -/

/-- The rule begins after the code of the grammar up to it. -/
def Grammar.Starts (g : Grammar) (name : String) (address : Nat) : Prop :=
  ∃ before body after, g.rules = before ++ (name, body) :: after
    ∧ address = ({ g with rules := before } : Grammar).code.length

theorem lookup_addressesFrom_iff {a : Nat} {rules : List (String × Pattern)}
    (hn : (rules.map Prod.fst).Nodup) {name : String} {address : Nat} :
    (addressesFrom a rules).lookup name = some address ↔
      ∃ before body after, rules = before ++ (name, body) :: after
        ∧ address = a + (before.flatMap fun (_, body) => ruleCode body).length := by
  induction rules generalizing a with
  | nil => simp [addressesFrom]
  | cons rule rest ih =>
    obtain ⟨first, body⟩ := rule
    rw [List.map_cons, List.nodup_cons] at hn
    rw [addressesFrom, List.lookup_cons]
    by_cases h : name = first
    · subst h
      simp only [beq_self_eq_true, Option.some.injEq]
      constructor
      · rintro rfl
        exact ⟨[], body, rest, rfl, rfl⟩
      · rintro ⟨before, body', after, hr, rfl⟩
        cases before with
        | nil => rfl
        | cons rule before =>
          -- The name would be that of two rules.
          obtain ⟨rfl, rfl⟩ := List.cons.inj hr
          exact absurd (by simp) hn.1
    · rw [beq_eq_false_iff_ne.mpr h]
      simp only [ih hn.2]
      constructor
      · rintro ⟨before, body', after, rfl, rfl⟩
        refine ⟨(first, body) :: before, body', after, rfl, ?_⟩
        simp [Nat.add_assoc]
      · rintro ⟨before, body', after, hr, rfl⟩
        cases before with
        | nil => simp_all
        | cons rule before =>
          obtain ⟨rfl, rfl⟩ := List.cons.inj hr
          refine ⟨before, body', after, rfl, ?_⟩
          simp [Nat.add_assoc]

theorem Grammar.lookup_addresses_iff {g : Grammar} (hn : (g.rules.map Prod.fst).Nodup)
    (name : String) (address : Nat) :
    g.addresses.lookup name = some address ↔ g.Starts name address := by
  unfold Grammar.addresses Grammar.Starts
  rw [lookup_addressesFrom_iff hn]
  simp only [Grammar.code, List.length_cons, Nat.add_comm 2]

/-! ## Programs -/

theorem map_ofList_eq_ok_iff {x : Except Error (List Inst)} {program : Program} :
    x.map .ofList = .ok program ↔ x = .ok program.toList := by
  rw [map_eq_ok_iff]
  constructor
  · rintro ⟨insts, hx, rfl⟩
    exact hx
  · intro hx
    exact ⟨program.toList, hx, rfl⟩

theorem Pattern.compile_eq_ok_iff {p : Pattern} {program : Program} :
    p.compile = .ok program ↔ p.code = program.toList.map .inst := by
  have hlinks : (Links fun name address => ([] : List (String × Nat)).lookup name = some address)
      = fun s i => s = .inst i := by
    funext s i
    apply propext
    constructor
    · intro h
      cases h with
      | inst => rfl
      | call h => simp at h
    · rintro rfl
      exact .inst i
  rw [compile_eq, map_ofList_eq_ok_iff, link_eq_ok_iff, hlinks, ← List.forall₂_eq_eq_eq,
    List.forall₂_map_right_iff]

theorem Grammar.compile_eq_ok_iff {g : Grammar} {program : Program} :
    g.compile = .ok program ↔ (g.rules.map Prod.fst).Nodup
      ∧ List.Forall₂ (Links g.Starts) g.code program.toList := by
  rw [Grammar.compile_eq]
  cases hr : firstRepeated [] (g.rules.map Prod.fst) with
  | some name =>
    have hn : ¬ (g.rules.map Prod.fst).Nodup := by
      intro hn
      have := firstRepeated_eq_none_iff.mpr ⟨hn, fun n _ => List.not_mem_nil⟩
      simp [hr] at this
    simp [hn]
  | none =>
    have hn := (nodup_of_firstRepeated hr).1
    rw [map_ofList_eq_ok_iff, link_eq_ok_iff]
    simp only [hn, true_and, Grammar.lookup_addresses_iff hn]

/-! ## The code of a program -/

/-- How the code of a pattern is put together from the codes of the patterns that it is
made of. Each jump and split says how far it leads. -/
structure Compositional (code : Pattern → List Slot) : Prop where
  event : ∀ m, code (.event m) = [.inst (.consume m)]
  seq : ∀ a b, code (.seq a b) = code a ++ code b
  alt : ∀ a b, code (.alt a b) = .inst (.split 1 ((code a).length + 2)) :: code a
    ++ .inst (.jump ((code b).length + 1)) :: code b
  star : ∀ p, code (.star p) = .inst (.split 1 ((code p).length + 2)) :: code p
    ++ [.inst (.jump (-(code p).length - 1))]
  plus : ∀ p, code (.plus p) = code p ++ [.inst (.split (-(code p).length) 1)]
  opt : ∀ p, code (.opt p) = .inst (.split 1 ((code p).length + 1)) :: code p
  capture : ∀ p template, code (.capture p template)
    = .inst .capStart :: code p ++ [.inst (.capEnd template)]
  done : code .done = [.inst .done]
  rule : ∀ name, code (.rule name) = [.callRule name]

theorem Pattern.compositional_code : Compositional Pattern.code where
  event := code_event
  seq := code_seq
  alt := code_alt
  star p := by rw [code_star, Int.neg_add, Int.sub_eq_add_neg]
  plus := code_plus
  opt := code_opt
  capture := code_capture
  done := code_done
  rule := code_rule

/-- A jump or a split leads to a place between the beginning and the end of the code of the
part that it belongs to. -/
theorem Pattern.jumps_stay_inside {p : Pattern} {i : Nat} {s : Slot}
    (h : p.code[i]? = some s) :
    ∃ front r back k, p.code = front ++ r.code ++ back ∧ p.Part 0 r front.length
      ∧ r.Owns k ∧ i = front.length + k
      ∧ ∀ offset ∈ s.offsets, (front.length : Int) ≤ i + offset
        ∧ i + offset ≤ front.length + r.code.length := by
  have hlt : i < p.code.length := (List.getElem?_eq_some_iff.mp h).1
  obtain ⟨r, n, k, hr, hk, hi⟩ := exists_owner p 0 hlt
  obtain ⟨front, back, hcode, rfl⟩ := hr.exists_append
  simp only [Nat.zero_add] at hi hr
  subst hi
  have hs : r.code[k]? = some s := by
    rw [hcode, List.append_assoc, List.getElem?_append_right (Nat.le_add_right ..),
      Nat.add_sub_cancel_left, List.getElem?_append_left hk.lt] at h
    exact h
  refine ⟨front, r, back, k, hcode, hr, hk, rfl, ?_⟩
  intro offset ho
  have := hk.offsets hs offset ho
  omega

/-- What is written for a pattern is its code, whatever has been written before it, and no
hole is left. A jump or a split stays inside the code of the part that it belongs to. The
program of a pattern is its code. That of a grammar is a call of the root, the end, and then
the codes of the rules, with the address where a rule begins in the place of its name. -/
theorem a_program_is_put_together_from_parts :
    Compositional Pattern.code
      ∧ (∀ (p : Pattern) (cells : Cells), (p.emit cells).toList = cells.toList ++ p.code.map some)
      ∧ (∀ p : Pattern, (p.emit #[]).Filled)
      ∧ (∀ (g : Grammar) (addresses : List (String × Nat)) (cells : Cells),
        g.emit = .ok (addresses, cells) → cells.Filled)
      ∧ (∀ (p : Pattern) (i : Nat) (s : Slot), p.code[i]? = some s →
        ∃ front r back k, p.code = front ++ r.code ++ back ∧ p.Part 0 r front.length
          ∧ r.Owns k ∧ i = front.length + k
          ∧ ∀ offset ∈ s.offsets, (front.length : Int) ≤ i + offset
            ∧ i + offset ≤ front.length + r.code.length)
      ∧ (∀ (p : Pattern) (program : Program),
        p.compile = .ok program ↔ p.code = program.toList.map .inst)
      ∧ ∀ (g : Grammar) (program : Program),
        g.compile = .ok program ↔ (g.rules.map Prod.fst).Nodup
          ∧ List.Forall₂ (Links g.Starts)
            (.callRule g.root :: .inst .done :: g.rules.flatMap fun (_, body) =>
              body.code ++ [.inst .ret])
            program.toList := by
  refine ⟨Pattern.compositional_code, Pattern.toList_emit, Pattern.filled_emit, ?_, ?_, ?_, ?_⟩
  · intro g addresses cells h
    exact Grammar.filled_of_emit h
  · intro p i s h
    exact Pattern.jumps_stay_inside h
  · intro p program
    exact Pattern.compile_eq_ok_iff
  · intro g program
    exact Grammar.compile_eq_ok_iff

/-- A grammar with one rule: one event, and then any number of others or the end. -/
theorem a_small_program_is_put_together_from_parts :
    let g : Grammar :=
      ⟨"main", [("main", .seq (.event .any) (.alt (.star (.event .any)) .done))]⟩
    (∃ cells, g.emit = .ok ([("main", 2)], cells) ∧ cells.Filled)
      ∧ g.compile = .ok (.ofList [.call 2, .done, .consume .any, .split 1 5, .split 1 3,
        .consume .any, .jump (-2), .jump 2, .done, .ret]) := by
  intro g
  obtain ⟨-, -, -, hfilled, -, -, hgrammar⟩ := a_program_is_put_together_from_parts
  have hemit : ∃ cells, g.emit = .ok ([("main", 2)], cells) := ⟨_, rfl⟩
  obtain ⟨cells, he⟩ := hemit
  refine ⟨⟨cells, he, hfilled g _ cells he⟩, (hgrammar g _).mpr ⟨?_, ?_⟩⟩
  · exact List.nodup_singleton "main"
  · apply List.Forall₂.cons (.call ⟨[], _, [], rfl, rfl⟩)
    repeat apply List.Forall₂.cons (.inst _)
    exact .nil

end Keymap
