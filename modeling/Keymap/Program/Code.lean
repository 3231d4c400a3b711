-- How patterns and grammars become programs. What is written for a pattern is its code,
-- which is put together from the codes of its parts, and fits at any address.
import Keymap.Program.Emission

namespace Keymap

/-! ## Codes put together -/

/-- Either code: a split, the first code, a jump over the second, the second. -/
def altCode (a b : List Slot) : List Slot :=
  .inst (.split 1 (a.length + 2)) :: a ++ .inst (.jump (b.length + 1)) :: b

/-- Any number of times: a split to the code or past it, and a jump back. -/
def starCode (p : List Slot) : List Slot :=
  .inst (.split 1 (p.length + 2)) :: p ++ [.inst (.jump (-(p.length + 1 : Int)))]

/-- Once or more: the code, and a split back to it. -/
def plusCode (p : List Slot) : List Slot := p ++ [.inst (.split (-(p.length : Int)) 1)]

/-- Once or not at all: a split to the code or past it. -/
def optCode (p : List Slot) : List Slot := .inst (.split 1 (p.length + 1)) :: p

/-- The code of a pattern. -/
def Pattern.code : Pattern → List Slot
  | .event m => [.inst (.consume m)]
  | .seq a b => a.code ++ b.code
  | .alt a b => altCode a.code b.code
  | .star p => starCode p.code
  | .plus p => plusCode p.code
  | .opt p => optCode p.code
  | .capture p template => .inst .capStart :: p.code ++ [.inst (.capEnd template)]
  | .done => [.inst .done]
  | .rule name => [.callRule name]

namespace Pattern

theorem code_event (m : Matcher) : (event m).code = [.inst (.consume m)] := rfl

theorem code_seq (a b : Pattern) : (seq a b).code = a.code ++ b.code := rfl

theorem code_alt (a b : Pattern) :
    (alt a b).code = .inst (.split 1 (a.code.length + 2)) :: a.code
      ++ .inst (.jump (b.code.length + 1)) :: b.code := rfl

theorem code_star (p : Pattern) :
    (star p).code = .inst (.split 1 (p.code.length + 2)) :: p.code
      ++ [.inst (.jump (-(p.code.length + 1 : Int)))] := rfl

theorem code_plus (p : Pattern) :
    (plus p).code = p.code ++ [.inst (.split (-(p.code.length : Int)) 1)] := rfl

theorem code_opt (p : Pattern) :
    (opt p).code = .inst (.split 1 (p.code.length + 1)) :: p.code := rfl

theorem code_capture (p : Pattern) (template : String) :
    (capture p template).code = .inst .capStart :: p.code ++ [.inst (.capEnd template)] := rfl

theorem code_done : done.code = [.inst .done] := rfl

theorem code_rule (name : String) : (rule name).code = [.callRule name] := rfl

end Pattern

/-! ## Rules -/

/-- The code of a rule: its body, and back. -/
def ruleCode (body : Pattern) : List Slot := body.code ++ [.inst .ret]

/-- The code of a grammar: a call of the root, the end, and the rules. -/
def Grammar.code (g : Grammar) : List Slot :=
  .callRule g.root :: .inst .done :: g.rules.flatMap fun (_, body) => ruleCode body

/-- The address of each rule, when the first one is at `address`. -/
def addressesFrom (address : Nat) : List (String × Pattern) → List (String × Nat)
  | [] => []
  | (name, body) :: rest =>
    (name, address) :: addressesFrom (address + (ruleCode body).length) rest

/-- The address of each rule. The call of the root and the end are before
them. -/
def Grammar.addresses (g : Grammar) : List (String × Nat) := addressesFrom 2 g.rules

/-! ## Linking -/

/-- The first name that stands in the list, or in `seen`, before. -/
def firstRepeated (seen : List String) : List String → Option String
  | [] => none
  | n :: ns => if n ∈ seen then some n else firstRepeated (n :: seen) ns

/-- Turns the calls of rules into calls of addresses. -/
def link (addresses : List (String × Nat)) : List Slot → Except Error (List Inst)
  | [] => .ok []
  | .inst i :: rest => (link addresses rest).map (i :: ·)
  | .callRule name :: rest =>
    match addresses.lookup name with
    | none => .error (.unknownRule name)
    | some address => (link addresses rest).map (.call address :: ·)

/-! ## What is written -/

theorem offset_eq {source destination n : Nat} (h : destination = source + n) :
    offset source destination = n := by
  unfold offset
  omega

/-- What is written for a pattern is its code, wherever it begins. -/
theorem Pattern.toList_emit (p : Pattern) (cells : Cells) :
    (p.emit cells).toList = cells.toList ++ p.code.map some := by
  induction p generalizing cells with
  | event m => simp [emit, code_event]
  | seq a b iha ihb => simp [emit, code_seq, iha, ihb]
  | alt a b iha ihb =>
    have ha := iha cells.leaveHole
    have hb : (b.emit (a.emit cells.leaveHole).leaveHole).toList = cells.toList
        ++ none :: (a.code.map some ++ none :: b.code.map some) := by
      simp [ihb, ha]
    have hjump := Cells.size_eq ha
    have hstop := Cells.size_eq hb
    simp at hjump hstop
    have hsplit : offset cells.size ((a.emit cells.leaveHole).size + 1)
        = (a.code.length + 2 : Nat) := offset_eq (by omega)
    have hover : offset (a.emit cells.leaveHole).size
        (b.emit (a.emit cells.leaveHole).leaveHole).size = (b.code.length + 1 : Nat) :=
      offset_eq (by omega)
    have hfirst := Cells.toList_fill hb Array.length_toList (.split 1 (a.code.length + 2 : Nat))
    rw [← List.cons_append, ← List.append_assoc] at hfirst
    simp only [emit, hsplit, hover]
    rw [Cells.toList_fill hfirst (by simp; omega)]
    simp [code_alt]
  | star p ih =>
    have hp := ih cells.leaveHole
    have hjump := Cells.size_eq hp
    simp at hjump
    have hback : offset (p.emit cells.leaveHole).size cells.size = -(p.code.length + 1 : Int) := by
      unfold offset
      omega
    have hpast : offset cells.size ((p.emit cells.leaveHole).size + 1)
        = (p.code.length + 2 : Nat) := offset_eq (by omega)
    have hbody : ((p.emit cells.leaveHole).write
          (.inst (.jump (-(p.code.length + 1 : Int))))).toList
        = cells.toList ++ none :: (p.code.map some
          ++ [some (.inst (.jump (-(p.code.length + 1 : Int))))]) := by
      simp [hp]
    simp only [emit, hback, hpast]
    rw [Cells.toList_fill hbody Array.length_toList]
    simp [code_star]
  | plus p ih =>
    have hend := Cells.size_eq (ih cells)
    simp at hend
    have hback : offset (p.emit cells).size cells.size = -(p.code.length : Int) := by
      unfold offset
      omega
    simp [emit, code_plus, ih, hback]
  | opt p ih =>
    have hp : (p.emit cells.leaveHole).toList = cells.toList ++ none :: p.code.map some := by
      simp [ih]
    have hend := Cells.size_eq hp
    simp at hend
    have hpast : offset cells.size (p.emit cells.leaveHole).size = (p.code.length + 1 : Nat) :=
      offset_eq (by omega)
    simp only [emit, hpast]
    rw [Cells.toList_fill hp Array.length_toList]
    simp [code_opt]
  | capture p template ih => simp [emit, code_capture, ih]
  | done => simp [emit, code_done]
  | rule name => simp [emit, code_rule]

theorem toList_emit_rule (body : Pattern) (cells : Cells) :
    ((body.emit cells).write (.inst .ret)).toList = cells.toList ++ (ruleCode body).map some := by
  simp [Pattern.toList_emit, ruleCode]

/-- The names that have an address, when one more has been noted. -/
theorem isSome_lookup_concat {addresses : List (String × Nat)} {seen : List String}
    (hs : ∀ n, n ∈ seen ↔ (addresses.lookup n).isSome) (name : String) (address : Nat)
    (n : String) : n ∈ name :: seen ↔ ((addresses ++ [(name, address)]).lookup n).isSome := by
  rw [List.lookup_append, Option.isSome_or, List.mem_cons, hs]
  by_cases hn : n = name
  · simp [hn]
  · have hne : (n == name) = false := beq_eq_false_iff_ne.mpr hn
    simp [hn, List.lookup_cons, hne]

/-- A name that is repeated keeps the rules from being written. -/
theorem emitRules_eq_error {addresses : List (String × Nat)} {cells : Cells} {seen : List String}
    (hs : ∀ n, n ∈ seen ↔ (addresses.lookup n).isSome) {rules : List (String × Pattern)}
    {name : String} (h : firstRepeated seen (rules.map Prod.fst) = some name) :
    emitRules addresses cells rules = .error (.duplicateRule name) := by
  induction rules generalizing addresses cells seen with
  | nil => simp [firstRepeated] at h
  | cons rule rest ih =>
    obtain ⟨first, body⟩ := rule
    simp only [List.map_cons, firstRepeated] at h
    simp only [emitRules, ← hs]
    split at h
    · next hm =>
      rw [if_pos hm]
      simp_all
    · next hm =>
      rw [if_neg hm]
      exact ih (isSome_lookup_concat hs first cells.size) h

/-- The rules are written as their codes, and begin where their addresses say. -/
theorem exists_emitRules {addresses : List (String × Nat)} {cells : Cells} {seen : List String}
    (hs : ∀ n, n ∈ seen ↔ (addresses.lookup n).isSome) {rules : List (String × Pattern)}
    (h : firstRepeated seen (rules.map Prod.fst) = none) :
    ∃ left, emitRules addresses cells rules
        = .ok (addresses ++ addressesFrom cells.size rules, left)
      ∧ left.toList = cells.toList ++ (rules.flatMap fun (_, body) => ruleCode body).map some := by
  induction rules generalizing addresses cells seen with
  | nil => exact ⟨cells, by simp [emitRules, addressesFrom]⟩
  | cons rule rest ih =>
    obtain ⟨first, body⟩ := rule
    simp only [List.map_cons, firstRepeated] at h
    simp only [emitRules, ← hs]
    split at h
    · simp at h
    · next hm =>
      rw [if_neg hm]
      have hcode := toList_emit_rule body cells
      obtain ⟨left, hleft, hcells⟩ := @ih _ ((body.emit cells).write (.inst .ret)) _
        (isSome_lookup_concat hs first cells.size) h
      have hsize := Cells.size_eq hcode
      simp only [List.length_append, Array.length_toList, List.length_map] at hsize
      refine ⟨left, ?_, ?_⟩
      · rw [hleft, hsize]
        simp [addressesFrom]
      · rw [hcells, hcode]
        simp

/-- A grammar whose names are all different is written as its code, with the addresses
of its rules. -/
theorem Grammar.exists_emit {g : Grammar} (h : firstRepeated [] (g.rules.map Prod.fst) = none) :
    ∃ cells, g.emit = .ok (g.addresses, cells) ∧ cells.toList = g.code.map some :=
  exists_emitRules (by simp) h

theorem Grammar.filled_of_emit {g : Grammar} {addresses : List (String × Nat)} {cells : Cells}
    (h : g.emit = .ok (addresses, cells)) : cells.Filled := by
  cases hr : firstRepeated [] (g.rules.map Prod.fst) with
  | some name =>
    have he : g.emit = .error (.duplicateRule name) := emitRules_eq_error (by simp) hr
    simp [he] at h
  | none =>
    obtain ⟨cells', he, hc⟩ := Grammar.exists_emit hr
    obtain ⟨-, rfl⟩ : g.addresses = addresses ∧ cells' = cells := by simpa [he] using h
    exact Cells.filled_of_toList_eq hc

/-! ## Programs -/

theorem Pattern.filled_emit (p : Pattern) : (p.emit #[]).Filled :=
  Cells.filled_of_toList_eq (p.toList_emit #[])

/-- The program of a pattern that refers to no rule. -/
def Pattern.compile (p : Pattern) : Except Error Program :=
  (link [] ((p.emit #[]).slots p.filled_emit)).map .ofList

theorem Pattern.compile_eq (p : Pattern) : p.compile = (link [] p.code).map .ofList := by
  rw [compile, Cells.slots_eq (p.toList_emit #[])]

/-- The program of a grammar. It starts with the root rule. -/
def Grammar.compile (g : Grammar) : Except Error Program :=
  match h : g.emit with
  | .error e => .error e
  | .ok (addresses, cells) =>
    (link addresses (cells.slots (Grammar.filled_of_emit h))).map .ofList

theorem Grammar.compile_eq (g : Grammar) :
    g.compile =
      match firstRepeated [] (g.rules.map Prod.fst) with
      | some name => .error (.duplicateRule name)
      | none => (link g.addresses g.code).map .ofList := by
  unfold Grammar.compile
  cases hr : firstRepeated [] (g.rules.map Prod.fst) with
  | some name =>
    have he : g.emit = .error (.duplicateRule name) := emitRules_eq_error (by simp) hr
    split <;> simp_all
  | none =>
    obtain ⟨cells, he, hc⟩ := Grammar.exists_emit hr
    split
    · simp_all
    · next addresses cells' he' =>
      obtain ⟨rfl, rfl⟩ : g.addresses = addresses ∧ cells = cells' := by simpa [he] using he'
      rw [Cells.slots_eq hc]

end Keymap
