-- How patterns and grammars are written down: instruction after instruction. Where one
-- has to know how long a later code is, a hole is left, and filled when that code has
-- been written.
import Keymap.Error
import Keymap.Pattern
import Keymap.Program

namespace Keymap

/-! ## Cells -/

/-- An instruction, or a call of a rule whose address is still to be found. -/
inductive Slot where
  | inst (i : Inst)
  | callRule (name : String)
deriving DecidableEq

/-- What has been written so far. A cell with nothing in it is a hole. -/
abbrev Cells := Array (Option Slot)

namespace Cells

def write (cells : Cells) (s : Slot) : Cells := cells.push (some s)

def leaveHole (cells : Cells) : Cells := cells.push none

/-- Writes an instruction over what is in a cell. It is used for holes only. -/
def fill (cells : Cells) (hole : Nat) (i : Inst) : Cells :=
  cells.setIfInBounds hole (some (.inst i))

/-- No hole is left. -/
def Filled (cells : Cells) : Prop := ∀ c ∈ cells.toList, c.isSome

def slots (cells : Cells) (h : cells.Filled) : List Slot := cells.toList.pmap Option.get h

@[simp] theorem toList_write (cells : Cells) (s : Slot) :
    (cells.write s).toList = cells.toList ++ [some s] := by
  simp [write]

@[simp] theorem toList_leaveHole (cells : Cells) :
    cells.leaveHole.toList = cells.toList ++ [none] := by
  simp [leaveHole]

theorem size_eq {cells : Cells} {l : List (Option Slot)} (h : cells.toList = l) :
    cells.size = l.length := by
  rw [← h, Array.length_toList]

theorem toList_fill {cells : Cells} {front back : List (Option Slot)} {hole : Nat}
    (h : cells.toList = front ++ none :: back) (hl : front.length = hole) (i : Inst) :
    (cells.fill hole i).toList = front ++ some (.inst i) :: back := by
  obtain ⟨l⟩ := cells
  subst h hl
  simp [fill]

theorem filled_of_toList_eq {cells : Cells} {code : List Slot}
    (h : cells.toList = code.map some) : cells.Filled := by
  intro c hc
  rw [h] at hc
  obtain ⟨s, -, rfl⟩ := List.mem_map.mp hc
  rfl

theorem slots_eq {cells : Cells} {code : List Slot} (h : cells.toList = code.map some)
    (hf : cells.Filled) : cells.slots hf = code := by
  unfold slots
  simp only [h, List.pmap_map, Option.get_some, List.pmap_eq_map, List.map_id']

end Cells

/-! ## Patterns -/

/-- How far it is from one address to another. -/
def offset (source destination : Nat) : Int := destination - source

/-- Writes the code of a pattern after what has been written. -/
def Pattern.emit : Pattern → Cells → Cells
  | .event m, cells => cells.write (.inst (.consume m))
  | .seq a b, cells => b.emit (a.emit cells)
  | .alt a b, cells =>
    let split := cells.size
    let first := a.emit cells.leaveHole
    let jump := first.size
    let both := b.emit first.leaveHole
    (both.fill split (.split 1 (offset split (jump + 1)))).fill jump
      (.jump (offset jump both.size))
  | .star p, cells =>
    let split := cells.size
    let body := p.emit cells.leaveHole
    let jump := body.size
    (body.write (.inst (.jump (offset jump split)))).fill split
      (.split 1 (offset split (jump + 1)))
  | .plus p, cells =>
    let entry := cells.size
    let body := p.emit cells
    body.write (.inst (.split (offset body.size entry) 1))
  | .opt p, cells =>
    let split := cells.size
    let body := p.emit cells.leaveHole
    body.fill split (.split 1 (offset split body.size))
  | .capture p template, cells =>
    (p.emit (cells.write (.inst .capStart))).write (.inst (.capEnd template))
  | .done, cells => cells.write (.inst .done)
  | .rule name, cells => cells.write (.callRule name)

/-! ## Grammars -/

/-- Writes the rules one after the other, and notes where each of them begins. -/
def emitRules (addresses : List (String × Nat)) (cells : Cells) :
    List (String × Pattern) → Except Error (List (String × Nat) × Cells)
  | [] => .ok (addresses, cells)
  | (name, body) :: rest =>
    if (addresses.lookup name).isSome then .error (.duplicateRule name)
    else emitRules (addresses ++ [(name, cells.size)]) ((body.emit cells).write (.inst .ret)) rest

/-- Writes a grammar: a call of the root, the end, and the rules. -/
def Grammar.emit (g : Grammar) : Except Error (List (String × Nat) × Cells) :=
  emitRules [] #[some (.callRule g.root), some (.inst .done)] g.rules

end Keymap
