-- Programs: the instructions that a pattern is compiled to.
import Keymap.Matcher

namespace Keymap

/-- An instruction. Jumps and splits are relative to its own address. -/
inductive Inst where
  /-- Consumes the next event if the matcher accepts it. -/
  | consume (m : Matcher)
  | jump (offset : Int)
  /-- Goes on at the first offset, and a fork at the second. -/
  | split (first second : Int)
  /-- Opens a capture. -/
  | capStart
  /-- Closes the innermost capture. -/
  | capEnd (template : String)
  /-- Completes the match. -/
  | done
  /-- Goes to an address, and remembers the next one. -/
  | call (address : Nat)
  /-- Goes back to the address remembered last. -/
  | ret
deriving DecidableEq

/-- A program, from address zero on. -/
structure Program where
  insts : Array Inst := #[]
deriving DecidableEq

namespace Program

def ofList (insts : List Inst) : Program := ⟨insts.toArray⟩

def toList (p : Program) : List Inst := p.insts.toList

def size (p : Program) : Nat := p.insts.size

/-- The instruction at an address. -/
def get? (p : Program) (address : Nat) : Option Inst := p.insts[address]?

@[simp] theorem toList_ofList (insts : List Inst) : (ofList insts).toList = insts := rfl

@[simp] theorem size_ofList (insts : List Inst) : (ofList insts).size = insts.length := rfl

@[simp] theorem get?_ofList (insts : List Inst) (address : Nat) :
    (ofList insts).get? address = insts[address]? := by
  simp [ofList, get?]

end Program

/-! ## Listings -/

/-- An instruction as text. -/
def Inst.toText : Inst → String
  | .consume m => "consume " ++ m.toText
  | .jump offset => "jump " ++ toString offset
  | .split first second => "split " ++ toString first ++ ", " ++ toString second
  | .capStart => "cap start"
  | .capEnd template => "cap end '" ++ template ++ "'"
  | .done => "end"
  | .call address => "call " ++ toString address
  | .ret => "ret"

/-- An address with spaces before it, at least four characters wide. -/
def addressText (address : Nat) : String :=
  String.ofList ((Nat.toDigits 10 address).leftpad 4 ' ')

/-- The line of an instruction, with its address in front. -/
def listingLine : Inst × Nat → String
  | (i, address) => addressText address ++ ": " ++ i.toText ++ "\n"

/-- One line for each instruction. -/
def Program.listing (p : Program) : String := String.join (p.toList.zipIdx.map listingLine)

end Keymap
