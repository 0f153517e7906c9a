import LogicMachine.Fault
import LogicMachine.Code.Opcode

/-!
# Assembling code

An assembler collects instructions, hands out labels and local slots, and turns
the result into code words.  Labels may be placed before or after the branches
that refer to them.  Branches count from their own code word, so the finished
code runs wherever it is put.
-/

namespace LogicMachine

/-- A place in the code under construction. -/
structure Label where
  index : Nat
  deriving DecidableEq, Inhabited

namespace Label

def render (label : Label) : String :=
  "L" ++ toString label.index

end Label

/-- A slot of an activation record. -/
structure Local where
  index : Nat
  deriving DecidableEq, Inhabited

namespace Local

def render (slot : Local) : String :=
  "local" ++ toString slot.index

end Local

/-- What can be added to the code under construction. -/
inductive Item where
  | plain (opcode : Opcode)
  | operand (opcode : Opcode) (value : UInt32)
  /-- An instruction whose operand is the distance to a label. -/
  | branch (opcode : Opcode) (target : Label)
  /-- Places a label here. -/
  | mark (label : Label)
  deriving DecidableEq

namespace Item

/-- An instruction on a slot of the activation record. -/
def onLocal (opcode : Opcode) (slot : Local) : Item :=
  .operand opcode slot.index.toUInt32

end Item

/-- One word of the code under construction. -/
inductive CodeWord where
  | fixed (word : UInt32)
  /-- The operand of a branch, to be replaced by the distance from the code
  word before it. -/
  | distance (target : Label)
  deriving DecidableEq

structure Assembler where
  words : Array CodeWord
  /-- For each label the position where it was last placed. -/
  marks : Array (Option Nat)
  /-- The number of local slots handed out. -/
  locals : Nat
  deriving Inhabited

namespace Assembler

def empty : Assembler :=
  ⟨#[], #[], 0⟩

/-- The position of the next instruction. -/
def position (assembler : Assembler) : Nat :=
  assembler.words.size

def newLocal (assembler : Assembler) : Local × Assembler :=
  (⟨assembler.locals⟩, { assembler with locals := assembler.locals + 1 })

def newLabel (assembler : Assembler) : Label × Assembler :=
  (⟨assembler.marks.size⟩,
    { assembler with marks := assembler.marks.push none })

def add (assembler : Assembler) (item : Item) : Assembler :=
  match item with
  | .plain opcode =>
      { assembler with words := assembler.words.push (.fixed opcode.encode) }
  | .operand opcode value =>
      { assembler with
        words :=
          (assembler.words.push (.fixed opcode.encode)).push (.fixed value) }
  | .branch opcode target =>
      { assembler with
        words :=
          (assembler.words.push (.fixed opcode.encode)).push
            (.distance target) }
  | .mark label =>
      let position := assembler.position
      { assembler with
        marks := assembler.marks.setIfInBounds label.index (some position) }

def addAll (assembler : Assembler) (items : List Item) : Assembler :=
  items.foldl add assembler

/-- The position of a label. -/
def position? (assembler : Assembler) (label : Label) : Option Nat :=
  (assembler.marks[label.index]?).join

/-- The final form of the word at a position. -/
def resolve (assembler : Assembler) (index : Nat) (word : CodeWord) :
    Except Fault UInt32 :=
  match word with
  | .fixed word => .ok word
  | .distance target =>
      match assembler.position? target with
      | some position => .ok (position.toUInt32 + 1 - index.toUInt32)
      | none => .error (.malformed (.unplacedLabel target.index))

/-- The code words, with every distance filled in. -/
def finish (assembler : Assembler) : Except Fault (List UInt32) := do
  let words ← assembler.words.mapIdxM assembler.resolve
  return words.toList

/-- The code words of a clause: the body between the instructions that set up
its activation record and those that drop it together with the arguments. -/
def clause (assembler : Assembler) (arity : Nat) :
    Except Fault (List UInt32) := do
  let body ← assembler.finish
  return [Opcode.allocate.encode, assembler.locals.toUInt32] ++ body ++
    [Opcode.deallocate.encode, arity.toUInt32, Opcode.proceed.encode]

end Assembler

end LogicMachine
