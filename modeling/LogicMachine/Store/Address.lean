/-!
# Addresses

An address names a segment of the machine and a signed offset in it, or one of
the registers.  The order on addresses compares segments first: retained cells
come before heap cells and heap cells before stack slots.  Binding relies on
that order to let references run from newer storage to older storage.
-/

namespace LogicMachine

/-- The registers that choice points record and addresses may name. -/
inductive Register where
  | topOfHeap
  | instructionPointer
  | environment
  | continuationPointer
  | choicePointBase
  | stackPointer
  | nextRetained
  deriving DecidableEq, Hashable, Inhabited

namespace Register

def all : List Register :=
  [.topOfHeap, .instructionPointer, .environment, .continuationPointer,
    .choicePointBase, .stackPointer, .nextRetained]

/-- The number of a register, which is its offset when packed. -/
def index : Register → Int32
  | .topOfHeap => 0
  | .instructionPointer => 1
  | .environment => 2
  | .continuationPointer => 3
  | .choicePointBase => 4
  | .stackPointer => 5
  | .nextRetained => 6

/-- The register with a given number. -/
def ofIndex? (index : Int32) : Option Register :=
  all.find? fun register => register.index == index

def name : Register → String
  | .topOfHeap => "TopOfHeap"
  | .instructionPointer => "InstructionPointer"
  | .environment => "Environment"
  | .continuationPointer => "ContinuationPointer"
  | .choicePointBase => "ChoicePointBase"
  | .stackPointer => "StackPointer"
  | .nextRetained => "NextRetained"

/-- The register with a given name. -/
def ofName? (name : String) : Option Register :=
  all.find? fun register => register.name == name

end Register

/-- A pointer into one of the segments of the machine. -/
inductive Address where
  /-- Plain payload such as functor numbers and trail levels. -/
  | blank (offset : Int32)
  | retained (offset : Int32)
  | heap (offset : Int32)
  | stack (offset : Int32)
  | code (offset : Int32)
  | register (which : Register)
  deriving DecidableEq, Hashable, Inhabited

namespace Address

/-- The number of the segment, in the order of addresses. -/
def segment : Address → UInt32
  | .blank _ => 0
  | .retained _ => 1
  | .heap _ => 2
  | .stack _ => 3
  | .code _ => 4
  | .register _ => 5

/-- The signed offset in the segment; a register yields its number. -/
def offset : Address → Int32
  | .blank offset | .retained offset | .heap offset
  | .stack offset | .code offset => offset
  | .register which => which.index

/-- The address with a given segment number and offset.  Numbers that name no
segment or no register give plain payload. -/
def ofParts (segment : Nat) (offset : Int32) : Address :=
  match segment with
  | 1 => .retained offset
  | 2 => .heap offset
  | 3 => .stack offset
  | 4 => .code offset
  | 5 =>
      match Register.ofIndex? offset with
      | some which => .register which
      | none => .blank offset
  | _ => .blank offset

def isRetained : Address → Bool
  | .retained _ => true
  | _ => false

/-- Addresses are ordered by segment and then by offset. -/
def before (left right : Address) : Bool :=
  left.segment < right.segment ||
    (left.segment == right.segment && left.offset < right.offset)

/-- The address a number of cells further on.  Code addresses and registers
have no neighbours. -/
def shift? (address : Address) (delta : Int32) : Option Address :=
  match address with
  | .blank offset => some (.blank (offset + delta))
  | .retained offset => some (.retained (offset + delta))
  | .heap offset => some (.heap (offset + delta))
  | .stack offset => some (.stack (offset + delta))
  | .code _ | .register _ => none

/-- The short written form: a letter for the segment and the offset. -/
def render : Address → String
  | .blank offset => "#" ++ toString offset.toInt
  | .retained offset => "R" ++ toString offset.toInt
  | .heap offset => "H" ++ toString offset.toInt
  | .stack offset => "S" ++ toString offset.toInt
  | .code offset => "C" ++ toString offset.toInt
  | .register which => which.name

/-- The address with a given letter and offset.  The letter of a register is
`X`, and its offset is its number. -/
def ofLetter? (letter : String) (offset : Int32) : Option Address :=
  match letter with
  | "#" => some (.blank offset)
  | "R" => some (.retained offset)
  | "H" => some (.heap offset)
  | "S" => some (.stack offset)
  | "C" => some (.code offset)
  | "X" => (Register.ofIndex? offset).map .register
  | _ => none

/-- The long written form: the segment's name and the offset in parentheses. -/
def describe : Address → String
  | .blank offset => "Blank(" ++ toString offset.toInt ++ ")"
  | .retained offset => "Retained(" ++ toString offset.toInt ++ ")"
  | .heap offset => "Heap(" ++ toString offset.toInt ++ ")"
  | .stack offset => "Stack(" ++ toString offset.toInt ++ ")"
  | .code offset => "Code(" ++ toString offset.toInt ++ ")"
  | .register which => "Register(" ++ which.name ++ ")"

end Address

end LogicMachine
