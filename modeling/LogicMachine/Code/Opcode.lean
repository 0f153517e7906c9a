/-!
# Instructions

An instruction is one code word, followed by one operand word if it takes an
operand.  The top byte of the code word tells which; the next bytes number the
instruction by family and member.  Branches and relative choice points count
their operand from their own code word.
-/

namespace LogicMachine

inductive Opcode where
  | halt
  | nop
  /-- Gives up this branch and returns to the newest choice point. -/
  | fail
  | duplicate
  | pop
  /-- Replaces an address by the word stored there. -/
  | load
  /-- Stores the top word at the address under it. -/
  | store
  | loadConstant
  | loadLocal
  | storeLocal
  | loadLocalAddress
  | loadArgumentAddress
  /-- Replaces an address by the end of its chain of references. -/
  | deref
  | getTag
  | getAddress
  | tagReference
  | tagCompound
  | tagFunctor
  | tagConstant
  | tagList
  /-- Binds whichever of two addresses holds an unbound variable. -/
  | bind
  /-- Unifies the terms at two addresses and fails if they differ. -/
  | unify
  | loadHeapTop
  | storeHeapTop
  | loadCutBase
  | storeCutBase
  | increment
  | add
  | allocate
  | deallocate
  | call
  | proceed
  | branchEqual
  | branchNotEqual
  | branchAlways
  | branchAbsolute
  | choicePoint
  | choicePointRelative
  | getLevel
  | cut
  /-- Runs a native predicate. -/
  | native
  | trace
  | endTrace
  deriving DecidableEq, Inhabited

namespace Opcode

/-- Every instruction, in the order of the numbers. -/
def all : List Opcode := [
    .halt, .nop, .fail, .duplicate, .pop, .load, .store, .loadConstant,
    .loadLocal, .storeLocal, .loadLocalAddress, .loadArgumentAddress, .deref,
    .getTag, .getAddress, .tagReference, .tagCompound, .tagFunctor,
    .tagConstant, .tagList, .bind, .unify, .loadHeapTop,
    .storeHeapTop, .loadCutBase, .storeCutBase,
    .increment, .add, .allocate, .deallocate, .call, .proceed, .branchEqual,
    .branchNotEqual, .branchAlways, .branchAbsolute, .choicePoint,
    .choicePointRelative, .getLevel, .cut, .native, .trace, .endTrace]

/-- Family and member number of an instruction. -/
def number : Opcode → UInt32
  | .halt => 0x0000
  | .nop => 0x0001
  | .fail => 0x0002
  | .duplicate => 0x0100
  | .pop => 0x0101
  | .load => 0x0102
  | .store => 0x0103
  | .loadConstant => 0x0104
  | .loadLocal => 0x0105
  | .storeLocal => 0x0106
  | .loadLocalAddress => 0x0107
  | .loadArgumentAddress => 0x0108
  | .deref => 0x0200
  | .getTag => 0x0201
  | .getAddress => 0x0202
  | .tagReference => 0x0203
  | .tagCompound => 0x0204
  | .tagFunctor => 0x0205
  | .tagConstant => 0x0206
  | .tagList => 0x0207
  | .bind => 0x0208
  | .unify => 0x0209
  | .loadHeapTop => 0x0300
  | .storeHeapTop => 0x0301
  | .loadCutBase => 0x0302
  | .storeCutBase => 0x0303
  | .increment => 0x0400
  | .add => 0x0401
  | .allocate => 0x0500
  | .deallocate => 0x0501
  | .call => 0x0502
  | .proceed => 0x0503
  | .branchEqual => 0x0600
  | .branchNotEqual => 0x0601
  | .branchAlways => 0x0602
  | .branchAbsolute => 0x0603
  | .choicePoint => 0x0700
  | .choicePointRelative => 0x0701
  | .getLevel => 0x0702
  | .cut => 0x0703
  | .native => 0x0800
  | .trace => 0x0801
  | .endTrace => 0x0802

/-- Whether an operand word follows the code word. -/
def hasOperand : Opcode → Bool
  | .loadConstant | .loadLocal | .storeLocal | .loadLocalAddress
  | .loadArgumentAddress | .allocate | .deallocate | .call | .branchEqual
  | .branchNotEqual | .branchAlways | .branchAbsolute | .choicePoint
  | .choicePointRelative | .native | .trace | .endTrace => true
  | _ => false

/-- The length of an instruction in code words. -/
def size (opcode : Opcode) : Nat :=
  if opcode.hasOperand then 2 else 1

/-- Whether the operand counts from the code word of the instruction. -/
def isRelative : Opcode → Bool
  | .branchEqual | .branchNotEqual | .branchAlways | .choicePointRelative => true
  | _ => false

/-- The code word of an instruction. -/
def encode (opcode : Opcode) : UInt32 :=
  (if opcode.hasOperand then 0x2000000 else 0x1000000) ||| opcode.number

/-- The instruction with a given code word. -/
def decode? (word : UInt32) : Option Opcode :=
  match word with
  | 0x1000000 => some .halt
  | 0x1000001 => some .nop
  | 0x1000002 => some .fail
  | 0x1000100 => some .duplicate
  | 0x1000101 => some .pop
  | 0x1000102 => some .load
  | 0x1000103 => some .store
  | 0x2000104 => some .loadConstant
  | 0x2000105 => some .loadLocal
  | 0x2000106 => some .storeLocal
  | 0x2000107 => some .loadLocalAddress
  | 0x2000108 => some .loadArgumentAddress
  | 0x1000200 => some .deref
  | 0x1000201 => some .getTag
  | 0x1000202 => some .getAddress
  | 0x1000203 => some .tagReference
  | 0x1000204 => some .tagCompound
  | 0x1000205 => some .tagFunctor
  | 0x1000206 => some .tagConstant
  | 0x1000207 => some .tagList
  | 0x1000208 => some .bind
  | 0x1000209 => some .unify
  | 0x1000300 => some .loadHeapTop
  | 0x1000301 => some .storeHeapTop
  | 0x1000302 => some .loadCutBase
  | 0x1000303 => some .storeCutBase
  | 0x1000400 => some .increment
  | 0x1000401 => some .add
  | 0x2000500 => some .allocate
  | 0x2000501 => some .deallocate
  | 0x2000502 => some .call
  | 0x1000503 => some .proceed
  | 0x2000600 => some .branchEqual
  | 0x2000601 => some .branchNotEqual
  | 0x2000602 => some .branchAlways
  | 0x2000603 => some .branchAbsolute
  | 0x2000700 => some .choicePoint
  | 0x2000701 => some .choicePointRelative
  | 0x1000702 => some .getLevel
  | 0x1000703 => some .cut
  | 0x2000800 => some .native
  | 0x2000801 => some .trace
  | 0x2000802 => some .endTrace
  | _ => none

@[simp]
theorem decode?_encode (opcode : Opcode) :
    decode? opcode.encode = some opcode := by
  cases opcode <;> rfl

theorem encode_of_decode? {word : UInt32} {opcode : Opcode}
    (decoded : decode? word = some opcode) : opcode.encode = word := by
  unfold decode? at decoded
  split at decoded <;> cases decoded <;> rfl

def name : Opcode → String
  | .halt => "Halt"
  | .nop => "Nop"
  | .fail => "Fail"
  | .duplicate => "Duplicate"
  | .pop => "Pop"
  | .load => "Load"
  | .store => "Store"
  | .loadConstant => "LoadConstant"
  | .loadLocal => "LoadLocal"
  | .storeLocal => "StoreLocal"
  | .loadLocalAddress => "LoadLocalAddress"
  | .loadArgumentAddress => "LoadArgumentAddress"
  | .deref => "Deref"
  | .getTag => "GetTag"
  | .getAddress => "GetAddress"
  | .tagReference => "ApplyTagRef"
  | .tagCompound => "ApplyTagStr"
  | .tagFunctor => "ApplyTagFun"
  | .tagConstant => "ApplyTagCon"
  | .tagList => "ApplyTagLis"
  | .bind => "Bind"
  | .unify => "Unify"
  | .loadHeapTop => "LoadGlobalRegisterH"
  | .storeHeapTop => "StoreGlobalRegisterH"
  | .loadCutBase => "LoadGlobalRegisterB0"
  | .storeCutBase => "StoreGlobalRegisterB0"
  | .increment => "Increment"
  | .add => "Add"
  | .allocate => "Allocate"
  | .deallocate => "Deallocate"
  | .call => "Call"
  | .proceed => "Proceed"
  | .branchEqual => "BranchEqual"
  | .branchNotEqual => "BranchNotEqual"
  | .branchAlways => "BranchAlways"
  | .branchAbsolute => "BranchAbsolute"
  | .choicePoint => "ChoicePoint"
  | .choicePointRelative => "ChoicePointRelative"
  | .getLevel => "GetLevel"
  | .cut => "Cut"
  | .native => "Callback"
  | .trace => "Trace"
  | .endTrace => "EndTrace"

/-- The instruction with a given name. -/
def ofName? (name : String) : Option Opcode :=
  all.find? fun opcode => opcode.name == name

end Opcode

end LogicMachine
