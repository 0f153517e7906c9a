import LogicMachine.Code.Program
import LogicMachine.Store.Evaluate
import LogicMachine.Store.ReadBack
import LogicMachine.Store.Stack
import LogicMachine.Store.Unify

/-!
# The machine

A machine runs the code of a program on a store.  Besides the store and the
program it has four registers and a stack of collectors, which gather solutions
across backtracking.
-/

namespace LogicMachine

structure Registers where
  /-- The next instruction. -/
  instruction : Address
  /-- The current activation record. -/
  environment : Address
  /-- Where to go on after the current clause.  A negative code address means
  that the run has succeeded. -/
  continuation : Address
  /-- The trail level at the most recent call. -/
  cutBase : Address
  deriving Inhabited, DecidableEq

namespace Registers

def initial : Registers :=
  ⟨.code 0, .blank 0, .code (-1), .blank 0⟩

end Registers

structure Machine where
  store : Store
  registers : Registers
  program : Program
  /-- The open collectors, innermost first, each with its newest word first. -/
  collectors : List (List Word)
  deriving Inhabited

/-- The sizes of the segments, and whether added clauses report their entry and
exit. -/
structure Config where
  heapSize : Nat
  stackSize : Nat
  retainedSize : Nat
  codeSize : Nat
  trace : Bool
  deriving DecidableEq

namespace Config

def default : Config where
  heapSize := 65536
  stackSize := 16384
  retainedSize := 16384
  codeSize := 65536
  trace := false

instance : Inhabited Config := ⟨default⟩

end Config

namespace Machine

def empty (config : Config) (journal : Journal) : Machine where
  store := .empty config.heapSize config.retainedSize config.stackSize
  registers := .initial
  program := .empty config.codeSize journal
  collectors := []

/-- The value of a register. -/
def register (machine : Machine) : Register → Address
  | .topOfHeap => .heap machine.store.heapTop
  | .instructionPointer => machine.registers.instruction
  | .environment => machine.registers.environment
  | .continuationPointer => machine.registers.continuation
  | .choicePointBase => machine.registers.cutBase
  | .stackPointer => .stack machine.store.pointer
  | .nextRetained => .retained machine.store.retainedTop

/-- Sets a register to a recorded value. -/
def setRegister (machine : Machine) (register : Register) (value : Address) :
    Machine :=
  match register with
  | .topOfHeap =>
      { machine with store.heapTop := value.offset }
  | .instructionPointer =>
      { machine with registers.instruction := value }
  | .environment =>
      { machine with registers.environment := value }
  | .continuationPointer =>
      { machine with registers.continuation := value }
  | .choicePointBase =>
      { machine with registers.cutBase := value }
  | .stackPointer =>
      { machine with store.pointer := value.offset }
  | .nextRetained =>
      { machine with store.retainedTop := value.offset }

/-- Closes all choice points and collectors and frees all cells. -/
def reset (machine : Machine) : Machine :=
  { machine with
    store := machine.store.reset
    registers := .initial
    collectors := [] }

/-- The number of open choice points. -/
def level (machine : Machine) : Nat :=
  machine.store.trail.level

end Machine

/-- Actions of the machine.  The changes made before a fault stay. -/
abbrev MachineM := EStateM Fault Machine

namespace MachineM

/-- Reads the machine. -/
@[inline]
def read (query : Machine → Except Fault α) : MachineM α := fun machine =>
  match query machine with
  | .ok value => .ok value machine
  | .error fault => .error fault machine

/-- Runs an action on the store, which may look functors up. -/
@[inline]
def onStore (action : FunctorTable → StoreM α) : MachineM α := fun machine =>
  match machine with
  | ⟨store, registers, program, collectors⟩ =>
      match action program.functors store with
      | .ok value store => .ok value ⟨store, registers, program, collectors⟩
      | .error fault store =>
          .error fault ⟨store, registers, program, collectors⟩

/-- Runs an action on the program. -/
@[inline]
def onProgram (action : ProgramM α) : MachineM α := fun machine =>
  match machine with
  | ⟨store, registers, program, collectors⟩ =>
      match action program with
      | .ok value program => .ok value ⟨store, registers, program, collectors⟩
      | .error fault program =>
          .error fault ⟨store, registers, program, collectors⟩

/-- Enters an event in the journal. -/
@[inline]
def report (event : Event) : MachineM Unit :=
  onProgram (ProgramM.report event)

/-! ## The registers -/

@[inline]
def setRegisters (update : Registers → Registers) : MachineM Unit :=
  modify fun machine => { machine with registers := update machine.registers }

/-- Continues at a code address. -/
@[inline]
def jump (target : Address) : MachineM Unit :=
  setRegisters fun registers => { registers with instruction := target }

/-! ## The store -/

@[inline]
def load (address : Address) : MachineM Word :=
  read fun machine => machine.store.load address

@[inline]
def deref (address : Address) : MachineM Address :=
  read fun machine => machine.store.deref address

def derefLoad (address : Address) : MachineM Word :=
  read fun machine => machine.store.derefLoad address

@[inline]
def store (address : Address) (value : Word) : MachineM Unit :=
  onStore fun _ => StoreM.store address value

@[inline]
def push (value : Word) : MachineM Unit :=
  onStore fun _ => StoreM.push value

@[inline]
def pop : MachineM Word :=
  onStore fun _ => StoreM.pop

@[inline]
def peek : MachineM Word :=
  onStore fun _ => StoreM.peek

def allocateCells (region : Region) (count : Nat) : MachineM Address :=
  onStore fun _ => StoreM.allocate region count

def pushCells (region : Region) (words : List Word) : MachineM Address :=
  onStore fun _ => StoreM.pushCells region words

def bindVariable (first second : Address) : MachineM Unit :=
  onStore fun table => StoreM.bindVariable table first second

def unify (steps : Nat) (left right : Address) : MachineM Bool :=
  onStore fun table => StoreM.unify table steps left right

def copyTerm (root : Word) (region : Region) (mode : CopyMode) :
    MachineM Word :=
  onStore fun table => StoreM.copyTerm table root region mode

/-- The functor with a given number. -/
def functor (id : FunctorId) : MachineM Functor :=
  read fun machine => machine.program.functors.functor id

/-- The functor in the header cell of a structure. -/
def functorAt (header : Address) : MachineM Functor :=
  read fun machine => machine.program.functors.functorAt machine.store header

/-- The term at an address. -/
def readBack (address : Address) : MachineM Term :=
  read fun machine =>
    machine.store.readBack machine.program.functors address

/-- The integer that the atom at an address spells, if there is one. -/
def integerAt (address : Address) : MachineM (Option Int) :=
  read fun machine =>
    machine.store.integerAt machine.program.functors address

/-- The value of the expression at an address, if it has one. -/
def evaluate (address : Address) : MachineM (Option Int) :=
  read fun machine =>
    machine.store.evaluate machine.program.functors address

end MachineM

end LogicMachine
