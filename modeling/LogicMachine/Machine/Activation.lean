import LogicMachine.Machine.Basic

/-!
# Activation records

The stack holds one record for every clause that has been entered and not left.
A record stands above the arguments of its clause, the first one on top, and
consists of the caller's record, the caller's continuation and the local slots.
-/

namespace LogicMachine

namespace Machine

/-- A slot of the current activation record. -/
def slot (machine : Machine) (index : UInt32) : Except Fault Address :=
  machine.registers.environment.shift (3 + index.toInt32)

/-- An argument of the current clause. -/
def argument (machine : Machine) (index : UInt32) : Except Fault Address :=
  machine.registers.environment.shift (-index.toInt32)

end Machine

namespace MachineM

/-- A slot of the current activation record. -/
@[inline]
def localAddress (index : UInt32) : MachineM Address :=
  read fun machine => machine.slot index

/-- An argument of the current clause. -/
def argument (index : UInt32) : MachineM Address :=
  read fun machine => machine.argument index

/-- Saves the caller's record and continuation above the arguments and makes
room for local slots. -/
def enterClause (locals : Nat) : MachineM Unit := do
  let caller := (← get).registers.environment
  let pointer := (← get).store.pointer
  setRegisters fun registers =>
    { registers with environment := .stack pointer }
  push caller.pack
  push (← get).registers.continuation.pack
  onStore fun _ => StoreM.pushZeros locals

/-- Restores the caller's record and continuation and drops the record together
with the arguments. -/
def leaveClause (arity : Nat) : MachineM Unit := do
  let environment := (← get).registers.environment
  let continuation ← load (← read fun _ => environment.shift 2)
  setRegisters fun registers =>
    { registers with continuation := continuation.address }
  let caller ← load (← read fun _ => environment.shift 1)
  setRegisters fun registers =>
    { registers with environment := caller.address }
  onStore fun _ => StoreM.setPointer environment.offset
  onStore fun _ => StoreM.popMany arity

/-- Jumps to a predicate, to come back to the next instruction. -/
def call (entry : UInt32) : MachineM Unit := do
  let level := (← get).level
  setRegisters fun registers =>
    { registers with
      continuation := registers.instruction
      instruction := .code entry.toInt32
      cutBase := .blank (Int32.ofNat level) }

end MachineM

end LogicMachine
