import LogicMachine.Machine.Basic

/-!
# Choice points

A choice point is a frame of the trail whose first records are the registers at
the moment it was opened, with the address of the alternative in place of the
next instruction.  Going back restores the records of the newest frame, newest
first, so the registers are restored last.
-/

namespace LogicMachine

namespace MachineM

/-- Opens a choice point that continues at a code address with the registers
as they are now. -/
def choicePoint (next : UInt32) : MachineM Unit := do
  modify fun machine =>
    { machine with
      store.trail := machine.store.trail.openFrame machine.store.boundary }
  report (.choicePoint (← get).level next.toNat)
  let machine ← get
  let saved : List (Register × Address) :=
    [(.instructionPointer, .code next.toInt32),
      (.continuationPointer, machine.registers.continuation),
      (.environment, machine.registers.environment),
      (.topOfHeap, machine.register .topOfHeap),
      (.stackPointer, machine.register .stackPointer),
      (.choicePointBase, machine.registers.cutBase)]
  let records := saved.map fun (register, value) =>
    (⟨.register register, value.pack⟩ : Record)
  modify fun machine =>
    { machine with
      store.trail := records.foldl Trail.add machine.store.trail }

/-- Restores what a record has saved. -/
def restore (record : Record) : MachineM Unit :=
  match record.address with
  | .register register =>
      modify fun machine => machine.setRegister register record.saved.address
  | _ => onStore fun _ => StoreM.restore record

/-- Goes back to the newest choice point and closes it.  Without one nothing
changes. -/
def backtrack : MachineM Bool := do
  match (← get).store.trail.pop? with
  | none => return false
  | some (frame, trail) =>
      modify fun machine => { machine with store.trail := trail }
      report (.backtracked trail.level frame.records.length)
      frame.records.forM restore
      return true

/-- Commits to every choice made above a level. -/
def cut (level : Nat) : MachineM Unit := do
  report (.cut (← get).level level)
  modify fun machine =>
    { machine with store.trail := machine.store.trail.cut level }

end MachineM

end LogicMachine
