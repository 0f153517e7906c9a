import LogicMachine.Store.Basic

/-!
# The operand stack

The operand stack also holds the activation records of running clauses.  Every
slot that is written is recorded in the trail, so a choice point finds the
stack as it was even after the frames above it were dropped and their slots
were used again.
-/

namespace LogicMachine

namespace StoreM

/-- Pushes a word. -/
def push (value : Word) : StoreM Unit := do
  let next := (← get).pointer + 1
  let capacity := (← get).stack.size
  if next < 0 ∨ capacity ≤ next.toNatClampNeg then
    throw (.exhausted .stack capacity)
  else
    modify fun store => { store with pointer := next }
    store (.stack next) value

/-- The top word. -/
def peek : StoreM Word :=
  read fun store =>
    if store.pointer < 0 then
      .error .stackUnderflow
    else
      store.load (.stack store.pointer)

/-- Takes the top word off. -/
def pop : StoreM Word := do
  let value ← peek
  modify fun store => { store with pointer := store.pointer - 1 }
  return value

/-- Pushes a number of zero words. -/
def pushZeros : Nat → StoreM Unit
  | 0 => return
  | count + 1 => do
      push .zero
      pushZeros count

/-- Takes a number of words off. -/
def popMany : Nat → StoreM Unit
  | 0 => return
  | count + 1 => do
      let _ ← pop
      popMany count

/-- Moves the top, filling up with zero words when the stack grows. -/
def setPointer (target : Int32) : StoreM Unit := do
  let pointer := (← get).pointer
  if pointer < target then
    pushZeros (target.toInt - pointer.toInt).toNat
  else if target < pointer then
    modify fun store =>
      { store with pointer := if target < -1 then -1 else target }

/-- Restores a recorded word without recording it again. -/
def restore (record : Record) : StoreM Unit := do
  let _ ← read fun store => store.slot record.address
  modify fun store => store.put record.address record.saved

/-- Restores the recorded top without touching any slot. -/
def restorePointer (pointer : Int32) : StoreM Unit :=
  modify fun store => { store with pointer }

end StoreM

end LogicMachine
