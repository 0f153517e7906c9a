import LogicMachine.Fault
import LogicMachine.Functor
import LogicMachine.Store.Trail

/-!
# The store

The store is the tagged memory of the machine: the heap, where running clauses
build terms, the retained segment, which outlives backtracking, the operand
stack, and the trail that records what backtracking has to restore.  Every
segment has a fixed size.
-/

namespace LogicMachine

/-- The two segments that terms are built in. -/
inductive Region where
  | heap
  | retained
  deriving DecidableEq, Inhabited

structure Store where
  heap : Array Word
  /-- The first free heap cell. -/
  heapTop : Int32
  retained : Array Word
  /-- The first free retained cell.  Backtracking never moves it back. -/
  retainedTop : Int32
  stack : Array Word
  /-- The top slot of the operand stack, or minus one when it is empty. -/
  pointer : Int32
  trail : Trail
  deriving Inhabited

/-- Actions on the store.  The changes made before a fault stay. -/
abbrev StoreM := EStateM Fault Store

/-- The word at a signed index. -/
@[inline]
def wordAt? (words : Array Word) (index : Int32) : Option Word :=
  if index < 0 then none else words[index.toNatClampNeg]?

namespace Store

def empty (heapSize retainedSize stackSize : Nat) : Store where
  heap := Array.replicate heapSize .zero
  heapTop := 0
  retained := Array.replicate retainedSize .zero
  retainedTop := 0
  stack := Array.replicate stackSize .zero
  pointer := -1
  trail := .empty

/-- Frees all cells and closes all choice points.  The words stay where they
are; they are written before they are read again. -/
def reset (store : Store) : Store :=
  { store with heapTop := 0, retainedTop := 0, pointer := -1, trail := .empty }

/-- The number of cells in all segments. -/
def cellCount (store : Store) : Nat :=
  store.heap.size + store.retained.size + store.stack.size

/-- The heap cells in use. -/
def liveHeap (store : Store) : List Word :=
  store.heap.toList.take store.heapTop.toNatClampNeg

/-- The retained cells in use. -/
def liveRetained (store : Store) : List Word :=
  store.retained.toList.take store.retainedTop.toNatClampNeg

/-- The stack slots in use, bottom first. -/
def liveStack (store : Store) : List Word :=
  store.stack.toList.take (store.pointer + 1).toNatClampNeg

/-- What a choice point made now would have to restore. -/
def boundary (store : Store) : Boundary :=
  ⟨store.heapTop, store.pointer⟩

def load (store : Store) (address : Address) : Except Fault Word :=
  let found :=
    match address with
    | .heap index => wordAt? store.heap index
    | .retained index => wordAt? store.retained index
    | .stack index => wordAt? store.stack index
    | _ => none
  match found with
  | some word => .ok word
  | none => .error (.invalidAddress address)

/-- The word about to be overwritten at an address.  A heap or retained cell
beyond the end of its segment is a cell that the segment has no room for. -/
def slot (store : Store) (address : Address) : Except Fault Word :=
  match address with
  | .heap index =>
      match wordAt? store.heap index with
      | some word => .ok word
      | none =>
          if index < 0 then .error (.invalidAddress address)
          else .error (.exhausted .heap store.heap.size)
  | .retained index =>
      match wordAt? store.retained index with
      | some word => .ok word
      | none =>
          if index < 0 then .error (.invalidAddress address)
          else .error (.exhausted .retained store.retained.size)
  | _ => store.load address

/-- Overwrites an existing cell. -/
def put (store : Store) (address : Address) (value : Word) : Store :=
  match address with
  | .heap index =>
      { store with
        heap := store.heap.setIfInBounds index.toNatClampNeg value }
  | .retained index =>
      { store with
        retained := store.retained.setIfInBounds index.toNatClampNeg value }
  | .stack index =>
      { store with
        stack := store.stack.setIfInBounds index.toNatClampNeg value }
  | _ => store

/-- Records the old word at an address in the trail. -/
def record (store : Store) (address : Address) (saved : Word) : Store :=
  { store with trail := store.trail.add ⟨address, saved⟩ }

/-- Follows references for a bounded number of steps. -/
def derefWithin (store : Store) : Nat → Address → Except Fault Address
  | 0, _ => .error .diverged
  | steps + 1, address =>
      match store.load address with
      | .error fault => .error fault
      | .ok word =>
          match word.cell with
          | .reference next =>
              if next = address then .ok address
              else store.derefWithin steps next
          | _ => .ok address

/-- Follows references to a cell that is no reference or to an unbound
variable.  A chain longer than the number of cells is a cycle. -/
def deref (store : Store) (address : Address) : Except Fault Address :=
  store.derefWithin (store.cellCount + 1) address

/-- The word at the end of a chain of references. -/
def derefLoad (store : Store) (address : Address) : Except Fault Word := do
  store.load (← store.deref address)

/-- The number of arguments that can be reached from a header.  Offsets have
31 bits and a sign, so a functor whose arity does not fit has none. -/
def reachable (arity : Nat) : Nat :=
  (Int32.ofNat arity).toNatClampNeg

/-- The cells that follow a header, one for each argument. -/
def arguments (header : Address) (arity : Nat) : Except Fault (List Address) :=
  (List.range (reachable arity)).mapM fun index =>
    header.shift (Int32.ofNat (index + 1))

/-- The first free cell of a region. -/
def top (store : Store) : Region → Int32
  | .heap => store.heapTop
  | .retained => store.retainedTop

/-- The size of a region. -/
def capacity (store : Store) : Region → Nat
  | .heap => store.heap.size
  | .retained => store.retained.size

/-- The number of free cells of a region. -/
def free (store : Store) (region : Region) : Nat :=
  store.capacity region - (store.top region).toNatClampNeg

def setTop (store : Store) (region : Region) (value : Int32) : Store :=
  match region with
  | .heap => { store with heapTop := value }
  | .retained => { store with retainedTop := value }

end Store

namespace Region

def segment : Region → Segment
  | .heap => .heap
  | .retained => .retained

/-- The region with a given name. -/
def ofName? (name : String) : Option Region :=
  [heap, retained].find? fun region => region.segment.name == name

/-- The cell with a given index in a region. -/
def address : Region → Int32 → Address
  | .heap => .heap
  | .retained => .retained

end Region

namespace FunctorTable

/-- The functor with a given number, which has to exist. -/
def functor (table : FunctorTable) (id : FunctorId) : Except Fault Functor :=
  match table.get? id with
  | some functor => .ok functor
  | none => .error (.malformed (.unknownFunctor id))

/-- The functor in the header cell of a structure. -/
def functorAt (table : FunctorTable) (store : Store) (header : Address) :
    Except Fault Functor := do
  match (← store.load header).cell with
  | .functor id => table.functor id
  | found => .error (.malformed (.missingFunctor header found))

end FunctorTable

namespace StoreM

/-- Reads the store. -/
@[inline]
def read (query : Store → Except Fault α) : StoreM α := fun store =>
  match query store with
  | .ok value => .ok value store
  | .error fault => .error fault store

/-- A fault or a value that does not depend on the store. -/
@[inline]
def ofExcept (value : Except Fault α) : StoreM α :=
  read fun _ => value

def load (address : Address) : StoreM Word :=
  read fun store => store.load address

def deref (address : Address) : StoreM Address :=
  read fun store => store.deref address

/-- Overwrites a cell and records the old word in the trail. -/
def store (address : Address) (value : Word) : StoreM Unit := do
  let saved ← read fun store => store.slot address
  modify fun store => (store.record address saved).put address value

/-- Overwrites a cell that was allocated after the newest choice point.  The
old word needs no record, because backtracking frees the cell.  Stack slots are
reused and always recorded. -/
def storeFresh (address : Address) (value : Word) : StoreM Unit := do
  match address with
  | .heap _ | .retained _ =>
      let _ ← read fun store => store.slot address
      modify fun store => store.put address value
  | _ => store address value

/-- Claims a number of consecutive cells. -/
def allocate (region : Region) (count : Nat) : StoreM Address := do
  let top := (← get).top region
  let capacity := (← get).capacity region
  if top < 0 ∨ capacity < top.toNatClampNeg + count then
    throw (.exhausted region.segment capacity)
  else
    modify fun store => store.setTop region (top + Int32.ofNat count)
    return region.address top

/-- Fills consecutive cells that were just claimed. -/
def fill (region : Region) (start : Int32) : List Word → StoreM Unit
  | [] => return
  | word :: rest => do
      storeFresh (region.address start) word
      fill region (start + 1) rest

/-- Claims consecutive cells and fills them. -/
def pushCells (region : Region) (words : List Word) : StoreM Address := do
  let start ← allocate region words.length
  fill region start.offset words
  return start

end StoreM

end LogicMachine
