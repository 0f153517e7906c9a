import LogicMachine.Clause.Draft

/-!
# Solving the goals of a clause

The arguments of a goal are built on the heap from the inside out.  Then they
are pushed from the last to the first and the predicate is called.
-/

namespace LogicMachine

/-- A term that has been built. -/
inductive Built where
  /-- A word kept in a slot. -/
  | slot (place : Local)
  | constant (functor : FunctorId)

namespace Built

/-- Pushes the word of a built term. -/
def push : Built → List Item
  | .slot place => [Item.onLocal .loadLocal place]
  | .constant functor => Item.constant functor

/-- Puts the word of a built term in the next heap cell. -/
def write (value : Built) : List Item :=
  Item.top :: value.push ++ [.plain .store] ++ Item.claimCell

/-- Builds a structure from its built arguments. -/
def structureItems (slot : Local) (functor : FunctorId) (args : List Built) :
    List Item :=
  [Item.top, .plain .increment, .plain .tagCompound,
      Item.onLocal .storeLocal slot,
      Item.top, Item.onLocal .loadLocal slot, .plain .store] ++
    Item.claimHeader functor ++ args.flatMap write

/-- Builds a list pair from its built head and tail. -/
def pairItems (slot : Local) (head tail : Built) : List Item :=
  [Item.top, .plain .tagList, Item.onLocal .storeLocal slot] ++
    head.write ++ tail.write

end Built

namespace ClauseM

variable {m : Type → Type} [Linker m]

/-- Makes a new variable on the heap. -/
def buildFresh (slot : Local) : ClauseM m Built := do
  emit (Item.freshVariable (some slot))
  return .slot slot

/-- Builds a named variable: a new one when it is first met. -/
def buildVariable (name : String) : ClauseM m Built := do
  match ← occurrence name with
  | .first slot => buildFresh slot
  | .again slot => return .slot slot

mutual

/-- Builds a term, its arguments first. -/
def build : Term → ClauseM m Built
  | .atom name => return .constant (← intern (.constant name))
  | .var name => do
      if name = Term.anonymous then
        buildFresh (← newLocal)
      else
        buildVariable name
  | .compound functor [] => do
      if functor = Term.listFunctor then
        throw (.malformed (.listArity ⟨functor, []⟩))
      return .constant (← intern (.constant functor))
  | .compound functor [head, tail] => do
      let first ← build head
      let second ← build tail
      if functor = Term.listFunctor then
        let slot ← newLocal
        emit (Built.pairItems slot first second)
        return .slot slot
      else
        let id ← intern ⟨functor, 2⟩
        let slot ← newLocal
        emit (Built.structureItems slot id [first, second])
        return .slot slot
  | .compound functor args => do
      if functor = Term.listFunctor then
        throw (.malformed (.listArity ⟨functor, args⟩))
      let values ← buildAll args
      let id ← intern ⟨functor, args.length⟩
      let slot ← newLocal
      emit (Built.structureItems slot id values)
      return .slot slot

/-- Builds terms from left to right. -/
def buildAll : List Term → ClauseM m (List Built)
  | [] => return []
  | term :: rest => do
      let value ← build term
      let values ← buildAll rest
      return value :: values

end

/-- Compiles one goal.  A cut goes back to the level at which the clause was
entered. -/
def compileGoal (goal : Goal) : ClauseM m Unit := do
  if goal.isCut then
    match (← get).cutLevel with
    | some slot => emit [Item.onLocal .loadLocal slot, .plain .cut]
    | none => return
  else
    let values ← buildAll goal.args
    emit (values.reverse.flatMap Built.push)
    let entry ← liftM (Linker.entryOf (.ofGoal goal) : m Nat)
    emit [.operand .call entry.toUInt32]

end ClauseM

end LogicMachine
