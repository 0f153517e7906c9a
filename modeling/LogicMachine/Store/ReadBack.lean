import LogicMachine.Store.Basic
import LogicMachine.Term.List
import Std.Data.HashSet

/-!
# Reading terms back

A term in the store is read back by walking its cells.  A structure or list
pair that is reached again after it was finished is not read twice.  One that
is reached again while its own arguments are still being read is a cycle; it
comes out as a variable named after the cell it goes back to.
-/

namespace LogicMachine

/-- What remains to be done when a term is read back. -/
inductive ReadTask where
  | visit (address : Address)
  /-- Assembles a compound from the most recently finished terms. -/
  | assemble (key : Address) (functor : String) (arity : Nat)
  deriving Inhabited

/-- The state of reading a term back. -/
structure ReadState where
  tasks : List ReadTask
  /-- The finished terms, newest first. -/
  finished : List Term
  /-- The finished compounds by the cell they start at. -/
  known : Std.HashMap Address Term
  /-- The compounds whose arguments are still being read. -/
  entered : Std.HashSet Address

namespace Store

/-- The name of an unbound variable, or of a cycle, at an address. -/
def variableAt (address : Address) : Term :=
  .var ("_" ++ address.render)

/-- Starts reading the compound at a cell, unless that has been done. -/
def enter (state : ReadState) (key : Address) (functor : String)
    (arguments : Except Fault (List Address)) : Except Fault ReadState :=
  if state.entered.contains key then
    .ok { state with finished := variableAt key :: state.finished }
  else
    match state.known[key]?, arguments with
    | some term, _ => .ok { state with finished := term :: state.finished }
    | none, .error fault => .error fault
    | none, .ok arguments =>
        .ok { state with
          entered := state.entered.insert key
          tasks :=
            arguments.map .visit ++
              .assemble key functor arguments.length :: state.tasks }

/-- Reads the cell at an address. -/
def visit (table : FunctorTable) (store : Store) (address : Address)
    (state : ReadState) : Except Fault ReadState := do
  let address ← store.deref address
  match (← store.load address).cell with
  | .reference _ =>
      return { state with finished := variableAt address :: state.finished }
  | .constant id =>
      let functor ← table.functor id
      return { state with finished := .atom functor.name :: state.finished }
  | .compound header =>
      let functor ← table.functorAt store header
      enter state header functor.name (arguments header functor.arity)
  | .list pair =>
      enter state pair Term.listFunctor do return [pair, ← pair.shift 1]
  | cell => .error (.malformed (.unreadable cell address))

/-- Assembles a compound from its finished arguments. -/
def assemble (state : ReadState) (key : Address) (functor : String)
    (arity : Nat) : ReadState :=
  let term := Term.compound functor (state.finished.take arity).reverse
  { state with
    finished := term :: state.finished.drop arity
    known := state.known.insert key term
    entered := state.entered.erase key }

/-- Works through the tasks for a bounded number of steps. -/
def readAll (table : FunctorTable) (store : Store) :
    Nat → ReadState → Except Fault Term
  | 0, _ => .error .diverged
  | steps + 1, state =>
      match state.tasks with
      | [] =>
          match state.finished with
          | term :: _ => .ok term
          | [] => .error .diverged
      | .visit address :: rest =>
          match visit table store address { state with tasks := rest } with
          | .ok state => readAll table store steps state
          | .error fault => .error fault
      | .assemble key functor arity :: rest =>
          readAll table store steps
            (assemble { state with tasks := rest } key functor arity)

/-- The term at an address.  Every compound is entered once and visits each of
its arguments once, and no compound has more arguments than there are cells,
which bounds the number of steps. -/
def readBack (table : FunctorTable) (store : Store) (address : Address) :
    Except Fault Term :=
  let cells := store.cellCount
  readAll table store ((cells + 3) * (cells + 3))
    ⟨[.visit address], [], {}, {}⟩

end Store

end LogicMachine
