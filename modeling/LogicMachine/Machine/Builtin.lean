import LogicMachine.Machine.Activation
import LogicMachine.Machine.Choice
import LogicMachine.Machine.Collector

/-!
# Built-in native predicates

Each built-in native predicate is an action of the machine that finds its
arguments in the current activation record and answers whether the goal
succeeds.
-/

namespace LogicMachine

namespace MachineM

/-- The word of the atom that spells an integer in decimal. -/
def integerWord (value : Int) : MachineM Word := do
  let id ← onProgram (ProgramM.intern (.constant (toString value)))
  return .constant id

/-- Unifies a term with a word that is put in a new cell. -/
def unifyWord (steps : Nat) (region : Region) (address : Address)
    (value : Word) : MachineM Bool := do
  let cell ← pushCells region [value]
  unify steps address cell

/-- Unifies a term with an integer; without an integer the goal fails. -/
def unifyInteger (steps : Nat) (address : Address) (value : Option Int) :
    MachineM Bool := do
  match value with
  | some value => unifyWord steps .heap address (← integerWord value)
  | none => return false

/-- Pushes the words at some addresses, the last one first. -/
def pushArguments (addresses : List Address) : MachineM Unit :=
  addresses.reverse.forM fun address => do
    push (← load address)

/-- Calls the goal that the argument is bound to.  It runs once the native
predicate has returned. -/
def callGoal : MachineM Bool := do
  let goal ← deref (← argument 0)
  match (← load goal).cell with
  | .constant id =>
      let functor ← functor id
      call (← onProgram (ProgramM.entryOf functor)).toUInt32
      return true
  | .compound header =>
      let functor ← functorAt header
      pushArguments (← read fun _ => Store.arguments header functor.arity)
      call (← onProgram (ProgramM.entryOf functor)).toUInt32
      return true
  | _ => return false

/-- Relates two integers and their sum: the one that is not given is computed
from the other two. -/
def plus (steps : Nat) : MachineM Bool := do
  let first ← argument 0
  let second ← argument 1
  let sum ← argument 2
  let left ← integerAt first
  let right ← integerAt second
  let total ← integerAt sum
  match left, right, total with
  | some left, some right, _ =>
      unifyInteger steps sum (Arithmetic.checked (left + right))
  | some left, none, some total =>
      unifyInteger steps second (Arithmetic.checked (total - left))
  | none, some right, some total =>
      unifyInteger steps first (Arithmetic.checked (total - right))
  | _, _, _ => return false

/-- Compares the values of two expressions. -/
def compare (comparison : Comparison) : MachineM Bool := do
  let first ← argument 0
  let second ← argument 1
  let left ← evaluate first
  let right ← evaluate second
  match left, right with
  | some left, some right => return comparison.holds left right
  | _, _ => return false

/-- Unifies the second argument with a copy of the first one that has variables
of its own. -/
def copyArgument (steps : Nat) : MachineM Bool := do
  let source ← argument 0
  let target ← argument 1
  let copy ← copyTerm (← load source) .heap .fresh
  unifyWord steps .heap target copy

/-- Builds a list of words in the retained segment, from its end. -/
def retainedList (ending : Word) (reversed : List Word) : MachineM Word :=
  match reversed with
  | [] => return ending
  | item :: rest => do
      let pair ← pushCells .retained [item, ending]
      retainedList (.list pair) rest

/-- Unifies the argument with the list of the collected solutions. -/
def finishCollecting (steps : Nat) : MachineM Bool := do
  match ← endCollect with
  | none => return false
  | some words =>
      let ending ← onProgram (ProgramM.intern (.constant Term.emptyListName))
      let list ← retainedList (.constant ending) words.reverse
      unifyWord steps .retained (← argument 0) list

/-- Runs a built-in native predicate. -/
def runBuiltin (steps : Nat) : Builtin → MachineM Bool
  | .callGoal => callGoal
  | .level => do
      let target ← argument 0
      unifyInteger steps target (some (← get).level)
  | .cut => do
      match ← integerAt (← argument 0) with
      | some level =>
          if 0 ≤ level then
            cut level.toNat
            return true
          else
            return false
      | none => return false
  | .number => do return (← integerAt (← argument 0)).isSome
  | .evaluate => do
      let target ← argument 0
      let value ← evaluate (← argument 1)
      unifyInteger steps target value
  | .plus => plus steps
  | .copyTerm => copyArgument steps
  | .compare comparison => compare comparison
  | .collectBegin => do
      beginCollect
      return true
  | .collect => do
      let copy ← copyTerm (← load (← argument 0)) .retained .fresh
      collect copy
  | .collectEnd => finishCollecting steps

end MachineM

end LogicMachine
