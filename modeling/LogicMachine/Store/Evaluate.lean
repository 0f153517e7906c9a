import LogicMachine.Arithmetic
import LogicMachine.Store.Basic

/-!
# Evaluating expressions

An integer expression is a term whose atoms spell integers and whose functors
are operations.  Any other term has no value; neither has a term with a part
that has none.
-/

namespace LogicMachine

namespace Store

/-- The integer that the atom at an address spells, if there is one. -/
def integerAt (table : FunctorTable) (store : Store) (address : Address) :
    Except Fault (Option Int) := do
  match (← store.derefLoad address).cell with
  | .constant id => return Arithmetic.integer? (← table.functor id).name
  | _ => return none

/-- The values of expressions from left to right, up to the first one that has
none. -/
def valuesOf (value : Address → Except Fault (Option Int)) :
    List Address → Except Fault (Option (List Int))
  | [] => .ok (some [])
  | address :: rest => do
      match ← value address with
      | none => return none
      | some first =>
          match ← valuesOf value rest with
          | none => return none
          | some values => return some (first :: values)

/-- The value of an expression of bounded depth. -/
def evaluateWithin (table : FunctorTable) (store : Store) :
    Nat → Address → Except Fault (Option Int)
  | 0, _ => .error .diverged
  | depth + 1, address => do
      match (← store.derefLoad address).cell with
      | .constant _ => integerAt table store address
      | .compound header =>
          let functor ← table.functorAt store header
          let addresses ← arguments header functor.arity
          match ← valuesOf (evaluateWithin table store depth) addresses with
          | none => return none
          | some values =>
              match Arithmetic.apply functor.name values with
              | .ok value => return value
              | .error crash => .error (.crash crash)
      | _ => return none

/-- The value of the expression at an address.  An expression deeper than the
number of cells is cyclic. -/
def evaluate (table : FunctorTable) (store : Store) (address : Address) :
    Except Fault (Option Int) :=
  evaluateWithin table store (store.cellCount + 1) address

end Store

end LogicMachine
