import LogicMachine.Store.Copy

/-!
# Unification

Unification works through a list of pairs of addresses whose terms have to be
made equal.  There is no occurs check, so a variable may be bound to a term that
contains it, and two different cyclic terms may keep the list from ever getting
empty.  The bindings made before a clash stay; backtracking undoes them.
-/

namespace LogicMachine

/-- Two addresses whose terms have to be made equal. -/
structure Equation where
  left : Address
  right : Address
  deriving DecidableEq, Inhabited

namespace StoreM

/-- Binds a variable to the word found at a source.  A retained variable may
only refer to retained cells, so the word of any other source is copied there
first. -/
def bindTo (table : FunctorTable) (target source : Address) (value : Word) :
    StoreM Unit := do
  if target.isRetained && !source.isRetained then
    store target (← copyTerm table value .retained .share)
  else
    store target value

/-- Binds whichever of two dereferenced addresses holds an unbound variable.
If both do, the newer one is bound to the older one, so that references never
point into storage that is freed before them. -/
def bindVariable (table : FunctorTable) (first second : Address) :
    StoreM Unit := do
  let firstWord ← load first
  let secondWord ← load second
  if firstWord.tag == .reference &&
      (secondWord.tag != .reference || second.before first) then
    bindTo table first second secondWord
  else
    bindTo table second first firstWord

/-- Works on one pair: either the two terms clash, or the pair is replaced by
the pairs of their arguments. -/
def unifyPair (table : FunctorTable) (equation : Equation) :
    StoreM (Option (List Equation)) := do
  let left ← deref equation.left
  let right ← deref equation.right
  if left = right then
    return some []
  let leftWord ← load left
  let rightWord ← load right
  match leftWord.cell, rightWord.cell with
  | .reference _, _ | _, .reference _ =>
      bindVariable table left right
      return some []
  | .constant name, .constant other =>
      return if name = other then some [] else none
  | .list pair, .list other =>
      if pair = other then
        return some []
      let tail ← ofExcept (pair.shift 1)
      let otherTail ← ofExcept (other.shift 1)
      return some [⟨pair, other⟩, ⟨tail, otherTail⟩]
  | .compound header, .compound other =>
      if header = other then
        return some []
      let functor ← read fun store => table.functorAt store header
      let otherFunctor ← read fun store => table.functorAt store other
      if functor = otherFunctor then
        let arguments ← ofExcept (Store.arguments header functor.arity)
        let others ← ofExcept (Store.arguments other functor.arity)
        return some (arguments.zipWith Equation.mk others)
      else
        return none
  | .other payload, .other otherPayload =>
      return if payload = otherPayload then some [] else none
  | _, _ => return none

/-- Works through a list of pairs from the front for a bounded number of
steps. -/
def unifyAll (table : FunctorTable) : Nat → List Equation → StoreM Bool
  | _, [] => return true
  | 0, _ :: _ => throw .diverged
  | steps + 1, equation :: rest => do
      match ← unifyPair table equation with
      | none => return false
      | some arguments => unifyAll table steps (arguments ++ rest)

/-- Unifies the terms at two addresses. -/
def unify (table : FunctorTable) (steps : Nat) (left right : Address) :
    StoreM Bool :=
  unifyAll table steps [⟨left, right⟩]

end StoreM

end LogicMachine
