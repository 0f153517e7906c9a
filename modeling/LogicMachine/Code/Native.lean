/-!
# Native predicates

A native predicate is not made of clauses.  The built-in ones are run by the
machine itself.  One that belongs to the embedding program is only a number
here: a run that reaches it waits until the embedding program has answered.
-/

namespace LogicMachine

/-- The comparisons of integers. -/
inductive Comparison where
  | less
  | greater
  | atMost
  | atLeast
  | equal
  | different
  deriving DecidableEq, Inhabited

namespace Comparison

def holds (comparison : Comparison) (left right : Int) : Bool :=
  match comparison with
  | .less => left < right
  | .greater => left > right
  | .atMost => left ≤ right
  | .atLeast => left ≥ right
  | .equal => left == right
  | .different => left != right

end Comparison

/-- The built-in native predicates. -/
inductive Builtin where
  /-- Calls the goal that its argument is bound to. -/
  | callGoal
  /-- The number of open choice points. -/
  | level
  /-- Commits to the choices made above a level. -/
  | cut
  /-- Tests for an integer. -/
  | number
  /-- Evaluates an integer expression. -/
  | evaluate
  /-- Relates two integers and their sum. -/
  | plus
  | copyTerm
  | compare (comparison : Comparison)
  /-- Opens a collector of solutions. -/
  | collectBegin
  /-- Adds a solution to the innermost collector. -/
  | collect
  /-- Closes the innermost collector and gives the list of its solutions. -/
  | collectEnd
  deriving DecidableEq, Inhabited

inductive Native where
  | builtin (builtin : Builtin)
  /-- A predicate of the embedding program. -/
  | foreign (key : Nat)
  deriving DecidableEq, Inhabited

end LogicMachine
