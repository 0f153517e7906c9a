/-!
# Predicates

A predicate is entered through a chain of small pieces of code, one for each
clause, which try the clause and keep the next piece as a choice point.  The
first piece never moves once it exists, so a call can be compiled before the
predicate it calls has any clause.
-/

namespace LogicMachine

/-- Where the dispatch code of a predicate stands. -/
inductive Predicate where
  /-- Called but not defined; its code fails. -/
  | undefined (entry : Nat)
  /-- Has one clause. -/
  | single (entry : Nat)
  /-- Has several clauses; `last` is the dispatch code of the newest one. -/
  | chain (entry last : Nat)
  deriving DecidableEq, Inhabited

namespace Predicate

/-- The code address that calls jump to. -/
def entry : Predicate → Nat
  | .undefined entry | .single entry | .chain entry _ => entry

def isDefined : Predicate → Bool
  | .undefined _ => false
  | _ => true

def describe : Predicate → String
  | .undefined entry =>
      "Undefined \x7b thunk: " ++ toString entry ++ " \x7d"
  | .single entry =>
      "DefinedSingle \x7b entry: " ++ toString entry ++ " \x7d"
  | .chain entry last =>
      "DefinedChain \x7b entry: " ++ toString entry ++ ", tail: " ++
        toString last ++ " \x7d"

end Predicate

end LogicMachine
