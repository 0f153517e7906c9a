import LogicMachine.Term.Basic
import LogicMachine.Store.Word
import Std.Data.TreeMap

/-!
# Functors

A functor is a name with a number of arguments.  Functors are interned: a table
gives each one a number when it is first seen and the same number ever after,
so cells and instructions refer to functors by number.
-/

namespace LogicMachine

structure Functor where
  name : String
  arity : Nat
  deriving DecidableEq, Inhabited

namespace Functor

/-- The bytes of the name. -/
def bytes (functor : Functor) : List UInt8 :=
  functor.name.toByteArray.data.toList

theorem name_eq_of_bytes {left right : Functor}
    (same : left.bytes = right.bytes) : left.name = right.name :=
  String.toByteArray_inj.mp (ByteArray.ext (Array.toList_inj.mp same))

/-- Tables keep functors in the order of their arities, and then of the bytes of
their names. -/
instance : Ord Functor :=
  ⟨compareLex (compareOn Functor.arity) (compareOn bytes)⟩

instance : Std.TransOrd Functor :=
  inferInstanceAs (Std.TransCmp
    (compareLex (compareOn Functor.arity) (compareOn bytes)))

instance : Std.LawfulEqOrd Functor where
  eq_of_compare {left right} same := by
    obtain ⟨arities, names⟩ := Ordering.then_eq_eq.mp same
    have arity : left.arity = right.arity :=
      Std.LawfulEqOrd.eq_of_compare arities
    have name := name_eq_of_bytes (Std.LawfulEqOrd.eq_of_compare names)
    cases left
    cases right
    cases arity
    cases name
    rfl

/-- The functor of a goal or of a rule head. -/
def ofGoal (goal : Goal) : Functor :=
  ⟨goal.functor, goal.arity⟩

/-- The functor of an atom. -/
def constant (name : String) : Functor :=
  ⟨name, 0⟩

def render (functor : Functor) : String :=
  functor.name ++ "/" ++ toString functor.arity

/-- Functors are ordered by name and then by the number of arguments. -/
def before (left right : Functor) : Bool :=
  left.name < right.name ||
    (left.name == right.name && left.arity < right.arity)

end Functor

/-- The functors seen so far, in the order of their numbers, with the numbers
indexed by functor. -/
structure FunctorTable where
  functors : Array Functor
  numbers : Std.TreeMap Functor FunctorId

namespace FunctorTable

def empty : FunctorTable :=
  ⟨#[], {}⟩

instance : Inhabited FunctorTable := ⟨empty⟩

def size (table : FunctorTable) : Nat :=
  table.functors.size

/-- The number of a functor; a functor not seen before gets the next one. -/
def intern (table : FunctorTable) (functor : Functor) :
    FunctorId × FunctorTable :=
  match table.numbers[functor]? with
  | some id => (id, table)
  | none =>
      let id : FunctorId := ⟨table.functors.size.toUInt32⟩
      (id, ⟨table.functors.push functor, table.numbers.insert functor id⟩)

/-- The functor with a given number. -/
def get? (table : FunctorTable) (id : FunctorId) : Option Functor :=
  table.functors[id.index.toNat]?

end FunctorTable

end LogicMachine
