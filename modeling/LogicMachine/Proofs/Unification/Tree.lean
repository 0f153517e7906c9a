import Mathlib.Algebra.BigOperators.Fin
import Mathlib.Data.PFunctor.Univariate.M
import LogicMachine.Functor

/-!
# Trees

The values of term cells.  A tree has a symbol and as many children as the
symbol says.  Trees may be infinite, because a variable may be bound to a term
that contains it.  What unification needs of trees is that a tree determines
its symbol and its children, and that trees that agree as far as anybody looks
are the same.  Both the finite trees and all trees have that.
-/

namespace LogicMachine

/-- What stands at a node of a tree. -/
inductive Symbol where
  | constant (id : FunctorId)
  | other (payload : UInt64)
  | list
  | compound (functor : Functor)

namespace Symbol

def arity : Symbol → Nat
  | .constant _ | .other _ => 0
  | .list => 2
  | .compound functor => functor.arity

/-- A list pair has a head and a tail. -/
theorem forall_list {motive : Fin list.arity → Prop}
    (head : motive ⟨0, by decide⟩) (tail : motive ⟨1, by decide⟩)
    (index : Fin list.arity) : motive index := by
  obtain ⟨value, below⟩ := index
  have few : value < 2 := below
  obtain rfl | rfl : value = 0 ∨ value = 1 := by omega
  · exact head
  · exact tail

end Symbol

/-- Trees are determined by their symbols and their children. -/
class TreeAlgebra (T : Type) where
  node : (symbol : Symbol) → (Fin symbol.arity → T) → T
  node_injective : Function.Injective
    fun shape : (symbol : Symbol) × (Fin symbol.arity → T) =>
      node shape.1 shape.2
  /-- Related trees are equal if their children are related again. -/
  bisimilar_eq : ∀ related : T → T → Prop,
    (∀ left right, related left right → left = right ∨
      ∃ symbol children others, left = node symbol children ∧
        right = node symbol others ∧
        ∀ index, related (children index) (others index)) →
    ∀ left right, related left right → left = right

namespace TreeAlgebra

variable {T : Type} [TreeAlgebra T]

theorem symbol_eq {symbol other : Symbol} {children : Fin symbol.arity → T}
    {others : Fin other.arity → T}
    (same : node symbol children = node other others) : symbol = other :=
  congrArg Sigma.fst
    (@node_injective T _ ⟨symbol, children⟩ ⟨other, others⟩ same)

theorem children_eq {symbol : Symbol} {children others : Fin symbol.arity → T}
    (same : node symbol children = node symbol others) : children = others := by
  have shapes := @node_injective T _ ⟨symbol, children⟩ ⟨symbol, others⟩ same
  simpa using shapes

end TreeAlgebra

/-- Trees of finite depth. -/
inductive FiniteTree where
  | node (symbol : Symbol) (children : Fin symbol.arity → FiniteTree)

namespace FiniteTree

theorem eq_of_bisimilar (related : FiniteTree → FiniteTree → Prop)
    (unfolds : ∀ left right, related left right → left = right ∨
      ∃ symbol children others, left = node symbol children ∧
        right = node symbol others ∧
        ∀ index, related (children index) (others index))
    (left right : FiniteTree) (holds : related left right) : left = right := by
  induction left generalizing right with
  | node symbol children ih =>
      rcases unfolds _ _ holds with same | ⟨_, _, others, shape, rfl, inner⟩
      · exact same
      · cases shape
        have equal : children = others :=
          funext fun index => ih index (others index) (inner index)
        rw [equal]

instance : TreeAlgebra FiniteTree where
  node := node
  node_injective := by
    rintro ⟨symbol, children⟩ ⟨other, others⟩ same
    cases same
    rfl
  bisimilar_eq := eq_of_bisimilar

instance : Inhabited FiniteTree := ⟨.node (.other 0) Fin.elim0⟩

/-- The number of nodes. -/
def size : FiniteTree → Nat
  | .node _ children => 1 + ∑ index, (children index).size

theorem size_pos (tree : FiniteTree) : 0 < tree.size := by
  cases tree
  rw [size]
  omega

end FiniteTree

/-- Trees of finite or infinite depth. -/
def Tree : Type :=
  PFunctor.M ⟨Symbol, fun symbol => Fin symbol.arity⟩

theorem Tree.eq_of_bisimilar (related : Tree → Tree → Prop)
    (unfolds : ∀ left right, related left right → left = right ∨
      ∃ symbol children others, left = PFunctor.M.mk ⟨symbol, children⟩ ∧
        right = PFunctor.M.mk ⟨symbol, others⟩ ∧
        ∀ index, related (children index) (others index))
    (left right : Tree) (holds : related left right) : left = right := by
  refine PFunctor.M.bisim (fun left right => left = right ∨ related left right)
    ?_ left right (.inr holds)
  have equal (tree : Tree) : ∃ symbol children others,
      PFunctor.M.dest tree = ⟨symbol, children⟩ ∧
        PFunctor.M.dest tree = ⟨symbol, others⟩ ∧
        ∀ index, children index = others index ∨
          related (children index) (others index) :=
    ⟨_, _, _, rfl, rfl, fun _ => .inl rfl⟩
  rintro left right (rfl | inside)
  · exact equal left
  · rcases unfolds left right inside with
      rfl | ⟨symbol, children, others, rfl, rfl, inner⟩
    · exact equal left
    · exact ⟨symbol, children, others, PFunctor.M.dest_mk _,
        PFunctor.M.dest_mk _, fun index => .inr (inner index)⟩

instance : TreeAlgebra Tree where
  node := fun symbol children => PFunctor.M.mk ⟨symbol, children⟩
  node_injective := by
    rintro ⟨symbol, children⟩ ⟨other, others⟩ same
    exact PFunctor.M.mk_inj same
  bisimilar_eq := Tree.eq_of_bisimilar

end LogicMachine
