import LogicMachine.Proofs.Copy.Isomorphism

/-!
# Comparing two nodes

Two nodes that are no variables clash, or they agree and the equations of their
parts are left.  They have the same tree exactly if they agree and the equations
hold, and the trees of the parts are smaller.
-/

namespace LogicMachine

namespace Equation

/-- The equation with its sides in each other's places. -/
def swap (equation : Equation) : Equation :=
  ⟨equation.right, equation.left⟩

end Equation

/-- The cells of equally long rows, side by side. -/
def sideBySide (header other : Address) (arity : Nat) : List Equation :=
  (List.range arity).map fun index =>
    ⟨header.plus (index + 1), other.plus (index + 1)⟩

theorem sideBySide_swap (header other : Address) (arity : Nat) :
    (sideBySide header other arity).map Equation.swap =
      sideBySide other header arity := by
  simp [sideBySide, Equation.swap]

/-- Compares two nodes that are no variables: what is left are the equations of
their parts, unless the nodes clash. -/
def Cell.compare (table : FunctorTable) (store : Store) (node other : Cell) :
    Option (List Equation) :=
  match node, other with
  | .constant name, .constant otherName =>
      if name = otherName then some [] else none
  | .list pair, .list otherPair =>
      if pair = otherPair then some []
      else some [⟨pair, otherPair⟩, ⟨pair.plus 1, otherPair.plus 1⟩]
  | .compound header, .compound otherHeader =>
      if header = otherHeader then some []
      else
        match table.functorAt store header,
          table.functorAt store otherHeader with
        | .ok found, .ok otherFound =>
            if found = otherFound then
              some (sideBySide header otherHeader found.arity)
            else none
        | _, _ => none
  | .other payload, .other otherPayload =>
      if payload = otherPayload then some [] else none
  | _, _ => none

/-- A node that is an unbound variable. -/
def Cell.IsVariable (node : Cell) : Prop :=
  ∃ target, node = .reference target

/-- Nodes that agree are one node, or two list pairs, or two structures with the
same functor. -/
theorem Cell.compare_cases {table : FunctorTable} {store : Store}
    {node other : Cell} {arguments : List Equation}
    (compared : Cell.compare table store node other = some arguments) :
    (node = other ∧ arguments = []) ∨
    (∃ pair otherPair, node = .list pair ∧ other = .list otherPair ∧
      arguments = [⟨pair, otherPair⟩, ⟨pair.plus 1, otherPair.plus 1⟩]) ∨
    ∃ header otherHeader functor, node = .compound header ∧
      other = .compound otherHeader ∧
      table.functorAt store header = .ok functor ∧
      table.functorAt store otherHeader = .ok functor ∧
      arguments = sideBySide header otherHeader functor.arity := by
  unfold compare at compared
  split at compared
  case h_2 pair otherPair =>
    split at compared
    case isTrue same =>
      cases compared
      exact .inl ⟨by rw [same], rfl⟩
    case isFalse =>
      cases compared
      exact .inr (.inl ⟨pair, otherPair, rfl, rfl, rfl⟩)
  case h_3 header otherHeader =>
    split at compared
    case isTrue same =>
      cases compared
      exact .inl ⟨by rw [same], rfl⟩
    case isFalse =>
      split at compared
      case h_1 functor otherFunctor known otherKnown =>
        split at compared
        case isTrue same =>
          subst same
          cases compared
          exact .inr (.inr
            ⟨header, otherHeader, functor, rfl, rfl, known, otherKnown, rfl⟩)
        case isFalse => cases compared
      case h_2 => cases compared
  case h_5 => cases compared
  all_goals
    simp only [Option.ite_none_right_eq_some, Option.some.injEq] at compared
    exact .inl ⟨by rw [compared.1], compared.2.symm⟩

theorem Cell.compare_swap (table : FunctorTable) (store : Store)
    (node other : Cell) :
    Cell.compare table store other node =
      (Cell.compare table store node other).map (List.map Equation.swap) := by
  cases node with
  | reference _ | functor _ => cases other <;> rfl
  | constant name =>
      cases other with
      | constant otherName =>
          by_cases same : name = otherName
          · simp [compare, same]
          · simp [compare, same, Ne.symm same]
      | _ => rfl
  | list pair =>
      cases other with
      | list otherPair =>
          by_cases same : pair = otherPair
          · simp [compare, same]
          · simp [compare, same, Ne.symm same, Equation.swap]
      | _ => rfl
  | other payload =>
      cases other with
      | other otherPayload =>
          by_cases same : payload = otherPayload
          · simp [compare, same]
          · simp [compare, same, Ne.symm same]
      | _ => rfl
  | compound header =>
      cases other with
      | compound otherHeader =>
          by_cases same : header = otherHeader
          · simp [compare, same]
          · simp only [compare, same, Ne.symm same, if_false]
            cases table.functorAt store header with
            | error fault =>
                cases table.functorAt store otherHeader <;> rfl
            | ok functor =>
                cases table.functorAt store otherHeader with
                | error fault => rfl
                | ok otherFunctor =>
                    by_cases alike : functor = otherFunctor
                    · simp [alike, sideBySide_swap]
                    · simp [alike, Ne.symm alike]
      | _ => rfl

/-- The parts of a sound node that are left when it was compared are cells. -/
theorem Store.compare_sides {table : FunctorTable} {store : Store}
    {cells : Set Address} {node other : Cell}
    (formed : node.Sound table store cells)
    (otherFormed : other.Sound table store cells) {arguments : List Equation}
    (compared : Cell.compare table store node other = some arguments) :
    ∀ equation ∈ arguments,
      equation.left ∈ cells ∧ equation.right ∈ cells := by
  intro equation member
  rcases Cell.compare_cases compared with ⟨-, rfl⟩ |
    ⟨pair, otherPair, rfl, rfl, rfl⟩ |
    ⟨header, otherHeader, functor, rfl, rfl, known, otherKnown, rfl⟩
  · simp at member
  · rcases List.mem_cons.mp member with rfl | last
    · exact ⟨formed.1, otherFormed.1⟩
    · cases List.mem_singleton.mp last
      exact ⟨formed.2, otherFormed.2⟩
  · obtain ⟨index, below, rfl⟩ := List.mem_map.mp member
    rw [List.mem_range] at below
    obtain ⟨-, _, same, arguments⟩ := formed
    cases known.symm.trans same
    obtain ⟨-, _, same, others⟩ := otherFormed
    cases otherKnown.symm.trans same
    exact ⟨arguments index below, others index below⟩

/-! ## Trees -/

section Trees

variable {T : Type} [TreeAlgebra T] {table : FunctorTable} {store : Store}

/-- The symbols that a word may stand for. -/
def Word.Heads (word : Word) (symbol : Symbol) : Prop :=
  match word.cell, symbol with
  | .constant id, .constant other => id = other
  | .other payload, .other other => payload = other
  | .list _, .list => True
  | .compound _, .compound _ => True
  | _, _ => False

theorem Word.Denotes.heads {word : Word}
    {value : Address → T} {tree : T}
    (denotes : word.Denotes table store value tree)
    (noReference : ∀ next, word.cell ≠ .reference next) :
    ∃ symbol children, tree = TreeAlgebra.node symbol children ∧
      word.Heads symbol := by
  unfold Word.Denotes at denotes
  cases decoded : word.cell with
  | reference next => exact absurd decoded (noReference next)
  | functor _ => simp [decoded] at denotes
  | compound header =>
      simp only [decoded] at denotes
      obtain ⟨functor, -, rfl⟩ := denotes
      exact ⟨_, _, rfl, by simp [Word.Heads, decoded]⟩
  | _ =>
      simp only [decoded] at denotes
      exact ⟨_, _, denotes, by simp [Word.Heads, decoded]⟩

namespace Word.Heads

variable {word : Word}

theorem constant {id : FunctorId} (heads : word.Heads (.constant id)) :
    word.cell = .constant id := by
  unfold Word.Heads at heads
  cases decoded : word.cell <;> simp_all

theorem other {payload : UInt64} (heads : word.Heads (.other payload)) :
    word.cell = .other payload := by
  unfold Word.Heads at heads
  cases decoded : word.cell <;> simp_all

theorem list (heads : word.Heads .list) : ∃ pair, word.cell = .list pair := by
  unfold Word.Heads at heads
  cases decoded : word.cell <;> simp_all

theorem compound {functor : Functor} (heads : word.Heads (.compound functor)) :
    ∃ header, word.cell = .compound header := by
  unfold Word.Heads at heads
  cases decoded : word.cell <;> simp_all

end Word.Heads

/-- Nodes with the same tree are alike, and their parts have the same trees. -/
theorem compare_eq_some {node other : Word} {value : Address → T} {tree : T}
    (denotes : node.Denotes table store value tree)
    (otherDenotes : other.Denotes table store value tree)
    (bound : ¬ node.cell.IsVariable) (otherBound : ¬ other.cell.IsVariable) :
    ∃ arguments, Cell.compare table store node.cell other.cell =
        some arguments ∧
      ∀ equation ∈ arguments, equation.Holds value := by
  obtain ⟨symbol, children, shape, heads⟩ :=
    denotes.heads fun next refers => bound ⟨next, refers⟩
  obtain ⟨_, others, otherShape, otherHeads⟩ :=
    otherDenotes.heads fun next refers => otherBound ⟨next, refers⟩
  cases TreeAlgebra.symbol_eq (shape.symm.trans otherShape)
  cases symbol with
  | constant id =>
      rw [heads.constant, otherHeads.constant]
      exact ⟨[], by simp [Cell.compare], nofun⟩
  | other payload =>
      rw [heads.other, otherHeads.other]
      exact ⟨[], by simp [Cell.compare], nofun⟩
  | list =>
      obtain ⟨pair, isPair⟩ := heads.list
      obtain ⟨otherPair, isOtherPair⟩ := otherHeads.list
      simp only [Word.Denotes, isPair] at denotes
      simp only [Word.Denotes, isOtherPair] at otherDenotes
      have children := TreeAlgebra.children_eq (denotes.symm.trans otherDenotes)
      rw [isPair, isOtherPair]
      by_cases same : pair = otherPair
      · exact ⟨[], by simp [Cell.compare, same], nofun⟩
      · refine ⟨[⟨pair, otherPair⟩, ⟨pair.plus 1, otherPair.plus 1⟩],
          by simp [Cell.compare, same], ?_⟩
        intro equation member
        rcases List.mem_cons.mp member with rfl | last
        · simpa [Equation.Holds] using congrFun children ⟨0, by decide⟩
        · cases List.mem_singleton.mp last
          exact congrFun children ⟨1, by decide⟩
  | compound functor =>
      obtain ⟨header, isHeader⟩ := heads.compound
      obtain ⟨otherHeader, isOtherHeader⟩ := otherHeads.compound
      simp only [Word.Denotes, isHeader] at denotes
      simp only [Word.Denotes, isOtherHeader] at otherDenotes
      obtain ⟨named, known, named_tree⟩ := denotes
      obtain ⟨otherNamed, otherKnown, otherTree⟩ := otherDenotes
      have sameTree := named_tree.symm.trans otherTree
      cases TreeAlgebra.symbol_eq sameTree
      have children := TreeAlgebra.children_eq sameTree
      rw [isHeader, isOtherHeader]
      by_cases same : header = otherHeader
      · exact ⟨[], by simp [Cell.compare, same], nofun⟩
      · refine ⟨sideBySide header otherHeader named.arity,
          by simp [Cell.compare, same, known, otherKnown], ?_⟩
        intro equation member
        obtain ⟨index, below, rfl⟩ := List.mem_map.mp member
        exact congrFun children ⟨index, List.mem_range.mp below⟩

/-- Two nodes whose parts have the same trees have the same tree. -/
theorem compare_holds {node other : Word} {value : Address → T}
    {left right : T} {arguments : List Equation}
    (compared : Cell.compare table store node.cell other.cell =
      some arguments)
    (denotes : node.Denotes table store value left)
    (otherDenotes : other.Denotes table store value right)
    (holds : ∀ equation ∈ arguments, equation.Holds value) : left = right := by
  rcases Cell.compare_cases compared with ⟨same, -⟩ |
    ⟨pair, otherPair, isPair, isOtherPair, rfl⟩ |
    ⟨header, otherHeader, functor, isHeader, isOther, known, otherKnown, rfl⟩
  · exact denotes.unique (otherDenotes.of_cell same)
  · simp only [Word.Denotes, isPair] at denotes
    simp only [Word.Denotes, isOtherPair] at otherDenotes
    rw [denotes, otherDenotes]
    congr 1
    funext index
    induction index using Symbol.forall_list with
    | head => simpa [Equation.Holds] using holds _ List.mem_cons_self
    | tail => exact holds ⟨pair.plus 1, otherPair.plus 1⟩ (by simp)
  · simp only [Word.Denotes, isHeader, known] at denotes
    simp only [Word.Denotes, isOther, otherKnown] at otherDenotes
    obtain ⟨_, same, rfl⟩ := denotes
    cases same
    obtain ⟨_, same, rfl⟩ := otherDenotes
    cases same
    congr 1
    funext index
    exact holds ⟨header.plus (index + 1), otherHeader.plus (index + 1)⟩
      (List.mem_map.mpr ⟨index, List.mem_range.mpr index.isLt, rfl⟩)

end Trees

/-! ## Sizes -/

/-- A size of trees: every node is larger than its children together. -/
structure Measures {T : Type} [TreeAlgebra T] (size : T → Nat) : Prop where
  positive : ∀ tree, 0 < size tree
  children : ∀ symbol (parts : Fin symbol.arity → T),
    ∑ index, size (parts index) < size (TreeAlgebra.node symbol parts)

theorem FiniteTree.measures : Measures FiniteTree.size where
  positive := FiniteTree.size_pos
  children := by
    intro symbol parts
    show _ < (FiniteTree.node symbol parts).size
    rw [FiniteTree.size]
    omega

/-- The size of the left sides of equations. -/
def totalSize {T : Type} (size : T → Nat) (value : Address → T)
    (equations : List Equation) : Nat :=
  (equations.map fun equation => size (value equation.left)).sum

@[simp]
theorem totalSize_cons {T : Type} (size : T → Nat) (value : Address → T)
    (equation : Equation) (rest : List Equation) :
    totalSize size value (equation :: rest) =
      size (value equation.left) + totalSize size value rest :=
  rfl

@[simp]
theorem totalSize_append {T : Type} (size : T → Nat) (value : Address → T)
    (first second : List Equation) :
    totalSize size value (first ++ second) =
      totalSize size value first + totalSize size value second := by
  simp [totalSize]

theorem sum_map_range (count : Nat) (amount : Nat → Nat) :
    ((List.range count).map amount).sum = ∑ index : Fin count, amount index := by
  induction count with
  | zero => rfl
  | succ count ih =>
      rw [List.range_succ, List.map_append, List.sum_append, ih,
        Fin.sum_univ_castSucc]
      simp

/-- The trees of the parts are smaller together than that of the node. -/
theorem compare_size {T : Type} [TreeAlgebra T] {table : FunctorTable}
    {store : Store} {node other : Word} {value : Address → T} {tree : T}
    {arguments : List Equation}
    (compared : Cell.compare table store node.cell other.cell = some arguments)
    {size : T → Nat} (measures : Measures size)
    (denotes : node.Denotes table store value tree) :
    totalSize size value arguments < size tree := by
  rcases Cell.compare_cases compared with ⟨-, rfl⟩ |
    ⟨pair, otherPair, isPair, -, rfl⟩ |
    ⟨header, otherHeader, functor, isHeader, -, known, -, rfl⟩
  · exact measures.positive tree
  · simp only [Word.Denotes, isPair] at denotes
    have less := measures.children .list fun index => value (pair.plus index)
    rw [denotes]
    refine Nat.lt_of_le_of_lt (Nat.le_of_eq ?_) less
    have sizes := sum_map_range 2 fun index => size (value (pair.plus index))
    refine Eq.trans ?_ sizes
    simp [totalSize, List.range_succ]
  · simp only [Word.Denotes, isHeader, known] at denotes
    obtain ⟨_, same, rfl⟩ := denotes
    cases same
    have less := measures.children (.compound functor)
      fun index => value (header.plus (index + 1))
    refine Nat.lt_of_le_of_lt (Nat.le_of_eq ?_) less
    have sizes := sum_map_range functor.arity fun index =>
      size (value (header.plus (index + 1)))
    refine Eq.trans ?_ sizes
    simp [totalSize, sideBySide, Function.comp_def]

end LogicMachine
