import LogicMachine.Proofs.Unification.Comparison

/-!
# What one pair comes to

On a sound set of cells the two sides of a pair lead to roots.  A pair whose
roots are one cell is done.  If a root is an unbound variable, it is bound.
Two other nodes are compared, which leaves the store alone.  None of this
depends on which side stands first.
-/

namespace LogicMachine

namespace Store

variable {table : FunctorTable} {store : Store} {cells : Set Address}

/-- The arguments of a sound structure can be listed. -/
theorem Sound.arguments_eq (sound : store.Sound table cells)
    {header : Address} {functor : Functor}
    (known : table.functorAt store header = .ok functor)
    (inside : ∀ index < functor.arity, header.plus (index + 1) ∈ cells) :
    arguments header functor.arity =
      .ok ((List.range functor.arity).map fun index =>
        header.plus (index + 1)) := by
  obtain ⟨word, -, loaded, -⟩ := load_of_functorAt known
  have small : functor.arity < 2 ^ 31 := by
    refine arity_lt loaded fun index below => ?_
    obtain ⟨part, present, -⟩ := sound.formed _ (inside index below)
    exact ⟨part, present⟩
  exact Store.arguments_eq (isCell_of_load loaded).1 small

theorem Sound.shift_one (sound : store.Sound table cells)
    {address : Address} (inside : address ∈ cells) :
    address.shift 1 = .ok (address.plus 1) := by
  obtain ⟨word, loaded, -⟩ := sound.formed address inside
  exact (isCell_of_load loaded).1.shift_eq 1

end Store

section Pair

variable {table : FunctorTable} {store : Store} {cells : Set Address}
  {equation : Equation} {left right : Address}

/-- A pair whose sides lead to one cell is done. -/
theorem unifyPair_same (leftLeads : store.Leads equation.left left)
    (rightLeads : store.Leads equation.right left) :
    StoreM.unifyPair table equation store = .ok (some []) store := by
  simp only [StoreM.unifyPair, StoreM.deref, bind, EStateM.bind, StoreM.read,
    leftLeads.deref_eq, rightLeads.deref_eq]
  rfl

variable {leftWord rightWord : Word}

/-- A pair with an unbound variable is bound. -/
theorem unifyPair_variable (leftLeads : store.Leads equation.left left)
    (rightLeads : store.Leads equation.right right) (different : left ≠ right)
    (leftFound : store.load left = .ok leftWord)
    (rightFound : store.load right = .ok rightWord)
    (free : leftWord.cell.IsVariable ∨ rightWord.cell.IsVariable) :
    StoreM.unifyPair table equation store =
      (do
        StoreM.bindVariable table left right
        return some [] : StoreM (Option (List Equation))) store := by
  simp only [StoreM.unifyPair, StoreM.deref, StoreM.load, bind, EStateM.bind,
    StoreM.read, leftLeads.deref_eq, rightLeads.deref_eq, if_neg different,
    leftFound, rightFound]
  rcases free with ⟨target, refers⟩ | ⟨target, refers⟩
  · simp only [refers]
    rfl
  · cases leftWord.cell <;> simp only [refers] <;> rfl

/-- Nodes that are no variables are compared. -/
theorem unifyPair_values (sound : store.Sound table cells)
    (leftLeads : store.Leads equation.left left)
    (rightLeads : store.Leads equation.right right) (different : left ≠ right)
    (leftFound : store.load left = .ok leftWord)
    (rightFound : store.load right = .ok rightWord)
    (leftFormed : leftWord.cell.Sound table store cells)
    (rightFormed : rightWord.cell.Sound table store cells)
    (leftBound : ¬ leftWord.cell.IsVariable)
    (rightBound : ¬ rightWord.cell.IsVariable) :
    StoreM.unifyPair table equation store =
      .ok (Cell.compare table store leftWord.cell rightWord.cell) store := by
  simp only [StoreM.unifyPair, StoreM.deref, StoreM.load, bind, EStateM.bind,
    StoreM.read, leftLeads.deref_eq, rightLeads.deref_eq, if_neg different,
    leftFound, rightFound]
  cases leftDecoded : leftWord.cell with
  | reference target => exact absurd ⟨target, leftDecoded⟩ leftBound
  | functor _ =>
      cases rightDecoded : rightWord.cell with
      | reference target => exact absurd ⟨target, rightDecoded⟩ rightBound
      | _ => rfl
  | constant name =>
      cases rightDecoded : rightWord.cell with
      | reference target => exact absurd ⟨target, rightDecoded⟩ rightBound
      | _ => rfl
  | other payload =>
      cases rightDecoded : rightWord.cell with
      | reference target => exact absurd ⟨target, rightDecoded⟩ rightBound
      | _ => rfl
  | list pair =>
      cases rightDecoded : rightWord.cell with
      | reference target => exact absurd ⟨target, rightDecoded⟩ rightBound
      | list other =>
          rw [leftDecoded] at leftFormed
          rw [rightDecoded] at rightFormed
          by_cases same : pair = other
          · simp only [if_pos same, Cell.compare]
            rfl
          · simp only [if_neg same, Cell.compare, StoreM.ofExcept,
              sound.shift_one leftFormed.1,
              sound.shift_one rightFormed.1]
            rfl
      | _ => rfl
  | compound header =>
      cases rightDecoded : rightWord.cell with
      | reference target => exact absurd ⟨target, rightDecoded⟩ rightBound
      | compound other =>
          rw [leftDecoded] at leftFormed
          rw [rightDecoded] at rightFormed
          obtain ⟨-, functor, known, arguments⟩ := leftFormed
          obtain ⟨-, otherFunctor, otherKnown, others⟩ := rightFormed
          by_cases same : header = other
          · simp only [if_pos same, Cell.compare]
            rfl
          · simp only [if_neg same, Cell.compare, EStateM.bind, StoreM.read,
              known, otherKnown]
            by_cases alike : functor = otherFunctor
            · subst alike
              simp only [if_true, EStateM.bind, StoreM.ofExcept, StoreM.read,
                sound.arguments_eq known arguments,
                sound.arguments_eq otherKnown others]
              rw [List.zipWith_map, List.zipWith_self]
              rfl
            · simp only [if_neg alike]
              rfl
      | _ => rfl

/-- An address is its segment and its offset. -/
theorem Address.eq_of_parts {left right : Address}
    (segment : left.segment = right.segment)
    (offset : left.offset = right.offset) : left = right := by
  cases left <;> cases right <;>
    simp_all [Address.segment, Address.offset]
  rename_i first second
  revert offset
  cases first <;> cases second <;> decide

/-- Of two different addresses exactly one comes before the other. -/
theorem Address.before_eq_not {left right : Address}
    (different : left ≠ right) : left.before right = !right.before left := by
  by_cases same : left.segment = right.segment
  · have apart : left.offset ≠ right.offset :=
      fun equal => different (Address.eq_of_parts same equal)
    rcases Int32.lt_or_lt_of_ne apart with below | below
    · have notAbove : ¬ right.offset < left.offset :=
        Int32.not_lt.mpr (Int32.le_of_lt below)
      simp [before, same, below, notAbove]
    · have notAbove : ¬ left.offset < right.offset :=
        Int32.not_lt.mpr (Int32.le_of_lt below)
      simp [before, same, below, notAbove]
  · rcases UInt32.lt_or_lt_of_ne same with below | below
    · have notAbove : ¬ right.segment < left.segment :=
        UInt32.not_lt.mpr (UInt32.le_of_lt below)
      simp [before, below, notAbove, Ne.symm same]
    · have notAbove : ¬ left.segment < right.segment :=
        UInt32.not_lt.mpr (UInt32.le_of_lt below)
      simp [before, below, notAbove, same]

/-- It does not matter which of two roots is named first when a variable is
bound. -/
theorem bindVariable_swap (different : left ≠ right)
    (leftFound : store.load left = .ok leftWord)
    (rightFound : store.load right = .ok rightWord)
    (free : leftWord.cell.IsVariable ∨ rightWord.cell.IsVariable) :
    StoreM.bindVariable table right left store =
      StoreM.bindVariable table left right store := by
  have isVariable {word : Word} : word.tag = .reference ↔
      word.cell.IsVariable :=
    ⟨fun tagged => ⟨_, Word.tag_eq_reference_iff.mp tagged⟩,
      fun ⟨_, refers⟩ => Word.tag_of_cell refers⟩
  have order := Address.before_eq_not different
  simp only [StoreM.bindVariable, StoreM.load, bind, EStateM.bind,
    StoreM.read, leftFound, rightFound]
  by_cases leftFree : leftWord.tag = .reference
  · by_cases rightFree : rightWord.tag = .reference
    · cases earlier : left.before right with
      | true =>
          have later : right.before left = false := by
            rw [earlier] at order
            simpa using order.symm
          simp [leftFree, rightFree, later]
      | false =>
          have later : right.before left = true := by
            rw [earlier] at order
            simpa using order.symm
          simp [leftFree, rightFree, later]
    · simp [leftFree, rightFree]
  · have rightFree : rightWord.tag = .reference := by
      rw [← isVariable, ← isVariable] at free
      exact free.resolve_left leftFree
    simp [leftFree, rightFree]

/-- Working on a pair from the other side does the same, and leaves the same
equations with their sides changed. -/
theorem unifyPair_swap (sound : store.Sound table cells)
    (leftInside : equation.left ∈ cells)
    (rightInside : equation.right ∈ cells) :
    StoreM.unifyPair table equation.swap store =
      (Option.map (List.map Equation.swap) <$>
        StoreM.unifyPair table equation) store := by
  obtain ⟨left, leftLeads⟩ := sound.acyclic _ leftInside
  obtain ⟨right, rightLeads⟩ := sound.acyclic _ rightInside
  obtain ⟨leftWord, leftFound, -⟩ := leftLeads.root
  obtain ⟨rightWord, rightFound, -⟩ := rightLeads.root
  by_cases same : left = right
  · subst same
    rw [unifyPair_same rightLeads leftLeads]
    simp only [Functor.map, EStateM.map, unifyPair_same leftLeads rightLeads]
    rfl
  by_cases free : leftWord.cell.IsVariable ∨ rightWord.cell.IsVariable
  · rw [unifyPair_variable rightLeads leftLeads (Ne.symm same) rightFound
      leftFound free.symm]
    simp only [Functor.map, EStateM.map, unifyPair_variable leftLeads
      rightLeads same leftFound rightFound free, bind, EStateM.bind,
      bindVariable_swap same leftFound rightFound free]
    cases StoreM.bindVariable table left right store <;> rfl
  · rw [not_or] at free
    have leftFormed := sound.sound_of_at leftInside
      ⟨left, leftWord, leftLeads, leftFound, rfl⟩
    have rightFormed := sound.sound_of_at rightInside
      ⟨right, rightWord, rightLeads, rightFound, rfl⟩
    rw [unifyPair_values sound rightLeads leftLeads (Ne.symm same) rightFound
      leftFound rightFormed leftFormed free.2 free.1, Cell.compare_swap]
    simp only [Functor.map, EStateM.map, unifyPair_values sound leftLeads
      rightLeads same leftFound rightFound leftFormed rightFormed free.1 free.2]

end Pair

end LogicMachine
