import LogicMachine.Proofs.Unification.Solution

/-!
# Unification is most general

A store stands for its valuations.  Unification leaves exactly those of them
that make the two terms equal.  It ends if there is one of finite trees, and it
answers no only if there is none at all.
-/

namespace LogicMachine

namespace Store

theorem Extends.larger_eq {table : FunctorTable} {cells larger : Set Address}
    {before after : Store}
    (extended : Extends table .retained cells before larger after) :
    larger = cells ∪ before.addedTo after := by
  have grows := extended.grows
  apply Set.Subset.antisymm
  · intro address inside
    rcases extended.fresh address inside with old | new
    · exact .inl old
    · refine .inr ⟨extended.closed.inside inside, ?_,
        extended.closed.not_isHeader inside⟩
      exact fun old => not_above_of_allocated old new
  · rintro address (old | ⟨inUseLater, notBefore, isTerm⟩)
    · exact extended.more old
    · obtain ⟨index, rfl, above⟩ :=
        grows.above_of_allocated inUseLater notBefore
      rw [allocated_below] at inUseLater
      exact (extended.covered index above inUseLater).resolve_right
        fun copy => isTerm copy.isHeader

/-- A reduction to no equations leaves the solutions of the given one. -/
theorem Reduces.valuations_eq {T : Type} [TreeAlgebra T]
    {table : FunctorTable} {cells larger : Set Address} {before after : Store}
    {left right : Address} (leftInside : left ∈ cells)
    (rightInside : right ∈ cells)
    (reduces : Reduces T table cells before larger after [⟨left, right⟩] []) :
    after.valuations T table larger cells =
      { known ∈ before.valuations T table cells cells |
        known ⟨left, leftInside⟩ = known ⟨right, rightInside⟩ } := by
  ext known
  constructor
  · rintro ⟨value, respects, same⟩
    obtain ⟨respected, holds⟩ := reduces.sound value respects nofun
    refine ⟨⟨value, respected, same⟩, ?_⟩
    rw [same, same]
    exact holds _ List.mem_cons_self
  · rintro ⟨⟨value, respects, same⟩, equal⟩
    rw [same, same] at equal
    have holds : ∀ equation ∈ [Equation.mk left right],
        equation.Holds value := by
      intro equation member
      cases List.mem_singleton.mp member
      exact equal
    obtain ⟨later, respected, -, agrees⟩ :=
      reduces.complete value respects holds
    refine ⟨later, respected, ?_⟩
    intro address
    rw [same, agrees address address.property]

end Store

/-- If two cells have the same finite tree in some valuation, their unification
ends with success, unless it comes to a pair in which a retained variable has to
be bound to a term whose copy does not fit. -/
theorem StoreM.unify_succeeds {table : FunctorTable} {store : Store}
    {cells : Set Address} (wellFormed : store.WellFormed table cells)
    (small : store.retained.size < 2 ^ 31) {left right : Address}
    (leftInside : left ∈ cells) (rightInside : right ∈ cells)
    {value : Address → FiniteTree} (respects : store.Respects table cells value)
    (equal : value left = value right) {steps : Nat}
    (enough : steps ≥ (value left).size) :
    (∃ after, unify table steps left right store = .ok true after) ∨
      (∃ after, unify table steps left right store =
        .error (.exhausted .retained store.retained.size) after) ∧
      store.Jams table [⟨left, right⟩] := by
  have holds : ∀ equation ∈ [Equation.mk left right],
      equation.Holds value := by
    simpa [Equation.Holds] using equal
  have ended := @unifyAll_ends FiniteTree _ _ _ _ [⟨left, right⟩] steps
    wellFormed small (by simp [leftInside, rightInside])
  unfold unify
  cases outcome : unifyAll table steps [⟨left, right⟩] store with
  | ok success after =>
      rw [outcome] at ended
      cases success with
      | true => exact .inl ⟨after, rfl⟩
      | false => exact absurd holds (ended value respects)
  | error fault after =>
      rw [outcome] at ended
      rcases ended with ⟨rfl, jams⟩ | ⟨rfl, stuck⟩
      · exact .inr ⟨⟨after, rfl⟩, jams⟩
      · have few := stuck FiniteTree.size FiniteTree.measures value respects
          holds
        simp only [totalSize, List.map_cons, List.map_nil, List.sum_cons,
          List.sum_nil] at few
        omega

/-- Unification computes the most general solution.  If two cells have the same
finite tree in some valuation, it ends with success, unless it comes to a pair
in which a retained variable has to be bound to a term whose copy does not fit.
When it succeeds the valuations that are left are those that make the cells
equal, and when it fails there are none. -/
theorem StoreM.unify_mostGeneral {table : FunctorTable} {store : Store}
    {cells : Set Address} (wellFormed : store.WellFormed table cells)
    (small : store.retained.size < 2 ^ 31) {left right : Address}
    (leftInside : left ∈ cells) (rightInside : right ∈ cells) :
    (∀ value : Address → FiniteTree, store.Respects table cells value →
      value left = value right → ∀ steps ≥ (value left).size,
        (∃ after, unify table steps left right store = .ok true after) ∨
          (∃ after, unify table steps left right store =
            .error (.exhausted .retained store.retained.size) after) ∧
          store.Jams table [⟨left, right⟩]) ∧
    (∀ steps after, unify table steps left right store = .ok true after →
      after.WellFormed table (cells ∪ store.addedTo after) ∧
        after.valuations Tree table (cells ∪ store.addedTo after) cells =
          { known ∈ store.valuations Tree table cells cells |
            known ⟨left, leftInside⟩ = known ⟨right, rightInside⟩ }) ∧
    (∀ steps after, unify table steps left right store = .ok false after →
      ∀ value : Address → Tree, store.Respects table cells value →
        value left ≠ value right) := by
  have sides : ∀ equation ∈ [Equation.mk left right],
      equation.left ∈ cells ∧ equation.right ∈ cells := by
    intro equation member
    cases List.mem_singleton.mp member
    exact ⟨leftInside, rightInside⟩
  refine ⟨fun value respects equal steps enough => unify_succeeds wellFormed
    small leftInside rightInside respects equal enough, ?_, ?_⟩
  · intro steps after succeeded
    have ended := unifyAll_ends Tree steps wellFormed small sides
    rw [show unifyAll table steps [⟨left, right⟩] store = .ok true after from
      succeeded] at ended
    obtain ⟨larger, extended, reduces, -⟩ := ended
    rw [← extended.larger_eq]
    exact ⟨extended.wellFormed wellFormed.acyclic,
      reduces.valuations_eq leftInside rightInside⟩
  · intro steps after failed value respects equal
    have ended := unifyAll_ends Tree steps wellFormed small sides
    rw [show unifyAll table steps [⟨left, right⟩] store = .ok false after from
      failed] at ended
    exact ended value respects (by simpa [Equation.Holds] using equal)

/-- The tree that makes the variable equal to the list pair. -/
def partialListValue (address : Address) : FiniteTree :=
  let item := FiniteTree.node (.constant ⟨0⟩) Fin.elim0
  if address = .heap 1 ∨ address = .heap 2 then item
  else .node .list fun _ => item

theorem partialListValue_respects :
    partialList.Respects .empty partialListCells partialListValue := by
  have first : partialList.load (.heap 0) = .ok (Word.list (.heap 1)) := rfl
  have second : partialList.load (.heap 1) = .ok (Word.constant ⟨0⟩) := rfl
  have third : partialList.load (.heap 2) =
      .ok (Word.reference (.heap 2)) := rfl
  have fourth : partialList.load (.retained 0) =
      .ok (Word.reference (.retained 0)) := rfl
  rintro address (rfl | rfl | rfl | rfl) word found
  · rw [first] at found
    cases found
    simp only [Word.Denotes, Word.cell_list]
    have parts : (fun index : Fin 2 =>
        partialListValue ((Address.heap 1).plus index)) =
        fun _ => FiniteTree.node (.constant ⟨0⟩) Fin.elim0 := by
      funext index
      obtain rfl | rfl : index = 0 ∨ index = 1 := by omega
      · rfl
      · rfl
    exact (congrArg (FiniteTree.node .list) parts).symm
  · rw [second] at found
    cases found
    simp only [Word.Denotes, Word.cell_constant]
    rfl
  · rw [third] at found
    cases found
    simp [Word.Denotes]
  · rw [fourth] at found
    cases found
    simp [Word.Denotes]

/-- The variable can be bound to a copy of the list. -/
theorem partialList_not_jams :
    ¬ partialList.Jams .empty [⟨.retained 0, .heap 0⟩] := by
  have variableFound : partialList.load (.retained 0) =
      .ok (Word.reference (.retained 0)) := rfl
  have listFound : partialList.load (.heap 0) =
      .ok (Word.list (.heap 1)) := rfl
  have variableLeads : partialList.Leads (.retained 0) (.retained 0) :=
    .here ⟨_, variableFound, by simp⟩
  have listLeads : partialList.Leads (.heap 0) (.heap 0) :=
    .here ⟨_, listFound, by simp⟩
  rintro ⟨equation, rest, middle, worked, left, right, leftLeads, rightLeads,
    crowded⟩
  cases worked with
  | refl =>
      cases leftLeads.unique variableLeads
      cases rightLeads.unique listLeads
      rcases crowded with ⟨-, -, -, word, found, -, exceeds⟩ | ⟨isRetained, -⟩
      · cases found.symm.trans listFound
        exact partialList_not_exceeds .share exceeds
      · cases isRetained
  | step worked onward =>
      rw [unifyPair_variable variableLeads listLeads (by decide) variableFound
        listFound (.inl ⟨_, Word.cell_reference _⟩)] at worked
      simp only [bind, EStateM.bind, pure, EStateM.pure] at worked
      split at worked
      · cases worked
        -- No pair is left after the variable was bound.
        rw [List.append_nil] at onward
        cases onward
      · cases worked

theorem mem_partialListCells :
    .retained 0 ∈ partialListCells ∧ .heap 0 ∈ partialListCells := by
  simp [partialListCells]

theorem partialList_unifies {steps : Nat}
    (enough : steps ≥ (partialListValue (.retained 0)).size) :
    ∃ after, StoreM.unify .empty steps (.retained 0) (.heap 0) partialList =
      .ok true after :=
  (StoreM.unify_succeeds partialList_wellFormed (by decide)
    mem_partialListCells.1 mem_partialListCells.2 partialListValue_respects rfl
    enough).resolve_right fun full => partialList_not_jams full.2

/-- The retained variable is bound to a copy of the list, which leaves the
valuations that make the two equal. -/
theorem StoreM.unify_mostGeneral_partialList :
    partialList.WellFormed .empty partialListCells ∧
      partialList.Respects .empty partialListCells partialListValue ∧
      partialListValue (.retained 0) = partialListValue (.heap 0) ∧
      ∀ steps ≥ (partialListValue (.retained 0)).size, ∃ after,
        unify .empty steps (.retained 0) (.heap 0) partialList =
            .ok true after ∧
          after.valuations Tree .empty
              (partialListCells ∪ partialList.addedTo after) partialListCells =
            { known ∈ partialList.valuations Tree .empty partialListCells
                partialListCells |
              known ⟨.retained 0, mem_partialListCells.1⟩ =
                known ⟨.heap 0, mem_partialListCells.2⟩ } := by
  refine ⟨partialList_wellFormed, partialListValue_respects, rfl, ?_⟩
  intro steps enough
  obtain ⟨ends, keeps, -⟩ := unify_mostGeneral partialList_wellFormed
    (by decide) mem_partialListCells.1 mem_partialListCells.2
  obtain ⟨after, solved⟩ := (ends partialListValue partialListValue_respects rfl
    steps enough).resolve_right fun full => partialList_not_jams full.2
  exact ⟨after, solved, (keeps steps after solved).2⟩

end LogicMachine
