import LogicMachine.Proofs.Unification.Developing
import LogicMachine.Proofs.Unification.Divergence
import LogicMachine.Proofs.Unification.MostGeneral

/-!
# Unification is symmetric

Each pair is worked on in the same way from either side.  So two unifications
that differ only in the sides of their equations go through the same stores and
end in the same way.
-/

namespace LogicMachine

section Symmetric

variable {table : FunctorTable} {cells : Set Address} {before : Store}

/-- Changing the sides of the equations changes nothing. -/
theorem unifyAll_swap (steps : Nat) (sound : before.Sound table cells)
    (small : before.capacity .retained < 2 ^ 31) {equations : List Equation}
    (sides : ∀ equation ∈ equations,
      equation.left ∈ cells ∧ equation.right ∈ cells) :
    StoreM.unifyAll table steps (equations.map Equation.swap) before =
      StoreM.unifyAll table steps equations before := by
  induction steps generalizing equations cells before with
  | zero => cases equations <;> rfl
  | succ steps ih =>
      cases equations with
      | nil => rfl
      | cons equation rest =>
          obtain ⟨leftInside, rightInside⟩ := sides equation List.mem_cons_self
          have settled := unifyPair_settles sound small leftInside rightInside
          simp only [List.map_cons, StoreM.unifyAll, bind, EStateM.bind,
            unifyPair_swap sound leftInside rightInside, Functor.map,
            EStateM.map]
          cases worked : StoreM.unifyPair table equation before with
          | error fault middle => rfl
          | ok outcome middle =>
              cases outcome with
              | none => rfl
              | some arguments =>
                  rw [worked] at settled
                  obtain ⟨larger, developed, argumentSides, -⟩ :=
                    settled arguments rfl
                  simp only [Option.map_some, ← List.map_append]
                  refine ih developed.sound (developed.room small) ?_
                  intro other member
                  rcases List.mem_append.mp member with new | old
                  · exact argumentSides other new
                  · obtain ⟨first, second⟩ :=
                      sides other (List.mem_cons_of_mem _ old)
                    exact ⟨developed.more first, developed.more second⟩

/-- How a unification and the one with its sides in each other's places end if
they may take as many steps as they like: both go on for ever, both run out of
retained cells, or both have the same answer.  They leave the same store. -/
theorem unify_outcomes (sound : before.Sound table cells)
    (small : before.retained.size < 2 ^ 31) {left right : Address}
    (leftInside : left ∈ cells) (rightInside : right ∈ cells) :
    (∀ steps, ∃ after,
      StoreM.unify table steps left right before = .error .diverged after ∧
      StoreM.unify table steps right left before = .error .diverged after) ∨
    ∃ enough after,
      (∀ steps ≥ enough,
        StoreM.unify table steps left right before =
            .error (.exhausted .retained before.retained.size) after ∧
          StoreM.unify table steps right left before =
            .error (.exhausted .retained before.retained.size) after) ∨
      ∃ answer, ∀ steps ≥ enough,
        StoreM.unify table steps left right before = .ok answer after ∧
          StoreM.unify table steps right left before = .ok answer after := by
  have sides : ∀ equation ∈ [Equation.mk left right],
      equation.left ∈ cells ∧ equation.right ∈ cells := by
    intro equation member
    cases List.mem_singleton.mp member
    exact ⟨leftInside, rightInside⟩
  have same (steps : Nat) : StoreM.unify table steps right left before =
      StoreM.unify table steps left right before :=
    unifyAll_swap steps sound small sides
  simp only [same, and_self]
  by_cases endless : ∀ steps, ∃ after,
      StoreM.unify table steps left right before = .error .diverged after
  · exact .inl endless
  · refine .inr ?_
    obtain ⟨enough, ends⟩ := not_forall.mp endless
    have later (steps : Nat) (more : steps ≥ enough) :
        StoreM.unify table steps left right before =
          StoreM.unify table enough left right before :=
      unifyAll_more more fun after stopped => ends ⟨after, stopped⟩
    have settled := unifyAll_settles enough sound small sides
    cases outcome : StoreM.unify table enough left right before with
    | ok answer after =>
        exact ⟨enough, after, .inr ⟨answer, fun steps more =>
          (later steps more).trans outcome⟩⟩
    | error fault after =>
        unfold StoreM.unify at outcome
        rw [outcome] at settled
        rcases settled with rfl | full
        · exact absurd ⟨after, outcome⟩ ends
        · cases full
          exact ⟨enough, after, .inl fun steps more =>
            (later steps more).trans outcome⟩

end Symmetric

namespace MachineM

theorem onStore_ok {machine : Machine} {action : FunctorTable → StoreM α}
    {value : α} {after : Store}
    (ended : action machine.program.functors machine.store = .ok value after) :
    onStore action machine = .ok value { machine with store := after } := by
  simp only [onStore, ended]

theorem onStore_error {machine : Machine} {action : FunctorTable → StoreM α}
    {fault : Fault} {after : Store}
    (ended : action machine.program.functors machine.store =
      .error fault after) :
    onStore action machine = .error fault { machine with store := after } := by
  simp only [onStore, ended]

/-- Unification is symmetric.  On a machine with a sound store, which may hold
cyclic terms, unifying two cells from either side goes on for ever, runs out of
retained cells, or gives the same answer, and both leave the same machine. -/
theorem unify_symmetric {machine : Machine} {cells : Set Address}
    (sound : machine.store.Sound machine.program.functors cells)
    (small : machine.store.retained.size < 2 ^ 31) {left right : Address}
    (leftInside : left ∈ cells) (rightInside : right ∈ cells) :
    (∀ steps, ∃ after,
      unify steps left right machine = .error .diverged after ∧
        unify steps right left machine = .error .diverged after) ∨
    ∃ enough after,
      (∃ capacity, ∀ steps ≥ enough,
        unify steps left right machine =
            .error (.exhausted .retained capacity) after ∧
          unify steps right left machine =
            .error (.exhausted .retained capacity) after) ∨
      ∃ answer, ∀ steps ≥ enough,
        unify steps left right machine = .ok answer after ∧
          unify steps right left machine = .ok answer after := by
  rcases unify_outcomes sound small leftInside rightInside with
    endless | ⟨enough, after, full | ⟨answer, ended⟩⟩
  · refine .inl fun steps => ?_
    obtain ⟨after, first, second⟩ := endless steps
    exact ⟨_, onStore_error first, onStore_error second⟩
  · exact .inr ⟨enough, { machine with store := after }, .inl ⟨_,
      fun steps more =>
        ⟨onStore_error (full steps more).1, onStore_error (full steps more).2⟩⟩⟩
  · exact .inr ⟨enough, { machine with store := after }, .inr ⟨answer,
      fun steps more =>
        ⟨onStore_ok (ended steps more).1, onStore_ok (ended steps more).2⟩⟩⟩

/-- A machine that runs no program on the partial list. -/
def partialListMachine : Machine where
  store := partialList
  registers := .initial
  program := .empty 4 .silent
  collectors := []

/-- A retained variable and a list pair, which is copied whichever of the two
comes first. -/
theorem unify_symmetric_partialList :
    partialListMachine.store.Sound partialListMachine.program.functors
        partialListCells ∧
      partialListMachine.store.retained.size < 2 ^ 31 ∧
      Address.retained 0 ∈ partialListCells ∧
      Address.heap 0 ∈ partialListCells ∧
      ∃ enough after, ∀ steps ≥ enough,
        unify steps (.retained 0) (.heap 0) partialListMachine =
            .ok true after ∧
          unify steps (.heap 0) (.retained 0) partialListMachine =
            .ok true after := by
  refine ⟨partialList_wellFormed.sound, by decide, mem_partialListCells.1,
    mem_partialListCells.2, ?_⟩
  have succeeds {steps : Nat}
      (enough : steps ≥ (partialListValue (.retained 0)).size) :
      ∃ after, unify steps (.retained 0) (.heap 0) partialListMachine =
        .ok true after := by
    obtain ⟨after, solved⟩ := partialList_unifies enough
    exact ⟨_, onStore_ok solved⟩
  rcases @unify_symmetric partialListMachine _ partialList_wellFormed.sound
      (by decide) _ _ mem_partialListCells.1 mem_partialListCells.2 with
    endless | ⟨enough, after, ⟨capacity, full⟩ | ⟨answer, ended⟩⟩
  · obtain ⟨_, solved⟩ := succeeds (Nat.le_refl _)
    obtain ⟨_, diverged, -⟩ := endless (partialListValue (.retained 0)).size
    cases solved.symm.trans diverged
  · obtain ⟨_, solved⟩ := succeeds (Nat.le_max_right enough _)
    cases solved.symm.trans (full _ (Nat.le_max_left enough _)).1
  · obtain ⟨_, solved⟩ := succeeds (Nat.le_max_right enough _)
    cases solved.symm.trans (ended _ (Nat.le_max_left enough _)).1
    exact ⟨enough, after, ended⟩

end MachineM

end LogicMachine
