import LogicMachine.Proofs.Arithmetic.Expressions

/-!
# Values over all integers

What an expression means when integers have no width: leaves spell integers,
inner nodes are operations, and no divisor is zero.  Evaluation finds this value
exactly if every part of the expression has one that fits in 64 bits.
-/

namespace LogicMachine

namespace Arithmetic

theorem eq_of_checked {value result : Int}
    (found : checked value = some result) : value = result := by
  unfold checked at found
  split at found
  case isTrue => exact Option.some.inj found
  case isFalse => cases found

end Arithmetic

section Lists

/-- A list of optional values is complete if each of them is there. -/
theorem mapM_ofFn_eq_some_iff {α : Type} {count : Nat}
    {find : Fin count → Option α} {values : List α} :
    (List.ofFn find).mapM id = some values ↔
      ∃ each : Fin count → α,
        (∀ index, find index = some (each index)) ∧
          values = List.ofFn each := by
  induction count generalizing values with
  | zero =>
      constructor
      · intro found
        cases found
        exact ⟨Fin.elim0, fun index => index.elim0, rfl⟩
      · rintro ⟨each, -, rfl⟩
        rfl
  | succ count ih =>
      simp only [List.ofFn_succ, List.mapM_cons, id, Option.bind_eq_bind,
        Option.bind_eq_some_iff, Option.pure_def, Option.some.injEq]
      constructor
      · rintro ⟨first, isFirst, rest, isRest, rfl⟩
        obtain ⟨each, found, rfl⟩ := ih.mp isRest
        refine ⟨Fin.cons first each, Fin.cases isFirst found, ?_⟩
        simp
      · rintro ⟨each, found, rfl⟩
        exact ⟨each 0, found 0, _, ih.mpr ⟨_, fun index => found index.succ,
          rfl⟩, rfl⟩

end Lists

namespace Expression

/-- The exact value, whatever its size. -/
def integer : Expression → Option Int
  | .atom name => Text.readInt name
  | .operation functor args =>
      ((List.ofFn fun index => (args index).integer).mapM id).bind
        (Arithmetic.exactValue functor.name)
  | .other => none

/-- The parts of an expression, itself among them. -/
inductive Part : Expression → Expression → Prop where
  | whole (expression : Expression) : Part expression expression
  | inside {functor : Functor} {args : Fin functor.arity → Expression}
      {part : Expression} (index : Fin functor.arity)
      (isPart : Part part (args index)) : Part part (.operation functor args)

/-- The exact value of an expression all of whose parts have one that fits. -/
structure Computes (expression : Expression) (value : Int) : Prop where
  exact : expression.integer = some value
  fits : ∀ part, Part part expression →
    ∃ number, part.integer = some number ∧ Arithmetic.Fits number

theorem integer_operation {functor : Functor}
    {args : Fin functor.arity → Expression} {result : Int} :
    (operation functor args).integer = some result ↔
      ∃ numbers : Fin functor.arity → Int,
        (∀ index, (args index).integer = some (numbers index)) ∧
          Arithmetic.exactValue functor.name (List.ofFn numbers) =
            some result := by
  simp only [integer, Option.bind_eq_some_iff, mapM_ofFn_eq_some_iff]
  constructor
  · rintro ⟨_, ⟨numbers, found, rfl⟩, isResult⟩
    exact ⟨numbers, found, isResult⟩
  · rintro ⟨numbers, found, isResult⟩
    exact ⟨_, ⟨numbers, found, rfl⟩, isResult⟩

theorem value_operation {functor : Functor}
    {args : Fin functor.arity → Expression} {result : Int} :
    (operation functor args).value = some result ↔
      ∃ numbers : Fin functor.arity → Int,
        (∀ index, (args index).value = some (numbers index)) ∧
          Arithmetic.exactValue functor.name (List.ofFn numbers) =
            some result ∧ Arithmetic.Fits result := by
  simp only [value, Option.bind_eq_some_iff, mapM_ofFn_eq_some_iff]
  constructor
  · rintro ⟨_, ⟨numbers, found, rfl⟩, fitting⟩
    obtain ⟨exact, isExact, isChecked⟩ := Option.bind_eq_some_iff.mp fitting
    cases Arithmetic.eq_of_checked isChecked
    exact ⟨numbers, found, isExact, Arithmetic.fits_of_checked isChecked⟩
  · rintro ⟨numbers, found, isResult, fits⟩
    refine ⟨_, ⟨numbers, found, rfl⟩, Option.bind_eq_some_iff.mpr ?_⟩
    exact ⟨result, isResult, Arithmetic.checked_of_fits fits⟩

theorem computes_operation {functor : Functor}
    {args : Fin functor.arity → Expression} {result : Int} :
    (operation functor args).Computes result ↔
      ∃ numbers : Fin functor.arity → Int,
        (∀ index, (args index).Computes (numbers index)) ∧
          Arithmetic.exactValue functor.name (List.ofFn numbers) =
            some result ∧ Arithmetic.Fits result := by
  constructor
  · rintro ⟨exact, fits⟩
    obtain ⟨numbers, found, isResult⟩ := integer_operation.mp exact
    obtain ⟨number, isNumber, small⟩ := fits _ (.whole _)
    cases isNumber.symm.trans exact
    refine ⟨numbers, fun index => ⟨found index, ?_⟩, isResult, small⟩
    exact fun part isPart => fits part (.inside index isPart)
  · rintro ⟨numbers, found, isResult, small⟩
    have exact := integer_operation.mpr
      ⟨numbers, fun index => (found index).exact, isResult⟩
    refine ⟨exact, ?_⟩
    intro part isPart
    cases isPart with
    | whole => exact ⟨result, exact, small⟩
    | inside index isPart => exact (found index).fits part isPart

/-- The value that evaluation finds is the exact one. -/
theorem value_eq_some_iff {expression : Expression} {result : Int} :
    expression.value = some result ↔ expression.Computes result := by
  induction expression generalizing result with
  | atom name =>
      constructor
      · intro valued
        have fits := fits_of_value valued
        obtain ⟨number, isNumber, isChecked⟩ := Option.bind_eq_some_iff.mp valued
        cases Arithmetic.eq_of_checked isChecked
        refine ⟨isNumber, ?_⟩
        intro part isPart
        cases isPart
        exact ⟨result, isNumber, fits⟩
      · rintro ⟨exact, fits⟩
        obtain ⟨number, isNumber, small⟩ := fits _ (.whole _)
        cases isNumber.symm.trans exact
        exact Option.bind_eq_some_iff.mpr
          ⟨result, exact, Arithmetic.checked_of_fits small⟩
  | operation functor args ih =>
      simp only [value_operation, computes_operation, ih]
  | other =>
      constructor
      · nofun
      · exact fun computes => by cases computes.exact

end Expression

end LogicMachine
