import LogicMachine.Machine.Builtin
import LogicMachine.Proofs.Arithmetic.Expressions
import LogicMachine.Proofs.Store.Growth

/-!
# Goals of arithmetic

The native predicates that evaluate expressions.  They crash exactly if an
expression overflows; every other fault of theirs is reported and leaves the
session alive.
-/

namespace LogicMachine

/-- A fault that is reported and does not end the session. -/
def Fault.IsReported (fault : Fault) : Prop :=
  ∀ cause, fault ≠ .crash cause

/-- The answer of a comparison; without two values it fails. -/
def Comparison.answer (comparison : Comparison) (left right : Option Int) :
    Bool :=
  match left, right with
  | some left, some right => comparison.holds left right
  | _, _ => false

namespace Store

variable {store : Store} {address : Address} {fault : Fault}

theorem reported_of_load (failed : store.load address = .error fault) :
    fault.IsReported := by
  unfold load at failed
  dsimp only at failed
  split at failed
  case h_1 => cases failed
  case h_2 =>
    cases failed
    nofun

theorem reported_of_derefWithin {steps : Nat}
    (failed : store.derefWithin steps address = .error fault) :
    fault.IsReported := by
  induction steps generalizing address with
  | zero =>
      cases failed
      nofun
  | succ steps ih =>
      simp only [derefWithin] at failed
      cases found : store.load address with
      | error other =>
          simp only [found] at failed
          cases failed
          exact reported_of_load found
      | ok word =>
          simp only [found] at failed
          split at failed
          case h_1 next =>
            split at failed
            case isTrue => cases failed
            case isFalse => exact ih failed
          case h_2 => cases failed

theorem reported_of_slot (failed : store.slot address = .error fault) :
    fault.IsReported := by
  unfold slot at failed
  split at failed
  case h_1 index =>
    split at failed
    case h_1 => cases failed
    case h_2 =>
      split at failed <;> cases failed <;> nofun
  case h_2 index =>
    split at failed
    case h_1 => cases failed
    case h_2 =>
      split at failed <;> cases failed <;> nofun
  case h_3 => exact reported_of_load failed

end Store

namespace StoreM

variable {table : FunctorTable} {store : Store}

/-- An action that never crashes. -/
def Reports (action : StoreM α) (store : Store) : Prop :=
  Ends (action store) (fun _ _ => True) (fun fault _ => fault.IsReported)

theorem reports_store (address : Address) (value : Word) :
    Reports (StoreM.store address value) store := by
  simp only [Reports, StoreM.store, ends_bind, ends_read, ends_modify]
  split
  case h_1 => trivial
  case h_2 fault failed => exact Store.reported_of_slot failed

/-- Binding a variable to a word that points nowhere copies nothing. -/
theorem reports_bindTo_constant {target source : Address} {value : Word}
    {id : FunctorId} (isConstant : value.cell = .constant id) :
    Reports (bindTo table target source value) store := by
  unfold Reports bindTo
  split
  case isTrue =>
    simp only [copyTerm, copyCell, isConstant, copyValue, ends_bind, ends_pure,
      ends_get, List.length_nil, copyTasks]
    exact reports_store target value
  case isFalse => exact reports_store target value

theorem reports_bindVariable_constant {root cell next : Address}
    {variableWord value : Word} {id : FunctorId}
    (loaded : store.load root = .ok variableWord)
    (refers : variableWord.cell = .reference next)
    (found : store.load cell = .ok value)
    (isConstant : value.cell = .constant id) :
    Reports (bindVariable table root cell) store := by
  have isVariable := Word.tag_of_cell refers
  have isOther := Word.tag_of_cell isConstant
  simp only [Reports, bindVariable, load, ends_bind, ends_read, loaded, found]
  rw [if_pos (by simp [isVariable, isOther, Cell.tag])]
  exact reports_bindTo_constant isConstant

/-- Unifying with an atom queues no further pairs. -/
theorem unifyPair_constant {address cell : Address} {value : Word}
    {id : FunctorId} (found : store.load cell = .ok value)
    (isConstant : value.cell = .constant id) :
    Ends (unifyPair table ⟨address, cell⟩ store)
      (fun queued _ => queued = none ∨ queued = some [])
      (fun fault _ => fault.IsReported) := by
  have notReference : ∀ next, value.cell = .reference next → next = cell := by
    simp [isConstant]
  have stays := (Store.Leads.here ⟨value, found, notReference⟩).deref_eq
  simp only [unifyPair, ends_bind, deref, ends_read]
  cases followed : store.deref address with
  | error fault => exact Store.reported_of_derefWithin followed
  | ok root =>
      simp only [stays]
      split
      case isTrue => exact .inr rfl
      case isFalse =>
        simp only [load, ends_bind, ends_read]
        cases loaded : store.load root with
        | error fault => exact Store.reported_of_load loaded
        | ok other =>
            simp only [found, isConstant]
            cases decoded : other.cell with
            | reference next =>
                simp only [ends_bind, ends_pure]
                refine (reports_bindVariable_constant loaded decoded found
                  isConstant).imp ?_ ?_
                · exact fun _ _ _ => .inr trivial
                · exact fun _ _ reported => reported
            | constant name =>
                simp only [ends_pure]
                split
                · exact .inr rfl
                · exact .inl rfl
            | _ => exact .inl rfl

theorem reports_unify_constant (steps : Nat) (address : Address)
    {cell : Address} {value : Word} {id : FunctorId}
    (found : store.load cell = .ok value)
    (isConstant : value.cell = .constant id) :
    Reports (unify table steps address cell) store := by
  unfold Reports unify
  cases steps with
  | zero => exact fun cause => nofun
  | succ steps =>
      simp only [unifyAll, ends_bind]
      refine (unifyPair_constant found isConstant).imp ?_ ?_
      · rintro queued later (rfl | rfl)
        · trivial
        · simp only [List.nil_append, unifyAll, ends_pure]
      · exact fun _ _ reported => reported

theorem ends_storeFresh (region : Region) (index : Int32) (value : Word) :
    Ends (storeFresh (region.address index) value store)
      (fun _ later => later.load (region.address index) = .ok value)
      (fun fault _ => fault.IsReported) := by
  cases found : store.slot (region.address index) with
  | ok old =>
      have present := Store.slot_eq_ok_iff.mp found
      rw [storeFresh_eq present]
      exact Store.load_put_self present value
  | error fault =>
      have reported := Store.reported_of_slot found
      cases region with
      | heap | retained =>
          simp only [Region.address] at found ⊢
          simpa only [storeFresh, ends_bind, ends_read, found] using reported

/-- A word put in a new cell is found there. -/
theorem ends_pushCell {region : Region} {value : Word}
    {regular : Address → Store → Prop} {faulty : Fault → Store → Prop}
    (pushed : ∀ address later, later.load address = .ok value →
      regular address later)
    (reported : ∀ fault later, fault.IsReported → faulty fault later) :
    Ends (pushCells region [value] store) regular faulty := by
  simp only [pushCells, ends_bind, List.length_singleton]
  refine ends_allocate ?_ ?_
  · intro _
    simp only [Region.offset_address, fill, ends_bind, ends_pure]
    exact (ends_storeFresh region _ value).imp
      (fun _ later found => pushed _ later found) reported
  · exact fun _ => reported _ _ (by simp [Fault.IsReported])

end StoreM

namespace MachineM

variable {machine : Machine}

/-- Unifying a term with an integer never crashes. -/
theorem unifyInteger_reports (steps : Nat) (address : Address)
    (value : Option Int) :
    Ends (unifyInteger steps address value machine) (fun _ _ => True)
      (fun fault _ => fault.IsReported) := by
  cases value with
  | none => trivial
  | some value =>
      simp only [unifyInteger, integerWord, unifyWord, pushCells, unify,
        ends_bind, ends_onProgram, ends_onStore, ends_pure]
      simp only [ProgramM.intern, ends_modifyGet]
      refine StoreM.ends_pushCell ?_ ?_
      · intro cell later found
        exact StoreM.reports_unify_constant steps address found
          (Word.cell_constant _)
      · exact fun _ _ reported => reported

/-- The predicate that evaluates an expression crashes exactly if it
overflows. -/
theorem evaluate_crashes_iff {target address : Address}
    {expression : Expression}
    (shows : machine.store.Shows machine.program.functors address expression)
    (isTarget : machine.argument 0 = .ok target)
    (isArgument : machine.argument 1 = .ok address) (steps : Nat) :
    (expression.Overflows ∧ ∃ cause, cause.IsOverflow ∧
      runBuiltin steps .evaluate machine = .error (.crash cause) machine) ∨
    (¬ expression.Overflows ∧
      runBuiltin steps .evaluate machine =
        unifyInteger steps target expression.value machine) := by
  have unfolded : runBuiltin steps .evaluate machine =
      match machine.store.evaluate machine.program.functors address with
      | .ok value => unifyInteger steps target value machine
      | .error fault => .error fault machine := by
    simp only [runBuiltin, argument, evaluate, bind, EStateM.bind, read,
      isTarget, isArgument]
    cases machine.store.evaluate machine.program.functors address <;> rfl
  rw [unfolded]
  rcases Store.evaluate_settles shows with
    ⟨overflows, cause, isOverflow, crashed⟩ | ⟨safe, valued⟩
  · exact .inl ⟨overflows, cause, isOverflow, by rw [crashed]⟩
  · exact .inr ⟨safe, by rw [valued]⟩

/-- A comparison evaluates both sides, and crashes exactly if one of them
overflows. -/
theorem compare_crashes_iff {first second : Address} {left right : Expression}
    (leftShows : machine.store.Shows machine.program.functors first left)
    (rightShows : machine.store.Shows machine.program.functors second right)
    (isFirst : machine.argument 0 = .ok first)
    (isSecond : machine.argument 1 = .ok second) (steps : Nat)
    (comparison : Comparison) :
    ((left.Overflows ∨ right.Overflows) ∧ ∃ cause, cause.IsOverflow ∧
      runBuiltin steps (.compare comparison) machine =
        .error (.crash cause) machine) ∨
    (¬ (left.Overflows ∨ right.Overflows) ∧
      runBuiltin steps (.compare comparison) machine =
        .ok (comparison.answer left.value right.value) machine) := by
  have unfolded : runBuiltin steps (.compare comparison) machine =
      match machine.store.evaluate machine.program.functors first,
        machine.store.evaluate machine.program.functors second with
      | .ok left, .ok right => .ok (comparison.answer left right) machine
      | .ok _, .error fault => .error fault machine
      | .error fault, _ => .error fault machine := by
    simp only [runBuiltin, compare, argument, evaluate, bind, EStateM.bind,
      read, isFirst, isSecond]
    cases machine.store.evaluate machine.program.functors first with
    | error fault => rfl
    | ok left =>
        dsimp only
        cases machine.store.evaluate machine.program.functors second with
        | error fault => rfl
        | ok right => cases left <;> cases right <;> rfl
  rw [unfolded]
  rcases Store.evaluate_settles leftShows with
    ⟨overflows, cause, isOverflow, crashed⟩ | ⟨leftSafe, leftValued⟩
  · exact .inl ⟨.inl overflows, cause, isOverflow, by rw [crashed]⟩
  · rcases Store.evaluate_settles rightShows with
      ⟨overflows, cause, isOverflow, crashed⟩ | ⟨rightSafe, rightValued⟩
    · exact .inl ⟨.inr overflows, cause, isOverflow,
        by rw [leftValued, crashed]⟩
    · exact .inr ⟨by simp [leftSafe, rightSafe],
        by rw [leftValued, rightValued]⟩

/-- Arithmetic on finite terms ends with an answer or a reported fault, unless
an expression overflows.  Without an overflow the value of an expression is the
exact one, or none if some part has none that fits. -/
theorem arithmetic_settles {address : Address} {expression : Expression}
    (shows : machine.store.Shows machine.program.functors address expression) :
    Store.Settles (machine.store.evaluate machine.program.functors address)
      expression ∧
    (∀ steps target, machine.argument 0 = .ok target →
      machine.argument 1 = .ok address →
      (expression.Overflows ∧ ∃ cause, cause.IsOverflow ∧
        runBuiltin steps .evaluate machine = .error (.crash cause) machine) ∨
      (¬ expression.Overflows ∧
        runBuiltin steps .evaluate machine =
          unifyInteger steps target expression.value machine ∧
        Ends (runBuiltin steps .evaluate machine) (fun _ _ => True)
          (fun fault _ => fault.IsReported))) ∧
    (∀ steps comparison second right,
      machine.store.Shows machine.program.functors second right →
      machine.argument 0 = .ok address → machine.argument 1 = .ok second →
      ((expression.Overflows ∨ right.Overflows) ∧ ∃ cause, cause.IsOverflow ∧
        runBuiltin steps (.compare comparison) machine =
          .error (.crash cause) machine) ∨
      (¬ (expression.Overflows ∨ right.Overflows) ∧
        runBuiltin steps (.compare comparison) machine =
          .ok (comparison.answer expression.value right.value) machine)) := by
  refine ⟨Store.evaluate_settles shows, ?_, ?_⟩
  · intro steps target isTarget isArgument
    rcases evaluate_crashes_iff shows isTarget isArgument steps with
      crashes | ⟨safe, same⟩
    · exact .inl crashes
    · refine .inr ⟨safe, same, ?_⟩
      rw [same]
      exact unifyInteger_reports steps target expression.value
  · intro steps comparison second right rightShows isFirst isSecond
    exact compare_crashes_iff shows rightShows isFirst isSecond steps comparison

end MachineM

/-- A machine about to evaluate the quotient of two integers.  The activation
record of the goal stands above its two arguments. -/
def quotientMachine : Machine where
  store :=
    { Store.empty 0 0 0 with
      heap := #[Word.functor ⟨0⟩, Word.constant ⟨1⟩, Word.constant ⟨2⟩,
        Word.reference (.heap 3), Word.zero]
      heapTop := 4
      stack := #[Word.compound (.heap 0), Word.reference (.heap 3),
        (Address.blank 0).pack, (Address.code (-1)).pack]
      pointer := 3 }
  registers := { Registers.initial with environment := .stack 1 }
  program :=
    { Program.empty 0 default with
      functors := ⟨#[⟨"div", 2⟩, ⟨"-9223372036854775808", 0⟩, ⟨"-1", 0⟩], {}⟩ }
  collectors := []

/-- The quotient of the least integer by minus one. -/
def leastQuotient : Expression :=
  .operation ⟨"div", 2⟩
    fun index => if index = 0 then .atom "-9223372036854775808" else .atom "-1"

theorem quotientMachine_shows :
    quotientMachine.store.Shows quotientMachine.program.functors (.stack 0)
      leastQuotient := by
  refine @Store.Shows.operation _ _ _ (.heap 0) (Word.compound (.heap 0))
    ⟨"div", 2⟩ _ (by decide) (by simp) (by decide) ?_
  intro (index : Fin 2)
  obtain rfl | rfl : index = 0 ∨ index = 1 := by omega
  · exact @Store.Shows.atom _ _ _ (Word.constant ⟨1⟩) ⟨1⟩
      ⟨"-9223372036854775808", 0⟩ (by decide) (by simp) (by decide)
  · exact @Store.Shows.atom _ _ _ (Word.constant ⟨2⟩) ⟨2⟩
      ⟨"-1", 0⟩ (by decide) (by simp) (by decide)

theorem leastQuotient_overflows : leastQuotient.Overflows :=
  @Expression.Overflows.quotient ⟨"div", 2⟩ _ [-9223372036854775808, -1]
    (by decide) ⟨.inl rfl, by decide⟩

/-- The quotient overflows, and a goal that evaluates it crashes. -/
theorem MachineM.arithmetic_settles_leastQuotient :
    quotientMachine.store.Shows quotientMachine.program.functors (.stack 0)
      leastQuotient ∧ leastQuotient.Overflows ∧
    ∃ cause, cause.IsOverflow ∧ runBuiltin 1 .evaluate quotientMachine =
      .error (.crash cause) quotientMachine := by
  refine ⟨quotientMachine_shows, leastQuotient_overflows, ?_⟩
  rcases (arithmetic_settles quotientMachine_shows).2.1 1 (.stack 1) rfl rfl with
    ⟨-, crashes⟩ | ⟨safe, -⟩
  · exact crashes
  · exact absurd leastQuotient_overflows safe

/-- The quotient of the least integer by minus one ends the session instead of
having no value. -/
theorem Store.evaluate_leastQuotient :
    quotientMachine.store.evaluate quotientMachine.program.functors (.stack 0) =
      .error (.crash .quotientOverflow) := by
  decide

end LogicMachine
