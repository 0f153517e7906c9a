import LogicMachine.Proofs.Code.Library

/-!
# The functors that a program numbers

Compiling a clause numbers functors of its terms and no others, so what is known
of the functors of the clauses that were added holds of every functor that the
table lists.
-/

namespace LogicMachine

namespace Term

mutual

/-- The functors of the atoms and the compounds in a term. -/
def functors : Term → List Functor
  | .atom name => [.constant name]
  | .var _ => []
  | .compound functor args => ⟨functor, args.length⟩ :: functorsOf args

/-- The functors of the atoms and the compounds in an argument list. -/
def functorsOf : List Term → List Functor
  | [] => []
  | term :: rest => term.functors ++ functorsOf rest

end

end Term

/-- The functors of the atoms and the compounds in a clause. -/
def Rule.functors (rule : Rule) : List Functor :=
  Term.functorsOf rule.head.args ++
    rule.goals.flatMap fun goal => Term.functorsOf goal.args

/-- The table lists known functors only. -/
def FunctorTable.Within (known : Functor → Prop) (table : FunctorTable) :
    Prop :=
  ∀ id functor, table.get? id = some functor → known functor

namespace FunctorTable.Within

variable {known : Functor → Prop} {table : FunctorTable}

theorem empty : FunctorTable.empty.Within known := by
  intro id functor found
  simp [FunctorTable.get?, FunctorTable.empty] at found

theorem intern (within : table.Within known) {functor : Functor}
    (isKnown : known functor) : (table.intern functor).2.Within known := by
  unfold FunctorTable.intern
  split
  case h_1 => exact within
  case h_2 =>
    intro id other found
    rw [FunctorTable.get?, Array.getElem?_push] at found
    split at found
    case isTrue =>
      cases found
      exact isKnown
    case isFalse => exact within id other found

end FunctorTable.Within

/-- The program has numbered known functors only. -/
def Program.Numbers (known : Functor → Prop) (program : Program) : Prop :=
  program.functors.Within known

namespace ProgramM

variable {known : Functor → Prop}

theorem write_numbers (position : Nat) (words : List UInt32) :
    Keeps (Program.Numbers known) (write position words) :=
  fun _ numbers => ends_write (fun _ => numbers) fun _ => numbers

theorem append_numbers (words : List UInt32) :
    Keeps (Program.Numbers known) (append words) :=
  .bind .get fun _ => (write_numbers _ _).bind fun _ =>
    .bind (.modifying fun _ numbers => numbers)
      fun _ => .pure _

theorem report_numbers (event : Event) :
    Keeps (Program.Numbers known) (report event) :=
  .modifying fun _ numbers => numbers

theorem entryOf_numbers (functor : Functor) :
    Keeps (Program.Numbers known) (entryOf functor) := by
  refine .bind .get fun program => ?_
  cases program.predicate? functor with
  | some predicate => exact .pure _
  | none =>
      exact (append_numbers _).bind fun entry => (report_numbers _).bind
        fun _ => .bind (.modifying fun _ numbers =>
          numbers) fun _ => .pure _

end ProgramM

namespace ClauseM

variable (known : Functor → Prop)

/-- The action numbers known functors only, and its value is as stated. -/
def Numbers (action : ClauseM ProgramM α) (yields : α → Prop) : Prop :=
  ∀ draft program, program.Numbers known →
    Ends (action draft program)
      (fun result after => after.Numbers known ∧ yields result.1)
      (fun _ after => after.Numbers known)

variable {known}

namespace Numbers

theorem pure {value : α} {yields : α → Prop} (holds : yields value) :
    Numbers known (Pure.pure value) yields :=
  fun _ _ numbers => ⟨numbers, holds⟩

theorem value (value : α) :
    Numbers known (Pure.pure value) fun _ => True :=
  pure trivial

theorem throw (fault : Fault) (yields : α → Prop) :
    Numbers known (MonadExcept.throw fault) yields :=
  fun _ _ numbers => numbers

theorem get : Numbers known MonadState.get fun _ => True :=
  fun _ _ numbers => ⟨numbers, trivial⟩

theorem modifying (update : Draft → Draft) :
    Numbers known (modify update) fun _ => True :=
  fun _ _ numbers => ⟨numbers, trivial⟩

theorem modifyGet (update : Draft → α × Draft) :
    Numbers known (MonadState.modifyGet update) fun _ => True :=
  fun _ _ numbers => ⟨numbers, trivial⟩

theorem bind {action : ClauseM ProgramM α} {next : α → ClauseM ProgramM β}
    {middle : α → Prop} {yields : β → Prop}
    (first : Numbers known action middle)
    (second : ∀ value, middle value →
      Numbers known (next value) yields) :
    Numbers known (action >>= next) yields := by
  intro draft program numbers
  show Ends ((action draft >>= fun result => next result.1 result.2) program)
    _ _
  rw [ends_bind]
  refine (first draft program numbers).imp ?_ fun _ _ => id
  rintro ⟨value, later⟩ between ⟨numbersLater, holds⟩
  exact second value holds later between numbersLater

/-- A step whose value does not matter, before others. -/
theorem andThen {action : ClauseM ProgramM α} {next : α → ClauseM ProgramM β}
    {middle : α → Prop} {yields : β → Prop}
    (first : Numbers known action middle)
    (second : ∀ value, Numbers known (next value) yields) :
    Numbers known (action >>= next) yields :=
  first.bind fun value _ => second value

theorem mapM {apply : α → ClauseM ProgramM β} {yields : β → Prop}
    {items : List α}
    (each : ∀ item ∈ items, Numbers known (apply item) yields) :
    Numbers known (items.mapM apply)
      (fun values => ∀ value ∈ values, yields value) := by
  induction items with
  | nil =>
      rw [List.mapM_nil]
      exact pure fun _ member => absurd member List.not_mem_nil
  | cons item rest ih =>
      rw [List.mapM_cons]
      refine (each item List.mem_cons_self).bind fun value holds => ?_
      refine (ih fun other member =>
        each other (List.mem_cons_of_mem _ member)).bind fun values others => ?_
      refine pure fun other member => ?_
      rcases List.mem_cons.mp member with rfl | member
      · exact holds
      · exact others other member

theorem forIn {body : α → ClauseM ProgramM Unit} {items : List α}
    (each : ∀ item ∈ items,
      Numbers known (body item) fun _ => True) :
    Numbers known
      (ForIn.forIn items () fun item _ => do
        body item
        return ForInStep.yield ()) fun _ => True := by
  induction items with
  | nil =>
      rw [List.forIn_nil]
      exact pure trivial
  | cons item rest ih =>
      rw [List.forIn_cons, bind_assoc]
      simp only [pure_bind]
      exact (each item List.mem_cons_self).andThen fun _ =>
        ih fun other member => each other (List.mem_cons_of_mem _ member)

/-- What follows a test whose failure is a fault. -/
theorem accepting {condition : Prop} [Decidable condition] {fault : Fault}
    {next : Unit → ClauseM ProgramM α} {yields : α → Prop}
    (accepted : Numbers known (next ()) yields) :
    Numbers known
      (if condition then MonadExcept.throw fault >>= next else next ())
      yields := by
  split
  · exact fun _ _ numbers => numbers
  · exact accepted

end Numbers

theorem newLocal_numbers : Numbers known newLocal fun _ => True :=
  .modifyGet _

theorem newLabel_numbers : Numbers known newLabel fun _ => True :=
  .modifyGet _

theorem emit_numbers (items : List Item) :
    Numbers known (emit items) fun _ => True :=
  .modifying _

theorem intern_numbers {functor : Functor} (isKnown : known functor) :
    Numbers known (intern functor) fun _ => True :=
  fun _ _ numbers =>
    ⟨FunctorTable.Within.intern numbers isKnown, trivial⟩

theorem entryOf_numbers (functor : Functor) :
    Numbers known
      (liftM (Linker.entryOf functor : ProgramM Nat)) fun _ => True := by
  intro draft program numbers
  show Ends ((ProgramM.entryOf functor >>= fun entry =>
    Pure.pure (entry, draft)) program) _ _
  rw [ends_bind]
  exact (ProgramM.entryOf_numbers functor program numbers).imp
    (fun _ _ kept => ⟨kept, trivial⟩) fun _ _ kept => kept

theorem occurrence_numbers (name : String) :
    Numbers known (occurrence name) fun _ => True := by
  refine Numbers.get.andThen fun draft => ?_
  cases draft.slots.lookup name with
  | some slot => exact .pure trivial
  | none =>
      refine newLocal_numbers.andThen fun slot => ?_
      exact (Numbers.modifying _).andThen fun _ => .pure trivial

theorem working_numbers : Numbers known working fun _ => True := by
  refine Numbers.get.andThen fun draft => ?_
  cases draft.working with
  | some slots => exact .pure trivial
  | none =>
      refine newLocal_numbers.andThen fun subject => ?_
      refine newLocal_numbers.andThen fun cursor => ?_
      exact (Numbers.modifying _).andThen fun _ => .pure trivial

/-! ## The head -/

variable (known) in
/-- A compound whose functors are known. -/
def Forms (functor : Option Functor) (args : List Term) : Prop :=
  (∀ outer ∈ functor, known outer) ∧
    ∀ inner ∈ Term.functorsOf args, known inner

variable (known) in
/-- The functors that a shape stands for are known. -/
def FormsShape : Shape → Prop
  | .constant functor => known functor
  | .compound functor args => Forms known functor args
  | _ => True

theorem formsShape_of {term : Term} {shape : Shape}
    (shaped : Shape.of term = .ok shape)
    (areKnown : ∀ functor ∈ term.functors, known functor) :
    FormsShape known shape := by
  cases term with
  | atom name =>
      cases shaped
      exact areKnown _ (by simp [Term.functors])
  | var name =>
      simp only [Shape.of] at shaped
      split at shaped <;> cases shaped <;> trivial
  | compound functor args =>
      simp only [Term.functors, List.mem_cons, forall_eq_or_imp] at areKnown
      obtain ⟨outer, inner⟩ := areKnown
      simp only [Shape.of] at shaped
      split at shaped
      case isTrue =>
        split at shaped <;> cases shaped
        exact ⟨fun _ none => absurd none (Option.not_mem_none _), inner⟩
      case isFalse =>
        split at shaped <;> cases shaped
        case isTrue empty =>
          rw [List.isEmpty_iff.mp empty] at outer
          exact outer
        case isFalse =>
          refine ⟨?_, inner⟩
          rintro _ ⟨⟩
          exact outer

theorem shape_numbers {term : Term}
    (areKnown : ∀ functor ∈ term.functors, known functor) :
    Numbers known (shape term) (FormsShape known) := by
  unfold shape
  cases shaped : Shape.of term with
  | ok shape => exact .pure (formsShape_of shaped areKnown)
  | error fault => exact .throw _ _

variable (known) in
/-- The functors of what a match puts off are known. -/
def FormsSlot : Slot → Prop
  | .nested _ functor args => Forms known functor args
  | _ => True

theorem planSlot_numbers {term : Term}
    (areKnown : ∀ functor ∈ term.functors, known functor) :
    Numbers known (planSlot term) (FormsSlot known) := by
  refine (shape_numbers areKnown).bind fun shape forms => ?_
  cases shape with
  | void => exact .pure trivial
  | «variable» name =>
      refine (occurrence_numbers name).andThen fun occurrence => ?_
      cases occurrence <;> exact .pure trivial
  | constant functor =>
      refine (intern_numbers forms).andThen fun id => ?_
      refine newLabel_numbers.andThen fun read => ?_
      exact newLabel_numbers.andThen fun done => .pure trivial
  | compound functor args =>
      exact newLocal_numbers.andThen fun slot => .pure forms

theorem forms_of_postponed {slots : List Slot}
    (forms : ∀ slot ∈ slots, FormsSlot known slot) :
    ∀ pattern ∈ postponed slots, Forms known pattern.functor pattern.args := by
  intro pattern member
  obtain ⟨slot, inside, nested⟩ := List.mem_filterMap.mp member
  have holds := forms slot inside
  cases slot with
  | nested place functor args =>
      cases nested
      exact holds
  | void | first slot | again slot | constant functor read done =>
      cases nested

theorem functors_known {args : List Term} {term : Term} (member : term ∈ args)
    (areKnown : ∀ functor ∈ Term.functorsOf args, known functor) :
    ∀ functor ∈ term.functors, known functor := by
  induction args with
  | nil => cases member
  | cons head rest ih =>
      simp only [Term.functorsOf, List.mem_append, or_imp, forall_and]
        at areKnown
      rcases List.mem_cons.mp member with rfl | member
      · exact areKnown.1
      · exact ih member areKnown.2

/-- The patterns that are still to be matched have known functors. -/
abbrev FormsAll (known : Functor → Prop) (patterns : List Pattern) : Prop :=
  ∀ pattern ∈ patterns, Forms known pattern.functor pattern.args

theorem matchPattern_numbers {pattern : Pattern}
    (forms : Forms known pattern.functor pattern.args) :
    Numbers known (matchPattern pattern) (FormsAll known) := by
  obtain ⟨outer, inner⟩ := forms
  have planned : Numbers known (pattern.args.mapM planSlot) _ :=
    .mapM fun _ member => planSlot_numbers (functors_known member inner)
  have emitted {slots : List Slot}
      (holds : ∀ slot ∈ slots, FormsSlot known slot)
      (items : Label → Label → Label → List Item) :
      Numbers known
        (do
          let read ← newLabel
          let fail ← newLabel
          let done ← newLabel
          emit (items read fail done)
          return postponed slots) (FormsAll known) := by
    refine newLabel_numbers.andThen fun read => ?_
    refine newLabel_numbers.andThen fun fail => ?_
    refine newLabel_numbers.andThen fun done => ?_
    exact (emit_numbers _).andThen fun _ => .pure (forms_of_postponed holds)
  refine working_numbers.andThen fun (subject, cursor) => ?_
  refine planned.bind fun slots holds => ?_
  cases named : pattern.functor with
  | some functor =>
      have interned : Numbers known (some <$> intern functor)
          fun _ => True :=
        (intern_numbers (outer functor named)).andThen fun _ => .pure trivial
      exact interned.andThen fun _ => emitted holds _
  | none => exact (Numbers.value none).andThen fun _ => emitted holds _

theorem matchArgument_numbers (index : Nat) {term : Term}
    (areKnown : ∀ functor ∈ term.functors, known functor) :
    Numbers known (matchArgument index term) (FormsAll known) := by
  have nothing : FormsAll known [] := fun _ member => absurd member List.not_mem_nil
  refine (shape_numbers areKnown).bind fun shape forms => ?_
  cases shape with
  | void => exact .pure nothing
  | «variable» name =>
      refine (occurrence_numbers name).andThen fun occurrence => ?_
      cases occurrence <;>
        exact (emit_numbers _).andThen fun _ => .pure nothing
  | constant functor =>
      refine (intern_numbers forms).andThen fun id => ?_
      refine working_numbers.andThen fun (subject, cursor) => ?_
      refine newLabel_numbers.andThen fun read => ?_
      refine newLabel_numbers.andThen fun done => ?_
      exact (emit_numbers _).andThen fun _ => .pure nothing
  | compound functor args => exact matchPattern_numbers forms

theorem matchArguments_numbers (index : Nat) {terms : List Term}
    (areKnown : ∀ functor ∈ Term.functorsOf terms, known functor) :
    Numbers known (matchArguments index terms) (FormsAll known) := by
  induction terms generalizing index with
  | nil => exact .pure fun _ member => absurd member List.not_mem_nil
  | cons term rest ih =>
      simp only [Term.functorsOf, List.mem_append, or_imp, forall_and]
        at areKnown
      refine (matchArgument_numbers index areKnown.1).bind fun inner first => ?_
      refine (ih (index + 1) areKnown.2).bind fun later second => ?_
      refine .pure fun pattern member => ?_
      exact (List.mem_append.mp member).elim (first pattern) (second pattern)

theorem matchPostponed_numbers (count : Nat) {patterns : List Pattern}
    (forms : FormsAll known patterns) :
    Numbers known (matchPostponed count patterns) fun _ => True := by
  induction count generalizing patterns with
  | zero =>
      cases patterns with
      | nil => exact .pure trivial
      | cons pattern rest => exact .throw _ _
  | succ count ih =>
      cases patterns with
      | nil => exact .pure trivial
      | cons pattern rest =>
          refine (matchPattern_numbers (forms _ List.mem_cons_self)).bind
            fun inner found => ih fun other member => ?_
          exact (List.mem_append.mp member).elim
            (fun member => forms other (List.mem_cons_of_mem _ member))
            (found other)

theorem compileHead_numbers {head : Goal}
    (areKnown : ∀ functor ∈ Term.functorsOf head.args, known functor) :
    Numbers known (compileHead head) fun _ => True :=
  (matchArguments_numbers 0 areKnown).bind fun _ forms =>
    matchPostponed_numbers _ forms

/-! ## The goals -/

theorem buildFresh_numbers (slot : Local) :
    Numbers known (buildFresh slot) fun _ => True :=
  (emit_numbers _).andThen fun _ => .pure trivial

theorem buildVariable_numbers (name : String) :
    Numbers known (buildVariable name) fun _ => True := by
  refine (occurrence_numbers name).andThen fun occurrence => ?_
  cases occurrence with
  | first slot => exact buildFresh_numbers slot
  | again slot => exact .pure trivial

theorem buildStructure_numbers {args : List Term} {functor : Functor}
    (isKnown : known functor)
    (builds : Numbers known (buildAll args) fun _ => True) :
    Numbers known
      (do
        let values ← buildAll args
        let id ← intern functor
        let slot ← newLocal
        emit (Built.structureItems slot id values)
        return Built.slot slot) fun _ => True := by
  refine builds.andThen fun values => ?_
  refine (intern_numbers isKnown).andThen fun id => ?_
  refine newLocal_numbers.andThen fun slot => ?_
  exact (emit_numbers _).andThen fun _ => .pure trivial

mutual

theorem build_numbers : ∀ term : Term,
    (∀ functor ∈ term.functors, known functor) →
      Numbers known (build term) fun _ => True
  | .atom name, areKnown => by
      rw [build]
      exact (intern_numbers (areKnown _ (by simp [Term.functors]))).andThen
        fun _ => .pure trivial
  | .var name, _ => by
      rw [build]
      split
      · exact newLocal_numbers.andThen fun slot => buildFresh_numbers slot
      · exact buildVariable_numbers name
  | .compound functor [], areKnown => by
      rw [build]
      refine .accepting ?_
      exact (intern_numbers (areKnown _ (by
        simp [Term.functors, Functor.constant]))).andThen fun _ => .pure trivial
  | .compound functor [head, tail], areKnown => by
      simp only [Term.functors, Term.functorsOf, List.append_nil, List.mem_cons,
        List.mem_append, or_imp, forall_and] at areKnown
      obtain ⟨outer, left, right⟩ := areKnown
      rw [build]
      refine (build_numbers head left).andThen fun first => ?_
      refine (build_numbers tail right).andThen fun second => ?_
      split
      · refine newLocal_numbers.andThen fun slot => ?_
        exact (emit_numbers _).andThen fun _ => .pure trivial
      · refine (intern_numbers (outer _ rfl)).andThen fun id => ?_
        refine newLocal_numbers.andThen fun slot => ?_
        exact (emit_numbers _).andThen fun _ => .pure trivial
  | .compound functor [only], areKnown => by
      simp only [Term.functors, List.mem_cons, forall_eq_or_imp] at areKnown
      rw [build]
      · exact .accepting (buildStructure_numbers areKnown.1
          (buildAll_numbers [only] areKnown.2))
      all_goals simp
  | .compound functor (first :: second :: third :: more), areKnown => by
      simp only [Term.functors, List.mem_cons, forall_eq_or_imp] at areKnown
      rw [build]
      · exact .accepting (buildStructure_numbers areKnown.1
          (buildAll_numbers (first :: second :: third :: more) areKnown.2))
      all_goals simp

theorem buildAll_numbers : ∀ terms : List Term,
    (∀ functor ∈ Term.functorsOf terms, known functor) →
      Numbers known (buildAll terms) fun _ => True
  | [], _ => by
      rw [buildAll]
      exact .pure trivial
  | term :: rest, areKnown => by
      simp only [Term.functorsOf, List.mem_append, or_imp, forall_and]
        at areKnown
      rw [buildAll]
      refine (build_numbers term areKnown.1).andThen fun value => ?_
      exact (buildAll_numbers rest areKnown.2).andThen fun values =>
        .pure trivial

end

theorem compileGoal_numbers {goal : Goal}
    (areKnown : ∀ functor ∈ Term.functorsOf goal.args, known functor) :
    Numbers known (compileGoal goal) fun _ => True := by
  unfold compileGoal
  split
  · refine Numbers.get.andThen fun draft => ?_
    cases draft.cutLevel with
    | some slot => exact emit_numbers _
    | none => exact .pure trivial
  · refine (buildAll_numbers goal.args areKnown).andThen fun values => ?_
    refine (emit_numbers _).andThen fun _ => ?_
    exact (entryOf_numbers _).andThen fun entry => emit_numbers _

/-! ## Whole clauses -/

theorem compileRule_numbers {rule : Rule} {trace : Bool}
    (traced : trace = true → known (.ofGoal rule.head))
    (areKnown : ∀ functor ∈ rule.functors, known functor) :
    Numbers known (compileRule rule trace) fun _ => True := by
  simp only [Rule.functors, List.mem_append, List.mem_flatMap, or_imp,
    forall_and] at areKnown
  obtain ⟨arguments, goals⟩ := areKnown
  have body {last : ClauseM ProgramM Unit}
      (ends : Numbers known last fun _ => True) :
      Numbers known
        (do
          compileHead rule.head
          for goal in rule.goals do
            compileGoal goal
          last) fun _ => True := by
    refine (compileHead_numbers arguments).andThen fun _ => ?_
    refine Numbers.andThen (.forIn fun goal member => ?_) fun _ => ends
    exact compileGoal_numbers fun functor inside =>
      goals functor ⟨goal, member, inside⟩
  have level : Numbers known (compileCutLevel rule) fun _ => True := by
    unfold compileCutLevel
    split
    · refine newLocal_numbers.andThen fun slot => ?_
      exact (emit_numbers _).andThen fun _ => .modifying _
    · exact .pure trivial
  refine level.andThen fun _ => ?_
  cases trace with
  | true =>
      have interned : Numbers known
          (some <$> intern (.ofGoal rule.head)) fun _ => True :=
        (intern_numbers (traced rfl)).andThen fun _ => .pure trivial
      refine interned.andThen fun traced => ?_
      cases traced with
      | some functor =>
          exact (emit_numbers _).andThen fun _ => body (emit_numbers _)
      | none => exact body (.pure trivial)
  | false =>
      refine (Numbers.value none).andThen fun traced => ?_
      cases traced with
      | some functor =>
          exact (emit_numbers _).andThen fun _ => body (emit_numbers _)
      | none => exact body (.pure trivial)

end ClauseM

namespace ProgramM

variable {known : Functor → Prop}

theorem compile_numbers {rule : Rule} {trace : Bool}
    (traced : trace = true → known (.ofGoal rule.head))
    (areKnown : ∀ functor ∈ rule.functors, known functor) :
    Keeps (Program.Numbers known) (compile rule trace) := by
  intro program numbers
  unfold compile
  rw [ends_bind]
  refine (ClauseM.compileRule_numbers traced areKnown .empty program
    numbers).imp ?_ fun _ _ => id
  rintro ⟨⟨⟩, draft⟩ after ⟨numbersAfter, -⟩
  show Ends (ofExcept (draft.assembler.clause rule.head.arity) after) _ _
  cases draft.assembler.clause rule.head.arity <;> exact numbersAfter

theorem dispatch_numbers (predicate : Option Predicate) (clause : Nat) :
    Keeps (Program.Numbers known) (dispatch predicate clause) := by
  have chained (previous : Nat) (next : Nat → Predicate) :
      Keeps (Program.Numbers known) (do
        let last ← append (dispatchLast clause)
        write previous (dispatchNext last)
        return next last : ProgramM Predicate) :=
    (append_numbers _).bind fun _ => (write_numbers _ _).bind fun _ => .pure _
  unfold dispatch
  cases predicate with
  | none => exact (append_numbers _).bind fun _ => .pure _
  | some predicate =>
      cases predicate with
      | undefined entry => exact (write_numbers _ _).bind fun _ => .pure _
      | single entry => exact chained entry _
      | chain entry last => exact chained last _

theorem addClause_numbers (functor : Functor) (clause : Nat) :
    Keeps (Program.Numbers known) (addClause functor clause) :=
  .bind .get fun _ => (dispatch_numbers _ _).bind fun _ =>
    (report_numbers _).bind fun _ =>
      .modifying fun _ numbers => numbers

theorem addCode_numbers (functor : Functor) (words : List UInt32) :
    Keeps (Program.Numbers known) (addCode functor words) :=
  (append_numbers words).bind fun _ => addClause_numbers _ _

theorem ofExcept_numbers (value : Except Fault α) :
    Keeps (Program.Numbers known) (ofExcept value) := by
  intro program numbers
  unfold ofExcept
  cases value <;> exact numbers

theorem addRule_numbers {rule : Rule} {trace : Bool}
    (traced : trace = true → known (.ofGoal rule.head))
    (areKnown : ∀ functor ∈ rule.functors, known functor) :
    Keeps (Program.Numbers known) (addRule rule trace) :=
  (compile_numbers traced areKnown).bind fun words =>
    (append_numbers words).bind fun _ => (report_numbers _).bind fun _ =>
      addClause_numbers _ _

theorem defineNative_numbers (functor : Functor) (native : Native) :
    Keeps (Program.Numbers known) (defineNative functor native) :=
  Keeps.bind (fun _ numbers => numbers) fun _ =>
    (ofExcept_numbers _).bind fun words => (report_numbers _).bind fun _ =>
      addCode_numbers functor words

end ProgramM

/-! ## The library -/

/-- The functors of the clauses among library entries. -/
def Definition.functors : Definition → List Functor
  | .assembled _ _ | .native _ _ => []
  | .clause rule => rule.functors

namespace ProgramM

variable {known : Functor → Prop}

theorem install_numbers {definition : Definition}
    (areKnown : ∀ functor ∈ definition.functors, known functor) :
    Keeps (Program.Numbers known) (install definition) := by
  cases definition with
  | assembled functor code =>
      exact (ofExcept_numbers code).bind fun words =>
        addCode_numbers functor words
  | native functor builtin => exact defineNative_numbers functor _
  | clause rule => exact addRule_numbers (by simp) areKnown

/-- A program with the library has numbered functors of the library only. -/
theorem installLibrary_numbers
    (areKnown : ∀ definition ∈ Library.definitions,
      ∀ functor ∈ definition.functors, known functor) :
    Keeps (Program.Numbers known) installLibrary :=
  (Keeps.forM fun definition member =>
    install_numbers (areKnown definition member)).bind fun _ =>
      .bind .get fun _ => report_numbers _

end ProgramM

end LogicMachine
