import LogicMachine.Proofs.Code.Library
import LogicMachine.Proofs.Code.Worklist

/-!
# Rules that are refused

A list cell has two arguments.  Compiling a rule looks at every compound in the
arguments of its head and of its goals, and a list cell with another number of
arguments is the only thing in a rule that can be wrong.  The head is matched
level by level, so what is wrong with it may be in a compound that has been put
off; what is wrong with the head is then wrong with those compounds.
-/

namespace LogicMachine

/-! ## Cells of terms -/

/-- A compound occurs in a term. -/
inductive Term.Contains : Term → Goal → Prop where
  | whole {functor args} : Contains (.compound functor args) ⟨functor, args⟩
  | inside {functor args term cell} : term ∈ args → Contains term cell →
      Contains (.compound functor args) cell

/-- A list cell without a head or a tail, or with more than these. -/
def Goal.Misshapen (cell : Goal) : Prop :=
  cell.functor = Term.listFunctor ∧ cell.args.length ≠ 2

/-- A misshapen cell occurs in one of the terms. -/
def Term.Wrong (terms : List Term) (cell : Goal) : Prop :=
  cell.Misshapen ∧ ∃ term ∈ terms, term.Contains cell

/-- A misshapen cell occurs in an argument of the head or of a goal. -/
def Rule.Wrong (rule : Rule) (cell : Goal) : Prop :=
  Term.Wrong rule.head.args cell ∨
    ∃ goal ∈ rule.goals, Term.Wrong goal.args cell

namespace Term

theorem wrong_append {first second : List Term} {cell : Goal} :
    Wrong (first ++ second) cell ↔ Wrong first cell ∨ Wrong second cell := by
  simp only [Wrong, List.mem_append, or_and_right, exists_or, and_or_left]

theorem wrong_cons {term : Term} {rest : List Term} {cell : Goal} :
    Wrong (term :: rest) cell ↔ Wrong [term] cell ∨ Wrong rest cell := by
  rw [← wrong_append]
  rfl

theorem not_wrong_nil {cell : Goal} : ¬ Wrong [] cell := by
  rintro ⟨-, term, member, -⟩
  cases member

/-- What is wrong with a compound is wrong with its arguments, unless it is a
list cell itself. -/
theorem wrong_compound {functor : String} {args : List Term} {cell : Goal} :
    Wrong [.compound functor args] cell ↔
      (cell = ⟨functor, args⟩ ∧ cell.Misshapen) ∨ Wrong args cell := by
  constructor
  · rintro ⟨misshapen, term, member, contains⟩
    cases List.mem_singleton.mp member
    cases contains with
    | whole => exact .inl ⟨rfl, misshapen⟩
    | inside member contains => exact .inr ⟨misshapen, _, member, contains⟩
  · rintro (⟨rfl, misshapen⟩ | ⟨misshapen, term, member, contains⟩)
    · exact ⟨misshapen, _, List.mem_singleton_self _, .whole⟩
    · exact ⟨misshapen, _, List.mem_singleton_self _,
        .inside member contains⟩

theorem not_wrong_var {name : String} {cell : Goal} :
    ¬ Wrong [.var name] cell := by
  rintro ⟨-, term, member, contains⟩
  cases List.mem_singleton.mp member
  cases contains

theorem not_wrong_atom {name : String} {cell : Goal} :
    ¬ Wrong [.atom name] cell := by
  rintro ⟨-, term, member, contains⟩
  cases List.mem_singleton.mp member
  cases contains

end Term

namespace Shape

/-- The terms that a case leaves to be looked at. -/
def inner : Shape → List Term
  | .compound _ args => args
  | .void | .variable _ | .constant _ => []

/-- What is wrong with a term that has a case is wrong with what is left. -/
theorem wrong_of {term : Term} {shape : Shape} (decided : of term = .ok shape)
    {cell : Goal} : Term.Wrong [term] cell ↔ Term.Wrong shape.inner cell := by
  cases term with
  | atom name =>
      cases decided
      exact iff_of_false Term.not_wrong_atom Term.not_wrong_nil
  | var name =>
      simp only [of] at decided
      split at decided <;> cases decided <;>
        exact iff_of_false Term.not_wrong_var Term.not_wrong_nil
  | compound functor args =>
      have fine : ¬ (⟨functor, args⟩ : Goal).Misshapen := by
        rintro ⟨isList, other⟩
        rw [of, if_pos isList, if_neg other] at decided
        cases decided
      have inner_eq : shape.inner = args := by
        simp only [of] at decided
        split at decided
        · split at decided <;> cases decided
          rfl
        · split at decided
          case isTrue empty =>
            cases decided
            exact (List.isEmpty_iff.mp empty).symm
          case isFalse =>
            cases decided
            rfl
      rw [Term.wrong_compound, inner_eq]
      refine or_iff_right ?_
      rintro ⟨rfl, misshapen⟩
      exact fine misshapen

/-- A term without a case is a misshapen cell. -/
theorem of_eq_error {term : Term} {fault : Fault}
    (refused : of term = .error fault) :
    ∃ cell, Term.Wrong [term] cell ∧ fault = .malformed (.listArity cell) := by
  cases term with
  | atom name => cases refused
  | var name =>
      simp only [of] at refused
      split at refused <;> cases refused
  | compound functor args =>
      simp only [of] at refused
      split at refused
      case isTrue isList =>
        split at refused
        case isTrue => cases refused
        case isFalse other =>
          cases refused
          exact ⟨⟨functor, args⟩, Term.wrong_compound.mpr
            (.inl ⟨rfl, isList, other⟩), rfl⟩
      case isFalse => split at refused <;> cases refused

end Shape

/-! ## Compounds that are put off -/

namespace Pattern

/-- The terms that are still to be matched. -/
def pending (patterns : List Pattern) : List Term :=
  patterns.flatMap args

theorem pending_append (first second : List Pattern) :
    pending (first ++ second) = pending first ++ pending second :=
  List.flatMap_append

theorem pending_cons (pattern : Pattern) (rest : List Pattern) :
    pending (pattern :: rest) = pattern.args ++ pending rest :=
  List.flatMap_cons

/-- What is wrong with the terms is wrong with the compounds that are put off,
and these have no other compounds in them. -/
structure Covers (terms : List Term) (inner : List Pattern) : Prop where
  wrong_iff : ∀ cell, Term.Wrong terms cell ↔ Term.Wrong (pending inner) cell
  compounds_le : compoundsOf inner ≤ Term.compoundsOf terms

theorem Covers.nil : Covers [] [] :=
  ⟨fun _ => Iff.rfl, Nat.le_refl _⟩

theorem Covers.cons {term : Term} {rest : List Term}
    {first others : List Pattern} (here : Covers [term] first)
    (there : Covers rest others) : Covers (term :: rest) (first ++ others) where
  wrong_iff := fun cell => by
    rw [pending_append, Term.wrong_cons, Term.wrong_append,
      here.wrong_iff cell, there.wrong_iff cell]
  compounds_le := by
    have few := here.compounds_le
    have more := there.compounds_le
    rw [Term.compoundsOf, Term.compoundsOf] at few
    rw [compoundsOf_append, Term.compoundsOf]
    omega

end Pattern

namespace Slot

open ClauseM (postponed)

theorem postponed_cons (slot : Slot) (slots : List Slot) :
    postponed (slot :: slots) = postponed [slot] ++ postponed slots := by
  cases slot <;> rfl

/-- What is wrong with an argument is wrong with what its slot puts off. -/
theorem Planned.wrong_iff {naming : Naming} {draft after : Draft} {term : Term}
    {slot : Slot} (planned : Planned naming draft term slot after)
    {cell : Goal} :
    Term.Wrong [term] cell ↔
      Term.Wrong (Pattern.pending (postponed [slot])) cell := by
  cases planned with
  | void => exact iff_of_false Term.not_wrong_var Term.not_wrong_nil
  | first => exact iff_of_false Term.not_wrong_var Term.not_wrong_nil
  | again => exact iff_of_false Term.not_wrong_var Term.not_wrong_nil
  | constant decided => exact Shape.wrong_of decided
  | @nested _ functor args decided =>
      have left : Pattern.pending
          (postponed [.nested draft.nextLocal functor args]) = args :=
        List.append_nil args
      rw [left]
      exact Shape.wrong_of decided

theorem PlannedAll.wrong_iff {naming : Naming} {draft after : Draft}
    {terms : List Term} {slots : List Slot}
    (planned : PlannedAll naming draft terms slots after) {cell : Goal} :
    Term.Wrong terms cell ↔
      Term.Wrong (Pattern.pending (postponed slots)) cell := by
  induction planned with
  | nil => exact Iff.rfl
  | cons first _ ih =>
      rw [postponed_cons, Pattern.pending_append, Term.wrong_append,
        Term.wrong_cons, first.wrong_iff, ih]

end Slot

namespace ClauseM

variable {naming : Naming} {draft : Draft}

theorem Matches.covers {pattern : Pattern} {text : List Item}
    {inner : List Pattern} {after : Draft}
    (matched : Matches naming draft pattern text inner after) :
    Pattern.Covers pattern.args inner where
  wrong_iff := fun cell => by
    rw [matched.inner_eq]
    exact matched.planned.wrong_iff
  compounds_le := by
    have fewer := matched.inner_le.1
    rw [Pattern.compounds] at fewer
    omega

theorem MatchesArgument.covers {index : Nat} {term : Term}
    {text : List Item} {inner : List Pattern} {after : Draft}
    (matched : MatchesArgument naming draft index term text inner after) :
    Pattern.Covers [term] inner where
  wrong_iff := fun cell => by
    cases matched with
    | void => exact iff_of_false Term.not_wrong_var Term.not_wrong_nil
    | first => exact iff_of_false Term.not_wrong_var Term.not_wrong_nil
    | again => exact iff_of_false Term.not_wrong_var Term.not_wrong_nil
    | constant decided => exact Shape.wrong_of decided
    | compound decided matched =>
        obtain ⟨matched⟩ := matched
        exact (Shape.wrong_of decided).trans (matched.covers.wrong_iff cell)
  compounds_le := matched.inner_le.1

end ClauseM

/-! ## Reasons for refusing -/

namespace ClauseM

/-- The fault names a misshapen cell of the terms. -/
def Blames (terms : List Term) (fault : Fault) : Prop :=
  ∃ cell, Term.Wrong terms cell ∧ fault = .malformed (.listArity cell)

theorem Blames.imp {terms more : List Term} {fault : Fault}
    (within : ∀ cell, Term.Wrong terms cell → Term.Wrong more cell)
    (blames : Blames terms fault) : Blames more fault := by
  obtain ⟨cell, wrong, rfl⟩ := blames
  exact ⟨cell, within cell wrong, rfl⟩

/-- What compiling leads to when all names are known: a result, or a fault for
a reason. -/
def Settles (plan : ClauseM PlanM α) (reason : Fault → Prop)
    (post : α → Prop) : Prop :=
  ∀ draft naming, match plan draft naming with
    | .ok (value, _) => post value
    | .error fault => naming.Total → reason fault

namespace Settles

variable {reason : Fault → Prop}

theorem pure {post : α → Prop} {value : α} (holds : post value) :
    Settles (Pure.pure value) reason post :=
  fun _ _ => holds

theorem returned {value : α} :
    Settles (Pure.pure value) reason fun result => result = value :=
  fun _ _ => rfl

theorem getting : Settles get reason fun _ => True :=
  fun _ _ => trivial

theorem throw {post : α → Prop} {fault : Fault} (holds : reason fault) :
    Settles (MonadExcept.throw fault) reason post :=
  fun _ _ _ => holds

theorem bind {plan : ClauseM PlanM α} {next : α → ClauseM PlanM β}
    {middle : α → Prop} {post : β → Prop} (first : Settles plan reason middle)
    (second : ∀ value, middle value → Settles (next value) reason post) :
    Settles (plan >>= next) reason post := by
  intro draft naming
  have here := first draft naming
  have shape : (plan >>= next) draft naming =
      ((plan draft naming) >>= fun result => next result.1 result.2 naming) :=
    rfl
  rw [shape]
  cases ran : plan draft naming with
  | error fault =>
      rw [ran] at here
      exact here
  | ok result =>
      rw [ran] at here
      exact second result.1 here result.2 naming

theorem map {plan : ClauseM PlanM α} (apply : α → β)
    (settles : Settles plan reason fun _ => True) :
    Settles (apply <$> plan) reason
      fun result => ∃ value, result = apply value :=
  settles.bind fun value _ => .pure ⟨value, rfl⟩

theorem imp {plan : ClauseM PlanM α} {weaker : Fault → Prop}
    {stronger post : α → Prop} (settles : Settles plan reason stronger)
    (onFault : ∀ fault, reason fault → weaker fault)
    (onResult : ∀ value, stronger value → post value) :
    Settles plan weaker post := by
  intro draft naming
  have here := settles draft naming
  cases ran : plan draft naming with
  | ok result =>
      rw [ran] at here
      exact onResult _ here
  | error fault =>
      rw [ran] at here
      exact fun total => onFault fault (here total)

theorem first {plan : ClauseM PlanM α} {post : α → Prop} {term : Term}
    {rest : List Term} (settles : Settles plan (Blames [term]) post) :
    Settles plan (Blames (term :: rest)) post :=
  settles.imp (fun _ => Blames.imp fun _ wrong =>
    Term.wrong_cons.mpr (.inl wrong)) fun _ => id

theorem others {plan : ClauseM PlanM α} {post : α → Prop} {term : Term}
    {rest : List Term} (settles : Settles plan (Blames rest) post) :
    Settles plan (Blames (term :: rest)) post :=
  settles.imp (fun _ => Blames.imp fun _ wrong =>
    Term.wrong_cons.mpr (.inr wrong)) fun _ => id

/-- The same is wrong with other terms. -/
theorem rephrased {plan : ClauseM PlanM α} {terms others : List Term}
    (same : ∀ cell, Term.Wrong others cell ↔ Term.Wrong terms cell)
    (settles : Settles plan (Blames terms)
      fun _ => ∀ cell, ¬ Term.Wrong terms cell) :
    Settles plan (Blames others) fun _ => ∀ cell, ¬ Term.Wrong others cell :=
  settles.imp (fun _ => Blames.imp fun cell => (same cell).mpr)
    fun _ fine cell wrong => fine cell ((same cell).mp wrong)

/-- What never goes wrong needs no reason. -/
theorem of_plans {plan : ClauseM PlanM α} {post : α → Prop}
    (plans : ∀ draft naming,
      Plans plan draft naming True fun value _ => post value) :
    Settles plan reason post := by
  intro draft naming
  have here := plans draft naming
  unfold Plans at here
  cases ran : plan draft naming with
  | ok result =>
      rw [ran] at here
      exact here
  | error fault =>
      rw [ran] at here
      exact fun total => absurd trivial (here total)

/-- What is known about the result of a plan that ends well. -/
theorem knowing {plan : ClauseM PlanM α} {proper : Prop} {post other : α → Prop}
    (settles : Settles plan reason post)
    (plans : ∀ draft naming,
      Plans plan draft naming proper fun value _ => other value) :
    Settles plan reason other := by
  intro draft naming
  have here := settles draft naming
  have there := plans draft naming
  unfold Plans at there
  cases ran : plan draft naming with
  | ok result =>
      rw [ran] at there
      exact there
  | error fault =>
      rw [ran] at here
      exact here

end Settles

section Names

variable {reason : Fault → Prop}

theorem newLocal_settles : Settles newLocal reason fun _ => True :=
  fun _ _ => trivial

theorem newLabel_settles : Settles newLabel reason fun _ => True :=
  fun _ _ => trivial

theorem emit_settles (items : List Item) :
    Settles (emit items) reason fun _ => True :=
  fun _ _ => trivial

theorem intern_settles (functor : Functor) :
    Settles (intern functor) reason fun _ => True :=
  .of_plans fun _ _ => Plans.intern.imp id fun _ _ _ => trivial

theorem entryOf_settles (functor : Functor) :
    Settles (liftM (Linker.entryOf functor : PlanM Nat)) reason
      fun _ => True :=
  .of_plans fun _ _ => Plans.entryOf.imp id fun _ _ _ => trivial

theorem occurrence_settles (name : String) :
    Settles (occurrence name) reason fun _ => True :=
  .of_plans fun _ _ => (occurrence_plans name).imp id fun _ _ _ => trivial

theorem working_settles : Settles working reason fun _ => True :=
  .of_plans fun _ _ => working_plans.imp id fun _ _ _ => trivial

end Names

/-- A term without a case is refused. -/
theorem shape_settles (term : Term) :
    Settles (shape term) (Blames [term])
      fun shape => Shape.of term = .ok shape := by
  unfold shape
  cases decided : Shape.of term with
  | ok shape => exact .pure rfl
  | error fault => exact .throw (Shape.of_eq_error decided)

/-! ## The head -/

theorem planSlot_settles (term : Term) :
    Settles (planSlot term) (Blames [term]) fun _ => True := by
  apply (shape_settles term).bind
  intro shape decided
  cases shape with
  | void => exact .pure trivial
  | «variable» name =>
      apply (occurrence_settles name).bind
      intro occurrence _
      cases occurrence <;> exact .pure trivial
  | constant functor =>
      refine (intern_settles functor).bind fun id _ => ?_
      refine newLabel_settles.bind fun read _ => ?_
      exact newLabel_settles.bind fun done _ => .pure trivial
  | compound functor args =>
      exact newLocal_settles.bind fun slot _ => .pure trivial

theorem planSlots_settles (terms : List Term) :
    Settles (terms.mapM planSlot) (Blames terms) fun _ => True := by
  induction terms with
  | nil =>
      rw [List.mapM_nil]
      exact .pure trivial
  | cons term rest ih =>
      rw [List.mapM_cons]
      refine (planSlot_settles term).first.bind fun slot _ => ?_
      exact ih.others.bind fun slots _ => .pure trivial

theorem emitLabelled_settles (items : Label → Label → Label → List Item)
    (value : α) {reason : Fault → Prop} :
    Settles (do
        let read ← newLabel
        let fail ← newLabel
        let done ← newLabel
        emit (items read fail done)
        return value) reason fun _ => True := by
  refine newLabel_settles.bind fun read _ => ?_
  refine newLabel_settles.bind fun fail _ => ?_
  refine newLabel_settles.bind fun done _ => ?_
  exact (emit_settles _).bind fun _ _ => .pure trivial

theorem matchPattern_settles (pattern : Pattern) :
    Settles (matchPattern pattern) (Blames pattern.args)
      (Pattern.Covers pattern.args) := by
  have refused : Settles (matchPattern pattern) (Blames pattern.args)
      fun _ => True := by
    refine working_settles.bind fun (subject, cursor) _ => ?_
    refine (planSlots_settles pattern.args).bind fun slots _ => ?_
    cases pattern.functor with
    | some functor =>
        refine Settles.bind ((intern_settles functor).map some) ?_
        exact fun _ _ => emitLabelled_settles _ _
    | none =>
        refine Settles.bind .returned ?_
        exact fun _ _ => emitLabelled_settles _ _
  refine refused.knowing fun draft naming =>
    (matchPattern_plans pattern).imp id ?_
  rintro inner after ⟨text, ⟨matched⟩⟩
  exact matched.covers

theorem matchArgument_settles (index : Nat) (term : Term) :
    Settles (matchArgument index term) (Blames [term])
      (Pattern.Covers [term]) := by
  have refused : Settles (matchArgument index term) (Blames [term])
      fun _ => True := by
    apply (shape_settles term).bind
    intro shape decided
    cases shape with
    | void => exact .pure trivial
    | «variable» name =>
        apply (occurrence_settles name).bind
        intro occurrence _
        cases occurrence <;>
          exact (emit_settles _).bind fun _ _ => .pure trivial
    | constant functor =>
        refine (intern_settles functor).bind fun id _ => ?_
        refine working_settles.bind fun (subject, cursor) _ => ?_
        refine newLabel_settles.bind fun read _ => ?_
        refine newLabel_settles.bind fun done _ => ?_
        exact (emit_settles _).bind fun _ _ => .pure trivial
    | compound functor args =>
        refine (matchPattern_settles ⟨.argument index, functor, args⟩).imp
          (fun _ => Blames.imp fun cell => ?_) fun _ _ => trivial
        exact (Shape.wrong_of decided).mpr
  refine refused.knowing fun draft naming =>
    (matchArgument_plans index term).imp id ?_
  rintro inner after ⟨text, matched⟩
  exact matched.covers

theorem matchArguments_settles (index : Nat) (terms : List Term) :
    Settles (matchArguments index terms) (Blames terms)
      (Pattern.Covers terms) := by
  induction terms generalizing index with
  | nil => exact .pure .nil
  | cons term rest ih =>
      refine (matchArgument_settles index term).first.bind fun first here => ?_
      refine (ih (index + 1)).others.bind fun others there => ?_
      exact .pure (here.cons there)

/-- All compounds that are put off are matched, because every match leaves
fewer of them. -/
theorem matchPostponed_settles (count : Nat) (patterns : List Pattern)
    (few : Pattern.compoundsOf patterns ≤ count) :
    Settles (matchPostponed count patterns)
      (Blames (Pattern.pending patterns))
      fun _ => ∀ cell, ¬ Term.Wrong (Pattern.pending patterns) cell := by
  induction count generalizing patterns with
  | zero =>
      cases patterns with
      | nil => exact .pure fun _ => Term.not_wrong_nil
      | cons pattern rest =>
          rw [Pattern.compoundsOf_cons, Pattern.compounds] at few
          omega
  | succ count ih =>
      cases patterns with
      | nil => exact .pure fun _ => Term.not_wrong_nil
      | cons pattern rest =>
          rw [Pattern.compoundsOf_cons, Pattern.compounds] at few
          refine ((matchPattern_settles pattern).imp (fun _ => Blames.imp
            fun cell wrong => ?_) fun _ => id).bind fun inner covers => ?_
          · rw [Pattern.pending_cons, Term.wrong_append]
            exact .inl wrong
          · have fewer := covers.compounds_le
            have same (cell : Goal) :
                Term.Wrong (Pattern.pending (pattern :: rest)) cell ↔
                  Term.Wrong (Pattern.pending (rest ++ inner)) cell := by
              rw [Pattern.pending_cons, Pattern.pending_append,
                Term.wrong_append, Term.wrong_append, covers.wrong_iff cell,
                or_comm]
            refine (ih (rest ++ inner) ?_).rephrased same
            rw [Pattern.compoundsOf_append]
            omega

theorem compileHead_settles (head : Goal) :
    Settles (compileHead head) (Blames head.args)
      fun _ => ∀ cell, ¬ Term.Wrong head.args cell := by
  refine (matchArguments_settles 0 head.args).bind fun patterns covers => ?_
  exact (matchPostponed_settles _ patterns covers.compounds_le).rephrased
    covers.wrong_iff

/-! ## The goals -/

theorem buildFresh_settles (slot : Local) {reason : Fault → Prop} :
    Settles (buildFresh slot) reason fun _ => True :=
  (emit_settles _).bind fun _ _ => .pure trivial

theorem writeCompound_settles (functor : Option Functor) (args : List Built)
    {reason : Fault → Prop} :
    Settles (writeCompound functor args) reason fun _ => True := by
  cases functor with
  | some functor =>
      refine (intern_settles functor).bind fun id _ => ?_
      refine newLocal_settles.bind fun slot _ => ?_
      exact (emit_settles _).bind fun _ _ => .pure trivial
  | none =>
      refine newLocal_settles.bind fun slot _ => ?_
      exact (emit_settles _).bind fun _ _ => .pure trivial

/-- A term is built if its case allows it and its arguments can be built. -/
theorem build_settles_of {term : Term}
    (builds : ∀ functor args, Shape.of term = .ok (.compound functor args) →
      Settles (buildAll args) (Blames args)
        fun _ => ∀ cell, ¬ Term.Wrong args cell) :
    Settles (build term) (Blames [term])
      fun _ => ∀ cell, ¬ Term.Wrong [term] cell := by
  rw [build_eq]
  apply (shape_settles term).bind
  intro shape decided
  suffices builtShape : Settles (buildShape shape) (Blames shape.inner)
      fun _ => ∀ cell, ¬ Term.Wrong shape.inner cell from
    builtShape.rephrased fun _ => Shape.wrong_of decided
  have nothing (cell : Goal) : ¬ Term.Wrong [] cell := Term.not_wrong_nil
  cases shape with
  | void =>
      refine newLocal_settles.bind fun slot _ => ?_
      exact (buildFresh_settles slot).imp (fun _ => id) fun _ _ => nothing
  | «variable» name =>
      apply (occurrence_settles name).bind
      intro occurrence _
      cases occurrence with
      | first slot =>
          exact (buildFresh_settles slot).imp (fun _ => id) fun _ _ => nothing
      | again slot => exact .pure nothing
  | constant functor =>
      exact (intern_settles functor).bind fun id _ => .pure nothing
  | compound functor args =>
      refine (builds functor args decided).bind fun values fine => ?_
      exact (writeCompound_settles functor values).imp (fun _ => id)
        fun _ _ => fine

mutual

theorem build_settles : ∀ term : Term,
    Settles (build term) (Blames [term])
      fun _ => ∀ cell, ¬ Term.Wrong [term] cell
  | .atom _ => build_settles_of nofun
  | .var name => build_settles_of fun functor args decided => by
      rw [Shape.of] at decided
      split at decided <;> cases decided
  | .compound name args => build_settles_of fun functor inner decided => by
      rw [Shape.args_of decided]
      exact buildAll_settles args

theorem buildAll_settles : ∀ terms : List Term,
    Settles (buildAll terms) (Blames terms)
      fun _ => ∀ cell, ¬ Term.Wrong terms cell
  | [] => by
      rw [buildAll]
      exact .pure fun _ => Term.not_wrong_nil
  | term :: rest => by
      rw [buildAll]
      refine (build_settles term).first.bind fun value here => ?_
      refine (buildAll_settles rest).others.bind fun values there => ?_
      exact .pure fun cell wrong =>
        (Term.wrong_cons.mp wrong).elim (here cell) (there cell)

end

theorem compileGoal_settles (goal : Goal) :
    Settles (compileGoal goal) (Blames goal.args)
      fun _ => ∀ cell, ¬ Term.Wrong goal.args cell := by
  unfold compileGoal
  split
  case isTrue isCut =>
    have bare : goal.args = [] := by
      rw [Goal.isCut, Bool.and_eq_true] at isCut
      exact List.isEmpty_iff.mp isCut.1
    rw [bare]
    refine Settles.bind .getting fun draft _ => ?_
    cases draft.cutLevel with
    | none => exact .pure fun _ => Term.not_wrong_nil
    | some slot =>
        exact (emit_settles _).imp (fun _ => id)
          fun _ _ _ => Term.not_wrong_nil
  case isFalse =>
    refine (buildAll_settles goal.args).bind fun values fine => ?_
    refine (emit_settles _).bind fun _ _ => ?_
    refine (entryOf_settles _).bind fun entry _ => ?_
    exact (emit_settles _).imp (fun _ => id) fun _ _ => fine

theorem compileGoals_settles (goals : List Goal) {reason : Fault → Prop}
    (blames : ∀ goal ∈ goals, ∀ fault, Blames goal.args fault → reason fault) :
    Settles (forIn goals () fun goal _ => do
        compileGoal goal
        return ForInStep.yield ()) reason
      fun _ => ∀ goal ∈ goals, ∀ cell, ¬ Term.Wrong goal.args cell := by
  induction goals with
  | nil =>
      rw [List.forIn_nil]
      exact .pure nofun
  | cons goal rest ih =>
      rw [List.forIn_cons, bind_assoc]
      simp only [pure_bind]
      refine ((compileGoal_settles goal).imp
        (blames goal List.mem_cons_self) fun _ => id).bind fun _ here => ?_
      refine (ih fun other member =>
        blames other (List.mem_cons_of_mem _ member)).imp (fun _ => id) ?_
      intro _ there other member
      rcases List.mem_cons.mp member with rfl | later
      · exact here
      · exact there other later

end ClauseM

namespace Rule

/-- The fault names a misshapen cell of the rule. -/
def Blames (rule : Rule) (fault : Fault) : Prop :=
  ∃ cell, rule.Wrong cell ∧ fault = .malformed (.listArity cell)

end Rule

namespace ClauseM

theorem compileCutLevel_settles (rule : Rule) {reason : Fault → Prop} :
    Settles (compileCutLevel rule) reason fun _ => True := by
  unfold compileCutLevel
  split
  · exact fun _ _ => trivial
  · exact .pure trivial

/-- The head and the goals of a clause, and what comes after them. -/
theorem compileBody_settles (rule : Rule) {last : ClauseM PlanM Unit}
    (ends : Settles last rule.Blames fun _ => True) :
    Settles (do
        compileHead rule.head
        for goal in rule.goals do
          compileGoal goal
        last) rule.Blames fun _ => ∀ cell, ¬ rule.Wrong cell := by
  refine ((compileHead_settles rule.head).imp ?_ fun _ => id).bind
    fun _ head => ?_
  · rintro fault ⟨cell, wrong, rfl⟩
    exact ⟨cell, .inl wrong, rfl⟩
  · refine (compileGoals_settles rule.goals ?_).bind fun _ goals => ?_
    · rintro goal member fault ⟨cell, wrong, rfl⟩
      exact ⟨cell, .inr ⟨goal, member, wrong⟩, rfl⟩
    · refine ends.imp (fun _ => id) fun _ _ cell wrong => ?_
      rcases wrong with inHead | ⟨goal, member, inGoal⟩
      · exact head cell inHead
      · exact goals goal member cell inGoal

theorem compileRule_settles (rule : Rule) (trace : Bool) :
    Settles (compileRule rule trace) rule.Blames
      fun _ => ∀ cell, ¬ rule.Wrong cell := by
  refine (compileCutLevel_settles rule).bind fun _ _ => ?_
  cases trace with
  | true =>
      refine Settles.bind ((intern_settles _).map some) ?_
      rintro _ ⟨functor, rfl⟩
      refine (emit_settles _).bind fun _ _ => ?_
      exact compileBody_settles rule (emit_settles _)
  | false =>
      refine Settles.bind .returned ?_
      rintro _ rfl
      exact compileBody_settles rule (.pure trivial)

end ClauseM

/-! ## Whole rules -/

namespace Rule

/-- For known names, a rule has code if nothing is wrong with it, and the fault
names what is wrong otherwise. -/
theorem code_settles (rule : Rule) (trace : Bool) {naming : Naming}
    (total : naming.Total) :
    match rule.code trace naming with
    | .ok _ => ∀ cell, ¬ rule.Wrong cell
    | .error fault => rule.Blames fault := by
  have settles := ClauseM.compileRule_settles rule trace .empty naming
  cases compiled : (ClauseM.compileRule rule trace : ClauseM PlanM Unit) .empty
      naming with
  | error fault =>
      rw [compiled] at settles
      simp only [code, draft, compiled, Except.map]
      exact settles total
  | ok result =>
      obtain ⟨⟨⟩, draft⟩ := result
      rw [compiled] at settles
      obtain ⟨text, writes⟩ :=
        (ClauseM.compileRule_plans rule trace).of_ok compiled
      obtain ⟨body, finished, -⟩ :=
        Assembler.finish_of_text (writes.text [] Draft.text_empty)
      have code : rule.code trace naming =
          draft.assembler.clause rule.head.arity := by
        simp only [Rule.code, Rule.draft, compiled, Except.map]
        rfl
      rw [code, Assembler.clause, finished]
      exact settles

end Rule

namespace ProgramM

/-- Compiling a rule succeeds if nothing is wrong with the rule.  Otherwise a
misshapen cell is named, unless the code segment has become full before. -/
theorem compile_settles (rule : Rule) (trace : Bool) (program : Program) :
    Ends (compile rule trace program)
      (fun _ _ => ∀ cell, ¬ rule.Wrong cell)
      (fun fault _ => rule.Blames fault ∨
        ClauseM.Lacks program rule.goals.length fault) := by
  refine (compile_advances rule trace program).imp ?_ ?_
  · intro words after ⟨_, planned⟩
    have settles := rule.code_settles trace after.totalNaming_total
    rwa [planned _ after.names_totalNaming] at settles
  · rintro fault after ⟨_, full | planned⟩
    · exact .inr full
    · have settles := rule.code_settles trace after.totalNaming_total
      rw [planned _ after.names_totalNaming] at settles
      exact .inl settles

/-- The rules that are refused are those with a misshapen cell, whatever the
program, as long as its code segment does not become full.  There is no other
defect that compiling a rule can report, and a worklist with a stack of built
terms does for the arguments of a goal what the recursion does, so the stack
always has the terms that are taken from it. -/
theorem compile_refuses (rule : Rule) (trace : Bool) (program : Program) :
    (∀ after, compile rule trace program =
        .error (.exhausted .code program.code.size) after →
      program.code.size < program.top + dispatchSize * rule.goals.length) ∧
    ((∀ after, compile rule trace program ≠
        .error (.exhausted .code program.code.size) after) →
      ((∃ defect after, compile rule trace program =
          .error (.malformed defect) after) ↔ ∃ cell, rule.Wrong cell) ∧
      ((∃ words after, compile rule trace program = .ok words after) ↔
        ∀ cell, ¬ rule.Wrong cell)) ∧
    (∀ defect after, compile rule trace program =
        .error (.malformed defect) after →
      ∃ cell, rule.Wrong cell ∧ defect = .listArity cell) ∧
    (∀ terms : List Term,
      (terms.mapM ClauseM.buildByTasks :
        ClauseM ProgramM (List (Except Mishap Built))) =
        List.map .ok <$> ClauseM.buildAll terms) := by
  have settles := compile_settles rule trace program
  cases compiled : compile rule trace program with
  | ok words after =>
      rw [compiled] at settles
      have fine : ∀ cell, ¬ rule.Wrong cell := settles
      refine ⟨?full, fun _ => ⟨?refused, ?accepted⟩, ?named,
        ClauseM.mapM_buildByTasks⟩
      case full =>
        intro later same
        cases same
      case refused =>
        refine iff_of_false ?_ fun ⟨cell, wrong⟩ => fine cell wrong
        rintro ⟨defect, later, same⟩
        cases same
      case accepted => exact iff_of_true ⟨words, after, rfl⟩ fine
      case named =>
        intro defect later same
        cases same
  | error fault after =>
      rw [compiled] at settles
      rcases settles with ⟨cell, wrong, rfl⟩ | ⟨rfl, small⟩
      · refine ⟨?full, fun _ => ⟨?refused, ?accepted⟩, ?named,
          ClauseM.mapM_buildByTasks⟩
        case full =>
          intro later same
          cases same
        case refused => exact iff_of_true ⟨_, after, rfl⟩ ⟨cell, wrong⟩
        case accepted =>
          refine iff_of_false ?_ fun fine => fine cell wrong
          rintro ⟨words, later, same⟩
          cases same
        case named =>
          rintro defect later same
          cases same
          exact ⟨cell, wrong, rfl⟩
      · refine ⟨fun _ _ => small, fun enough => absurd rfl (enough after), ?_,
          ClauseM.mapM_buildByTasks⟩
        intro defect later same
        cases same

/-- A list cell with one argument, in an argument of a goal. -/
example : ∃ after, compile
    ⟨⟨"p", []⟩, [⟨"q", [.var "X", .compound Term.listFunctor [.atom "a"]]⟩]⟩
      false (Program.empty 64 .silent) =
    .error (.malformed (.listArity ⟨Term.listFunctor, [.atom "a"]⟩)) after :=
  ⟨_, rfl⟩

end ProgramM

end LogicMachine
