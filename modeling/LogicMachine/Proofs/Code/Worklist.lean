import LogicMachine.Proofs.Code.HeadText

/-!
# Building terms from a worklist

A term can be built without recursion.  What is left to do is kept as a list of
tasks, and the terms that were built are kept on a stack.  Visiting a compound
puts its arguments and then the compound itself in front of the other tasks;
writing a compound takes its arguments from the stack.  There are always enough
of them, and in the end there is one term on the stack, so the worklist does
what the recursion does.
-/

namespace LogicMachine

/-- What is left to do while a term is built. -/
inductive Task where
  | visit (term : Term)
  /-- Writes a structure, or a list pair without a functor, with the newest
  built terms as its arguments. -/
  | write (functor : Option Functor)

/-- What could be wrong with the stack of built terms. -/
inductive Mishap where
  /-- A compound has more arguments than there are terms. -/
  | underflow
  /-- There is no term when everything is done. -/
  | nothing
  deriving DecidableEq

namespace Task

/-- The number of terms that writing a compound takes from the stack. -/
def arity (functor : Option Functor) : Nat :=
  functor.elim 2 Functor.arity

/-- Visiting a compound leads to one visit for each of its arguments, and then
it is written. -/
def weight : Task → Nat
  | .visit term => 2 * term.nodes
  | .write _ => 1

def weightOf (tasks : List Task) : Nat :=
  (tasks.map weight).sum

@[simp]
theorem weightOf_cons (task : Task) (tasks : List Task) :
    weightOf (task :: tasks) = task.weight + weightOf tasks := by
  simp [weightOf]

theorem weightOf_lt_cons (task : Task) (tasks : List Task) :
    weightOf tasks < weightOf (task :: tasks) := by
  have positive : 0 < task.weight := by
    cases task with
    | visit term => exact Nat.mul_pos Nat.two_pos term.nodes_pos
    | write functor => exact Nat.one_pos
  rw [weightOf_cons]
  omega

theorem weightOf_visits (terms : List Term) (tasks : List Task) :
    weightOf (terms.map .visit ++ tasks) =
      2 * Term.nodesOf terms + weightOf tasks := by
  induction terms with
  | nil => simp [Term.nodesOf]
  | cons term rest ih =>
      rw [List.map_cons, List.cons_append, weightOf_cons, ih, weight,
        Term.nodesOf]
      omega

end Task

namespace Built

/-- Builds a list pair from its built arguments. -/
def listItems (slot : Local) (args : List Built) : List Item :=
  [Item.top, .plain .tagList, Item.onLocal .storeLocal slot] ++
    args.flatMap write

theorem pairItems_eq (slot : Local) (head tail : Built) :
    pairItems slot head tail = listItems slot [head, tail] := by
  simp [pairItems, listItems]

end Built

namespace Shape

theorem args_of {name : String} {functor : Option Functor}
    {args inner : List Term}
    (decided : of (.compound name args) = .ok (.compound functor inner)) :
    inner = args := by
  simp only [of] at decided
  split at decided <;> split at decided <;> cases decided <;> rfl

/-- The arguments of a compound are as many as it takes. -/
theorem arity_of {term : Term} {functor : Option Functor} {args : List Term}
    (decided : of term = .ok (.compound functor args)) :
    args.length = Task.arity functor := by
  cases term with
  | atom name => cases decided
  | var name =>
      simp only [of] at decided
      split at decided <;> cases decided
  | compound name inner =>
      simp only [of] at decided
      split at decided
      · split at decided
        case isTrue two =>
          cases decided
          exact two
        case isFalse => cases decided
      · split at decided <;> cases decided
        rfl

end Shape

namespace ClauseM

variable {m : Type → Type} [Linker m]

/-- Writes a compound whose arguments have been built. -/
def writeCompound (functor : Option Functor) (args : List Built) :
    ClauseM m Built :=
  match functor with
  | some functor => do
      let id ← intern functor
      let slot ← newLocal
      emit (Built.structureItems slot id args)
      return .slot slot
  | none => do
      let slot ← newLocal
      emit (Built.listItems slot args)
      return .slot slot

/-- Carries out the tasks.  The newest of the built terms come first. -/
def runTasks : List Task → List Built → ClauseM m (Except Mishap Built)
  | [], [] => return .error .nothing
  | [], value :: _ => return .ok value
  | .visit term :: tasks, values =>
      match decided : Shape.of term with
      | .error fault => throw fault
      | .ok .void => do
          let value ← buildFresh (← newLocal)
          runTasks tasks (value :: values)
      | .ok (.variable name) => do
          let value ← buildVariable name
          runTasks tasks (value :: values)
      | .ok (.constant functor) => do
          let id ← intern functor
          runTasks tasks (.constant id :: values)
      | .ok (.compound functor args) =>
          runTasks (args.map .visit ++ .write functor :: tasks) values
  | .write functor :: tasks, values =>
      if values.length < Task.arity functor then
        return .error .underflow
      else do
        let value ← writeCompound functor
          (values.take (Task.arity functor)).reverse
        runTasks tasks (value :: values.drop (Task.arity functor))
termination_by tasks => Task.weightOf tasks
decreasing_by
  · exact Task.weightOf_lt_cons _ tasks
  · exact Task.weightOf_lt_cons _ tasks
  · exact Task.weightOf_lt_cons _ tasks
  · obtain ⟨-, nodes, -⟩ := Shape.compounds_of decided
    rw [Task.weightOf_visits]
    simp only [Task.weightOf_cons, Task.weight]
    omega
  · exact Task.weightOf_lt_cons _ tasks

/-- Builds a term with a worklist. -/
def buildByTasks (term : Term) : ClauseM m (Except Mishap Built) :=
  runTasks [.visit term] []

end ClauseM

/-- After a fault nothing more is done. -/
class LawfulLinker (m : Type → Type) [Linker m] : Prop
    extends LawfulMonad m where
  throw_bind : ∀ {α β : Type} (fault : Fault) (next : α → m β),
    (throw fault >>= next) = throw fault

instance : LawfulLinker ProgramM where
  throw_bind := fun _ _ => rfl

instance : LawfulLinker PlanM where
  throw_bind := fun _ _ => rfl

namespace ClauseM

variable {m : Type → Type} [Linker m] [LawfulLinker m]

theorem throw_bind (fault : Fault) (next : α → ClauseM m β) :
    (throw fault >>= next) = throw fault := by
  funext draft
  show ((throw fault >>= fun value => pure (value, draft)) >>= fun result =>
    next result.1 result.2) = (throw fault >>= fun value => pure (value, draft))
  rw [LawfulLinker.throw_bind, LawfulLinker.throw_bind,
    LawfulLinker.throw_bind]

theorem buildAll_pair (head tail : Term) (next : List Built → ClauseM m α) :
    (buildAll [head, tail] >>= next) =
      (build head >>= fun first => build tail >>= fun second =>
        next [first, second]) := by
  simp only [buildAll, bind_assoc, pure_bind]

/-- What is done with built terms may rely on their number. -/
theorem buildAll_bind_congr {terms : List Term}
    {next other : List Built → ClauseM m α}
    (same : ∀ values, values.length = terms.length →
      next values = other values) :
    (buildAll terms >>= next) = (buildAll terms >>= other) := by
  induction terms generalizing next other with
  | nil => simpa only [buildAll, pure_bind] using same [] rfl
  | cons term rest ih =>
      simp only [buildAll, bind_assoc, pure_bind]
      congr 1
      funext value
      exact ih fun values length => same (value :: values) (by simp [length])

/-- Builds what a case says. -/
def buildShape : Shape → ClauseM m Built
  | .void => do buildFresh (← newLocal)
  | .variable name => buildVariable name
  | .constant functor => do return .constant (← intern functor)
  | .compound functor args => do writeCompound functor (← buildAll args)

theorem shape_bind_ok {term : Term} {shape : Shape}
    (decided : Shape.of term = .ok shape) (next : Shape → ClauseM m α) :
    (ClauseM.shape term >>= next) = next shape := by
  rw [ClauseM.shape, decided, pure_bind]

theorem shape_bind_error {term : Term} {fault : Fault}
    (decided : Shape.of term = .error fault) (next : Shape → ClauseM m α) :
    (ClauseM.shape term >>= next) = throw fault := by
  rw [ClauseM.shape, decided, throw_bind]

/-- A structure is built from all of its arguments. -/
theorem build_structure {functor : String} {args : List Term}
    (notList : functor ≠ Term.listFunctor) (nonempty : args ≠ []) :
    (build (.compound functor args) : ClauseM m Built) =
      buildAll args >>= writeCompound (some ⟨functor, args.length⟩) := by
  rcases args with _ | ⟨first, _ | ⟨second, _ | ⟨third, more⟩⟩⟩
  case nil => exact absurd rfl nonempty
  case cons.cons.nil =>
    rw [build, buildAll_pair]
    simp only [if_neg notList]
    rfl
  all_goals
    rw [build, if_neg notList]
    · rfl
    all_goals simp

/-- A term is built as its case says. -/
theorem build_eq (term : Term) :
    (build term : ClauseM m Built) = shape term >>= buildShape := by
  cases term with
  | atom name =>
      rw [shape_bind_ok rfl, build]
      rfl
  | var name =>
      rw [build]
      split
      case isTrue unnamed =>
        rw [shape_bind_ok (by rw [Shape.of, if_pos unnamed])]
        rfl
      case isFalse named =>
        rw [shape_bind_ok (by rw [Shape.of, if_neg named])]
        rfl
  | compound functor args =>
      by_cases isList : functor = Term.listFunctor
      · by_cases two : args.length = 2
        · obtain ⟨head, tail, rfl⟩ := List.length_eq_two.mp two
          rw [shape_bind_ok (by rw [Shape.of, if_pos isList, if_pos two]),
            buildShape, buildAll_pair, build]
          simp only [if_pos isList, Built.pairItems_eq]
          rfl
        · rw [shape_bind_error (by rw [Shape.of, if_pos isList, if_neg two])]
          rcases args with _ | ⟨first, _ | ⟨second, _ | ⟨third, more⟩⟩⟩
          case cons.cons.nil => exact absurd rfl two
          all_goals
            rw [build, if_pos isList, throw_bind]
            all_goals simp
      · by_cases empty : args = []
        · subst empty
          rw [shape_bind_ok (by rw [Shape.of, if_neg isList]; rfl), build,
            if_neg isList]
          rfl
        · have nonempty : ¬ args.isEmpty = true := by simpa using empty
          rw [shape_bind_ok (by rw [Shape.of, if_neg isList, if_neg nonempty]),
            build_structure isList empty]
          rfl

/-! ## The worklist does what the recursion does -/

omit [LawfulLinker m] in
/-- A compound is written when its arguments lie on the stack, the last one on
top. -/
theorem runTasks_write {functor : Option Functor} {args : List Built}
    (enough : args.length = Task.arity functor) (tasks : List Task)
    (values : List Built) :
    (runTasks (.write functor :: tasks) (args.reverse ++ values) :
      ClauseM m (Except Mishap Built)) =
      writeCompound functor args >>= fun value =>
        runTasks tasks (value :: values) := by
  have length : args.reverse.length = Task.arity functor := by
    rw [List.length_reverse, enough]
  rw [runTasks, if_neg (by rw [List.length_append]; omega),
    ← length, List.take_left, List.drop_left, List.reverse_reverse]

/-- A visit does what its case says, if the arguments of a compound are
visited one after another. -/
theorem runTasks_visit_of {term : Term}
    (visits : ∀ functor args, Shape.of term = .ok (.compound functor args) →
      ∀ tasks values, (runTasks (args.map .visit ++ tasks) values :
        ClauseM m (Except Mishap Built)) =
        buildAll args >>= fun built => runTasks tasks (built.reverse ++ values))
    (tasks : List Task) (values : List Built) :
    (runTasks (.visit term :: tasks) values :
      ClauseM m (Except Mishap Built)) =
      build term >>= fun value => runTasks tasks (value :: values) := by
  rw [runTasks, build_eq]
  split
  case h_1 fault decided => rw [shape_bind_error decided, throw_bind]
  case h_2 decided => rw [shape_bind_ok decided, buildShape, bind_assoc]
  case h_3 name decided => rw [shape_bind_ok decided, buildShape]
  case h_4 functor decided =>
    rw [shape_bind_ok decided, buildShape, bind_assoc]
    simp only [pure_bind]
  case h_5 functor args decided =>
    rw [shape_bind_ok decided, buildShape, bind_assoc,
      visits functor args decided]
    exact buildAll_bind_congr fun built length =>
      runTasks_write (length.trans (Shape.arity_of decided)) tasks values

mutual

theorem runTasks_visit : ∀ (term : Term) (tasks : List Task)
    (values : List Built),
    (runTasks (.visit term :: tasks) values :
      ClauseM m (Except Mishap Built)) =
      build term >>= fun value => runTasks tasks (value :: values)
  | .atom _ => runTasks_visit_of nofun
  | .var name => runTasks_visit_of fun functor args decided => by
      rw [Shape.of] at decided
      split at decided <;> cases decided
  | .compound name args => runTasks_visit_of fun functor inner decided => by
      rw [Shape.args_of decided]
      exact runTasks_visits args

theorem runTasks_visits : ∀ (terms : List Term) (tasks : List Task)
    (values : List Built),
    (runTasks (terms.map .visit ++ tasks) values :
      ClauseM m (Except Mishap Built)) =
      buildAll terms >>= fun built => runTasks tasks (built.reverse ++ values)
  | [], tasks, values => by
      rw [buildAll, pure_bind]
      rfl
  | term :: rest, tasks, values => by
      rw [List.map_cons, List.cons_append, runTasks_visit]
      simp only [buildAll, bind_assoc, pure_bind]
      congr 1
      funext value
      rw [runTasks_visits rest]
      simp only [List.reverse_cons, List.append_assoc, List.cons_append,
        List.nil_append]

end

/-- The stack never has too few terms, and in the end it has one. -/
theorem buildByTasks_eq (term : Term) :
    (buildByTasks term : ClauseM m (Except Mishap Built)) =
      .ok <$> build term := by
  rw [buildByTasks, runTasks_visit, map_eq_pure_bind]
  congr 1
  funext value
  rw [runTasks]

theorem mapM_buildByTasks (terms : List Term) :
    (terms.mapM buildByTasks : ClauseM m (List (Except Mishap Built))) =
      List.map .ok <$> buildAll terms := by
  induction terms with
  | nil => rw [List.mapM_nil, buildAll, map_pure]; rfl
  | cons term rest ih =>
      rw [List.mapM_cons, ih, buildByTasks_eq, buildAll]
      simp only [map_eq_pure_bind, bind_assoc, pure_bind, List.map_cons]

end ClauseM

end LogicMachine
