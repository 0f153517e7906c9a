import LogicMachine.Proofs.Code.Numbering
import LogicMachine.Proofs.Code.Running
import LogicMachine.Proofs.Control.Plain
import LogicMachine.Session.Library

/-!
# Levels to cut back to

A goal is called in two steps.  First the number of open choice points is found
and a new variable is bound to the atom that spells it.  Then the variable is
handed on, as a last argument, to whatever solves the goal and the parts of the
goal, so that a cut in any of them goes back to that level.
-/

namespace LogicMachine

/-! ## Predicates that deal in levels -/

namespace Functor

/-- The predicate finds the level for the goals that it calls. -/
def setsLevel (functor : Functor) : Bool :=
  functor == ⟨"call", 1⟩ || functor == ⟨",", 2⟩

/-- The predicate hands on a level. -/
def passesLevel (functor : Functor) : Bool :=
  functor.setsLevel || functor == ⟨"$call", 2⟩

/-- The predicate finds the level at which it was called. -/
def findsLevel (functor : Functor) : Bool :=
  functor == ⟨"$level", 1⟩

/-- The predicate cuts back to the level that it is given. -/
def cutsLevel (functor : Functor) : Bool :=
  functor == ⟨"$cut", 1⟩

/-- The last argument is the level that cuts go back to. -/
def takesLevel (functor : Functor) : Bool :=
  functor == ⟨"$call", 2⟩ || functor.cutsLevel

/-- The predicate has a part in handing on levels. -/
def knowsLevel (functor : Functor) : Bool :=
  functor.passesLevel || functor.takesLevel || functor.findsLevel

/-- The predicate has one clause only. -/
def isSimple (functor : Functor) : Bool :=
  functor.setsLevel || functor.findsLevel

theorem not_isSimple {functor : Functor} (none : functor.arity = 0) :
    functor.isSimple = false := by
  simp only [isSimple, setsLevel, findsLevel, Bool.or_eq_false_iff,
    beq_eq_false_iff_ne, ne_eq]
  refine ⟨⟨?_, ?_⟩, ?_⟩
  all_goals
    rintro rfl
    cases none

theorem not_findsLevel {functor : Functor} (none : functor.arity = 0) :
    functor.findsLevel = false := by
  simp only [findsLevel, beq_eq_false_iff_ne, ne_eq]
  rintro rfl
  cases none

theorem knowsLevel_of_isSimple {functor : Functor}
    (simple : functor.isSimple = true) : functor.knowsLevel = true := by
  simp only [isSimple, Bool.or_eq_true] at simple
  rcases simple with sets | finds
  · simp [knowsLevel, passesLevel, sets]
  · simp [knowsLevel, finds]

theorem not_takesLevel_of_setsLevel {functor : Functor}
    (sets : functor.setsLevel = true) : functor.takesLevel = false := by
  simp only [setsLevel, Bool.or_eq_true, beq_iff_eq] at sets
  rcases sets with rfl | rfl <;> decide

theorem eq_of_passesLevel {functor : Functor}
    (passes : functor.passesLevel = true) (sets : functor.setsLevel = false) :
    functor = ⟨"$call", 2⟩ := by
  simpa [passesLevel, sets] using passes

end Functor

/-- The last argument of the goal is the level that its cuts go back to. -/
def Goal.takesLevel (goal : Goal) : Bool :=
  (Functor.ofGoal goal).takesLevel

/-- Goals that take a level stand in clauses that hand it on. -/
def Rule.Modest (rule : Rule) : Prop :=
  ∀ goal ∈ rule.goals, goal.takesLevel = true →
    (Functor.ofGoal rule.head).passesLevel = true

instance (rule : Rule) : Decidable rule.Modest :=
  inferInstanceAs (Decidable (∀ goal ∈ rule.goals, goal.takesLevel = true →
    (Functor.ofGoal rule.head).passesLevel = true))

/-- The rule neither calls a predicate that takes a level nor speaks of one. -/
structure Rule.Discreet (rule : Rule) : Prop where
  calls : ∀ goal ∈ rule.goals, goal.takesLevel = false
  speaks : ∀ functor ∈ rule.functors, functor.takesLevel = false

instance (rule : Rule) : Decidable rule.Discreet :=
  decidable_of_iff ((∀ goal ∈ rule.goals, goal.takesLevel = false) ∧
      ∀ functor ∈ rule.functors, functor.takesLevel = false)
    ⟨fun ⟨calls, speaks⟩ => ⟨calls, speaks⟩,
      fun discreet => ⟨discreet.calls, discreet.speaks⟩⟩

theorem Rule.Discreet.modest {rule : Rule} (discreet : rule.Discreet) :
    rule.Modest := by
  intro goal member takes
  rw [discreet.calls goal member] at takes
  cases takes

/-- No predicate that takes a level has been numbered, so no goal that is called
as a term takes one. -/
abbrev Program.Unspoken (program : Program) : Prop :=
  program.Numbers fun functor => functor.takesLevel = false

theorem Functor.takesLevel_constant (name : String) :
    (Functor.constant name).takesLevel = false := by
  simp [takesLevel, cutsLevel, constant]

instance : Program.Upkeep Program.Unspoken where
  report := fun _ _ => id
  number := fun _ name unspoken =>
    unspoken.intern (Functor.takesLevel_constant name)
  entryOf := ProgramM.entryOf_numbers

/-- The variable that is bound to a level in the library. -/
def Library.level : Term :=
  .var "L"

/-- Whatever goals take a level take that of the library's variable, and no cut
comes after them. -/
def Goal.levelled : List Goal → Bool
  | [] => true
  | goal :: rest =>
      (!goal.takesLevel ||
        (goal.args.getLast? == some Library.level && !rest.any Goal.isCut)) &&
        levelled rest

/-! ## Variables that are bound to levels -/

namespace Store

/-- The word refers to an unbound variable on the heap. -/
def Fresh (store : Store) (word : Word) : Prop :=
  ∃ index, index < store.heapTop ∧ word.cell = .reference (.heap index) ∧
    store.load (.heap index) = .ok word

/-- The word refers to a variable on the heap that is bound to the atom that
spells a number. -/
def Denotes (store : Store) (table : FunctorTable) (word : Word)
    (number : Nat) : Prop :=
  ∃ index content id, index < store.heapTop ∧
    word.cell = .reference (.heap index) ∧
    store.load (.heap index) = .ok content ∧ content.cell = .constant id ∧
    table.get? id = some (.constant (toString (number : Int)))

theorem Denotes.persists {before after : Store} {table : FunctorTable}
    {word : Word} {number : Nat} (denotes : before.Denotes table word number)
    (persists : before.Persists after) : after.Denotes table word number := by
  obtain ⟨index, content, id, below, refers, found, isAtom, named⟩ := denotes
  refine ⟨index, content, id, Int32.lt_of_lt_of_le below persists.heapTop,
    refers, persists.bound below found ?_, isAtom, named⟩
  rw [isAtom]
  nofun

end Store

end LogicMachine
