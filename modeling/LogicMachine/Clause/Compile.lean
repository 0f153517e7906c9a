import LogicMachine.Clause.Body
import LogicMachine.Clause.Head

/-!
# Compiling clauses

A clause is compiled into code that can be put anywhere in the code segment: it
sets up an activation record, matches the head, solves the goals and returns.
On request the code reports its entry and its exit.
-/

namespace LogicMachine

namespace ClauseM

variable {m : Type → Type} [Linker m]

/-- Keeps the level that the cuts of the clause go back to. -/
def compileCutLevel (rule : Rule) : ClauseM m Unit := do
  if rule.goals.any Goal.isCut then
    let slot ← newLocal
    emit [.plain .loadCutBase, Item.onLocal .storeLocal slot]
    modify fun draft => { draft with cutLevel := some slot }

/-- Compiles the body of the code of a clause. -/
def compileRule (rule : Rule) (trace : Bool) : ClauseM m Unit := do
  compileCutLevel rule
  let traced ← if trace then
      some <$> intern (.ofGoal rule.head)
    else
      pure none
  match traced with
  | some functor => emit [.operand .trace functor.index]
  | none => pure ()
  compileHead rule.head
  for goal in rule.goals do
    compileGoal goal
  match traced with
  | some functor => emit [.operand .endTrace functor.index]
  | none => pure ()

end ClauseM

namespace ProgramM

/-- A fault or a value that does not depend on the program. -/
def ofExcept (value : Except Fault α) : ProgramM α := fun program =>
  match value with
  | .ok value => .ok value program
  | .error fault => .error fault program

/-- The code of a clause. -/
def compile (rule : Rule) (trace : Bool) : ProgramM (List UInt32) := do
  let ((), draft) ← (ClauseM.compileRule rule trace).run .empty
  ofExcept (draft.assembler.clause rule.head.arity)

end ProgramM

end LogicMachine
