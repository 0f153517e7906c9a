import LogicMachine.Clause.Compile
import LogicMachine.Session.Library

/-!
# Adding clauses to a program

A clause is added in two steps: its code is put at the top of the code segment,
and the dispatch code of its predicate is made to reach it last.  If the second
step finds no room, the code of the clause stays where it is but nothing leads
to it.
-/

namespace LogicMachine

namespace ProgramM

/-- Compiles a rule and makes it the last clause of its predicate. -/
def addRule (rule : Rule) (trace : Bool) : ProgramM Unit := do
  let code ← compile rule trace
  let clause ← append code
  report (.ruleCompiled rule clause code.length)
  addClause (.ofGoal rule.head) clause

/-- Makes given code the last clause of a predicate. -/
def addCode (functor : Functor) (code : List UInt32) : ProgramM Unit := do
  addClause functor (← append code)

/-- Defines a native predicate.  Its code sets up an activation record, so a
native predicate that calls another one returns to its own caller. -/
def defineNative (functor : Functor) (native : Native) : ProgramM Unit := do
  let index ← addNative native
  let body := Assembler.empty.add (.operand .native index.toUInt32)
  let code ← ofExcept (body.clause functor.arity)
  report (.nativeDefined functor index)
  addCode functor code

/-- Adds one entry of the library. -/
def install : Definition → ProgramM Unit
  | .assembled functor code => do addCode functor (← ofExcept code)
  | .native functor builtin => defineNative functor (.builtin builtin)
  | .clause rule => addRule rule false

/-- Adds the whole library. -/
def installLibrary : ProgramM Unit := do
  Library.definitions.forM install
  report (.builtinsInstalled (← get).top)

end ProgramM

end LogicMachine
