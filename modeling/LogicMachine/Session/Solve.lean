import LogicMachine.Session.Basic

/-!
# Solving queries

A query is compiled like a rule whose head has the named variables of the query
as its arguments.  Its code is given back when the next query is put, if nothing
was added after it.  The first solution is looked for when the query is put and
every further one on demand.

An attempt that ends in a fault leaves the query as the attempt before it did,
so the query still counts as solved if that one was.
-/

namespace LogicMachine

namespace Rule

/-- The rule that a query is compiled as. -/
def ofQuery (goals : List Goal) : Rule :=
  let names := (goals.flatMap Goal.vars).filter (· ≠ Term.anonymous)
  ⟨⟨"_query", names.eraseDups.map .var⟩, goals⟩

end Rule

namespace SessionM

/-- Gives the code of the last query back. -/
def releaseScratch : SessionM Unit := do
  match (← get).scratch with
  | some (start, stop) =>
      modify fun session => { session with scratch := none }
      discard (onProgram (ProgramM.release start stop))
  | none => return

/-- Compiles a query and returns its entry. -/
def compileQuery (rule : Rule) : SessionM Nat := do
  releaseScratch
  let code ← onProgram (ProgramM.compile rule false)
  let entry ← onProgram (ProgramM.append code)
  let top := (← get).machine.program.top
  modify fun session => { session with scratch := some (entry, top) }
  onProgram (ProgramM.report (.queryCompiled rule entry))
  return entry

/-- Runs a part of an attempt and takes note of how it ended. -/
def attempt (action : MachineM Status) : SessionM Status := do
  let status ← onMachine action
  modify fun session => { session with current := session.current.settle status }
  return status

/-- Puts a query and looks for its first solution. -/
def query (steps : Nat) (goals : List Goal) : SessionM Status := do
  let rule := Rule.ofQuery goals
  let names := Term.varsOf rule.head.args
  modify fun session => { session with current := .unsolved names }
  let entry ← compileQuery rule
  onMachine (MachineM.start entry.toUInt32 names.length)
  attempt (MachineM.run steps)

/-- Looks for the next solution.  Once there are no more, nothing changes. -/
def resume (steps : Nat) : SessionM Status := do
  if (← get).canResume then
    attempt (MachineM.resume steps)
  else
    attempt (return .failed)

/-- Lets a predicate of the embedding program act on the machine and goes on
with its answer. -/
def serve (steps : Nat) (act : MachineM Bool) : SessionM Status :=
  attempt do MachineM.answer steps (← act)

/-- Goes on with the answer of the embedding program. -/
def answer (steps : Nat) (success : Bool) : SessionM Status :=
  serve steps (return success)

end SessionM

end LogicMachine
