import LogicMachine.Machine.Step
import LogicMachine.Session.Install

/-!
# Sessions

A session is a machine with the standard library to which rules and native
predicates are added and queries are put.  Predicates may be called before they
are defined, and the clauses of a predicate are tried in the order in which they
were added.
-/

namespace LogicMachine

/-- A query whose solutions are being enumerated. -/
structure Query where
  /-- The named variables in the order of their first occurrence. -/
  names : List String
  /-- Whether the last attempt that came to an end found a solution. -/
  solved : Bool
  deriving Inhabited, DecidableEq

namespace Query

/-- A query before the first attempt. -/
def unsolved (names : List String) : Query :=
  ⟨names, false⟩

/-- Takes note of how an attempt stands. -/
def settle (query : Query) : Status → Query
  | .solved => { query with solved := true }
  | .failed => { query with solved := false }
  | .running | .awaiting _ => query

end Query

structure Session where
  machine : Machine
  /-- The code of the current query. -/
  scratch : Option (Nat × Nat)
  /-- Whether added rules report their entry and exit. -/
  trace : Bool
  /-- The query that was put last. -/
  current : Query
  deriving Inhabited

/-- Actions of a session.  The changes made before a fault stay. -/
abbrev SessionM := EStateM Fault Session

namespace Session

/-- A session on a machine to which no query has been put. -/
def ofMachine (machine : Machine) (trace : Bool) : Session :=
  ⟨machine, none, trace, .unsolved []⟩

/-- A session with the standard library.  The library needs room in the code
segment. -/
def create (config : Config) (journal : Journal) : Except Fault Session :=
  match (MachineM.onProgram ProgramM.installLibrary)
      (Machine.empty config journal) with
  | .ok _ machine => .ok (ofMachine machine config.trace)
  | .error fault _ => .error fault

/-- The binding of a variable of the current query.  There is none without a
solution, for a name that does not occur in the query, and for cells that form
no term. -/
def binding? (session : Session) (name : String) :
    Except Fault (Option Term) :=
  if session.current.solved then
    match session.current.names.idxOf? name with
    | some index =>
        let machine := session.machine
        let term := machine.store.readBack machine.program.functors
          (.heap (Int32.ofNat index))
        Fault.recover (fun _ => none) (term.map some)
    | none => .ok none
  else
    .ok none

/-- The variables of the current query with their bindings. -/
def bindings (session : Session) : Except Fault (List (String × Term)) := do
  let found ← session.current.names.mapM fun name => do
    return (← session.binding? name).map fun term => (name, term)
  return found.filterMap id

/-- Whether there is a choice point to look for another solution from. -/
def canResume (session : Session) : Bool :=
  session.machine.store.trail.hasChoice

end Session

namespace SessionM

def onMachine (action : MachineM α) : SessionM α := fun session =>
  match session with
  | ⟨machine, scratch, trace, current⟩ =>
      match action machine with
      | .ok value machine => .ok value ⟨machine, scratch, trace, current⟩
      | .error fault machine => .error fault ⟨machine, scratch, trace, current⟩

def onProgram (action : ProgramM α) : SessionM α :=
  onMachine (MachineM.onProgram action)

/-- Adds a rule as the last clause of its predicate. -/
def addRule (rule : Rule) : SessionM Unit := do
  let trace := (← get).trace
  onProgram (ProgramM.addRule rule trace)

/-- Adds rules up to the first one that is refused. -/
def addRules (rules : List Rule) : SessionM Unit :=
  rules.forM addRule

/-- Defines a predicate of the embedding program. -/
def defineForeign (functor : Functor) (key : Nat) : SessionM Unit :=
  onProgram (ProgramM.defineNative functor (.foreign key))

end SessionM

end LogicMachine
