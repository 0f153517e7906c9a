import LogicMachine.Proofs.Session.Computing

/-!
# What a session reports about its attempts

The solutions of a query are looked for one after another.  Every request either
comes to an end, with a solution or without one, or has to be taken up again, or
ends in a fault.  The query counts as solved if the last attempt that came to an
end found a solution.  A fault is no end in this sense: the query then stays
what it was before, and so do its bindings.
-/

namespace LogicMachine

/-- What is asked of a session to get on with its query. -/
inductive Continuation where
  | resume (steps : Nat)
  /-- A predicate of the embedding program acts on the machine and answers, or
  ends in a fault. -/
  | serve (steps : Nat) (act : MachineM Bool)
  /-- A run that has used up its steps goes on. -/
  | goOn (steps : Nat)

def Continuation.perform : Continuation → SessionM Status
  | .resume steps => SessionM.resume steps
  | .serve steps act => SessionM.serve steps act
  | .goOn steps => SessionM.attempt (MachineM.run steps)

/-- How a request ended. -/
abbrev Report := Except Fault Status

/-- Whether a query is solved after a request, if it was so before or not. -/
def Report.verdict (before : Bool) : Report → Bool
  | .ok .solved => true
  | .ok .failed => false
  | .ok .running | .ok (.awaiting _) | .error _ => before

namespace Session

/-- Makes a request and keeps what was reported. -/
def tell (session : Session) (request : SessionM Status) : Report × Session :=
  match request session with
  | .ok status after => (.ok status, after)
  | .error fault after => (.error fault, after)

/-- Makes one request after another, whether they end in a fault or not. -/
def tellAll (session : Session) : List Continuation → List Report × Session
  | [] => ([], session)
  | continuation :: rest =>
      let (report, middle) := session.tell continuation.perform
      let (reports, last) := middle.tellAll rest
      (report :: reports, last)

/-- The request settles the query and leaves everything else about it alone. -/
def Settles (request : SessionM Status) : Prop :=
  ∀ session : Session, (session.tell request).2.current =
    { session.current with
      solved := (session.tell request).1.verdict session.current.solved }

theorem attempt_settles (action : MachineM Status) :
    Settles (SessionM.attempt action) := by
  intro session
  unfold tell SessionM.attempt
  simp only [bind, EStateM.bind, SessionM.onMachine]
  cases action session.machine with
  | error fault machine => rfl
  | ok status machine => cases status <;> rfl

theorem resume_settles (steps : Nat) : Settles (SessionM.resume steps) := by
  intro session
  cases more : session.canResume with
  | true =>
      have same : session.tell (SessionM.resume steps) =
          session.tell (SessionM.attempt (MachineM.resume steps)) := by
        simp only [tell, SessionM.resume, bind, EStateM.bind, get_apply, more,
          if_true]
      rw [same]
      exact attempt_settles _ session
  | false =>
      have same : session.tell (SessionM.resume steps) =
          session.tell (SessionM.attempt (pure .failed)) := by
        simp only [tell, SessionM.resume, bind, EStateM.bind, get_apply, more,
          Bool.false_eq_true, if_false]
      rw [same]
      exact attempt_settles _ session

theorem perform_settles (continuation : Continuation) :
    Settles continuation.perform := by
  cases continuation with
  | resume steps => exact resume_settles steps
  | serve steps act => exact attempt_settles _
  | goOn steps => exact attempt_settles _

/-- One request after another. -/
theorem current_tellAll (session : Session)
    (continuations : List Continuation) :
    (session.tellAll continuations).2.current =
      { session.current with
        solved := (session.tellAll continuations).1.foldl Report.verdict
          session.current.solved } := by
  induction continuations generalizing session with
  | nil => rfl
  | cons continuation rest ih =>
      have first := perform_settles continuation session
      have others := ih (session.tell continuation.perform).2
      rw [first] at others
      exact others

/-! ## Putting a query -/

theorem onMachine_current (action : MachineM α) (wanted : Query) :
    Keeps (fun session : Session => session.current = wanted)
      (SessionM.onMachine action) := by
  intro session same
  unfold SessionM.onMachine
  cases session with
  | mk machine scratch trace current =>
      dsimp only at same ⊢
      cases action machine <;> exact same

theorem compileQuery_current (rule : Rule) (wanted : Query) :
    Keeps (fun session : Session => session.current = wanted)
      (SessionM.compileQuery rule) := by
  have onProgram {α : Type} (action : ProgramM α) :
      Keeps (fun session : Session => session.current = wanted)
        (SessionM.onProgram action) :=
    onMachine_current _ wanted
  unfold SessionM.compileQuery SessionM.releaseScratch
  refine .bind (.bind .get fun session => ?_) fun _ =>
    .bind (onProgram _) fun _ => .bind (onProgram _) fun _ =>
      .bind .get fun _ => .bind (.modifying fun _ same => same) fun _ =>
        .bind (onProgram _) fun _ => .pure _
  split
  · refine .bind (.modifying fun _ same => same) fun _ => ?_
    exact .bind (onProgram _) fun _ => .pure _
  · exact .pure _

/-- A query that has been put is solved if a solution was found at once. -/
theorem current_query (session : Session) (steps : Nat) (goals : List Goal) :
    (session.tell (SessionM.query steps goals)).2.current =
      ⟨Term.varsOf (Rule.ofQuery goals).head.args,
        (session.tell (SessionM.query steps goals)).1.verdict false⟩ := by
  let names := Term.varsOf (Rule.ofQuery goals).head.args
  have compiles := compileQuery_current (Rule.ofQuery goals) (.unsolved names)
    { session with current := .unsolved names } rfl
  unfold tell SessionM.query
  simp only [bind, EStateM.bind, modify, modifyGet_apply]
  cases compiled : SessionM.compileQuery (Rule.ofQuery goals)
      { session with current := .unsolved names } with
  | error fault middle =>
      rw [compiled] at compiles
      exact compiles
  | ok entry middle =>
      rw [compiled] at compiles
      have starts := onMachine_current
        (MachineM.start entry.toUInt32 names.length) (.unsolved names) middle
        compiles
      dsimp only
      cases started : SessionM.onMachine
          (MachineM.start entry.toUInt32 names.length) middle with
      | error fault last =>
          rw [started] at starts
          exact starts
      | ok value last =>
          rw [started] at starts
          have settled := attempt_settles (MachineM.run steps) last
          rw [show last.current = .unsolved names from starts] at settled
          exact settled

/-- Without a solution no variable has a binding. -/
theorem binding?_of_unsolved {session : Session}
    (unsolved : session.current.solved = false) (name : String) :
    session.binding? name = .ok none := by
  unfold binding?
  rw [unsolved]
  rfl

/-- Whatever a session is asked for after a query was put, the query counts as
solved if the last attempt that came to an end found a solution, and otherwise
no variable has a binding.  Attempts that end in a fault do not count. -/
theorem solved_tellAll (session : Session) (steps : Nat) (goals : List Goal)
    (continuations : List Continuation) :
    let (first, put) := session.tell (SessionM.query steps goals)
    let (reports, last) := put.tellAll continuations
    last.current.solved = (first :: reports).foldl Report.verdict false ∧
      (last.current.solved = false →
        ∀ name, last.binding? name = .ok none) := by
  have put := current_query session steps goals
  have later := current_tellAll
    (session.tell (SessionM.query steps goals)).2 continuations
  rw [put] at later
  exact ⟨congrArg Query.solved later, binding?_of_unsolved⟩

/-! ## A fault after a solution -/

/-- Two clauses of a predicate.  The second one makes a structure of an unbound
argument. -/
def shapes : List Rule :=
  [⟨⟨"p", [.atom "a"]⟩, []⟩, ⟨⟨"p", [.compound "f" [.var "Y"]]⟩, []⟩]

/-- In a heap of one cell the first solution of a query is found, and looking for
the second one ends in a fault.  The query still counts as solved then, and its
variable has a binding. -/
theorem outOfRoom_resume :
    ∃ session solved : Session,
      create ⟨1, 32, 0, 1800, false⟩ .silent = .ok session ∧
      (do
        SessionM.addRules shapes
        SessionM.query 50 [⟨"p", [.var "X"]⟩] : SessionM Status) session =
          .ok .solved solved ∧
      (solved.tell (SessionM.resume 60)).1 = .error (.exhausted .heap 1) ∧
      (solved.tell (SessionM.resume 60)).2.current.solved = true ∧
      (solved.tell (SessionM.resume 60)).2.binding? "X" =
        .ok (some (.var "_H0")) := by
  have computes : Computes ⟨1, 32, 0, 1800, false⟩ .silent
      (do
        shapes.forM Access.quick.extend
        Access.quick.query 50 [⟨"p", [.var "X"]⟩])
      fun status solved => status = .solved ∧
        (solved.tell (Access.quick.resume 60)).1 =
          .error (.exhausted .heap 1) ∧
        (solved.tell (Access.quick.resume 60)).2.current.solved = true ∧
        (solved.tell (Access.quick.resume 60)).2.binding? "X" =
          .ok (some (.var "_H0")) := by
    decide +kernel
  rw [Access.extend_quick, Access.query_quick, Access.resume_quick] at computes
  obtain ⟨session, _, solved, created, asked, rfl, faults⟩ :=
    computes.exists_session
  exact ⟨session, solved, created, asked, faults⟩

end Session

end LogicMachine
