import LogicMachine.Proofs.Execution.Logic

/-!
# Runs with their calls

A run is followed together with the calls that have been made and have not
returned, and with those that were pending when each open choice point was
opened.  A call is known by the machine right after it was made.  What a step
means to the calls is told by the instruction and by whether its branch is given
up.  Nothing else about the machine changes when calls are followed.
-/

namespace LogicMachine

/-- What a step means to the pending calls and the open choice points. -/
inductive Turn where
  /-- They stay as they are. -/
  | onward
  /-- A call is made. -/
  | enters
  /-- The innermost call returns. -/
  | returns
  /-- A choice point is opened. -/
  | opens
  /-- The newest choice points are closed for good. -/
  | commits
  /-- The branch is given up. -/
  | retreats
  deriving DecidableEq

def Opcode.turn : Opcode → Turn
  | .call => .enters
  | .proceed => .returns
  | .choicePoint | .choicePointRelative => .opens
  | .cut => .commits
  | _ => .onward

/-- What a built-in native predicate that succeeds means to the calls. -/
def Builtin.turn : Builtin → Turn
  | .callGoal => .enters
  | .cut => .commits
  | _ => .onward

namespace MachineM

/-- The outcome of a test, and what it means if the test is passed. -/
def settle (turn : Turn) (success : Bool) : MachineM (Turn × Status) := do
  if success then return (turn, .running) else return (.retreats, ← fail)

/-- Executes an instruction and tells what it means to the calls. -/
def executeTurn (fuel : Nat) (position : Int32) (opcode : Opcode)
    (operand : UInt32) : MachineM (Turn × Status) := do
  match opcode with
  | .fail => settle .onward false
  | .unify => settle .onward (← unifyTop fuel)
  | .native =>
      match (← get).program.natives[operand.toNat]? with
      | none => throw (.unknownNative operand.toNat)
      | some (.foreign key) => return (.onward, .awaiting key)
      | some (.builtin builtin) =>
          settle builtin.turn (← runBuiltin fuel builtin)
  | _ => return (opcode.turn, ← execute fuel position opcode operand)

/-- Executes the next instruction and tells what it means to the calls. -/
def stepTurn (fuel : Nat) : MachineM (Turn × Status) := do
  let (position, opcode, operand) ← advance
  executeTurn fuel position opcode operand

theorem settle_snd (turn : Turn) (success : Bool) :
    Prod.snd <$> settle turn success = require success := by
  cases success with
  | true => rfl
  | false =>
      simp only [settle, require, map_bind, map_pure, Bool.false_eq_true,
        if_false, bind_pure]

theorem executeTurn_snd (fuel : Nat) (position : Int32) (opcode : Opcode)
    (operand : UInt32) :
    Prod.snd <$> executeTurn fuel position opcode operand =
      execute fuel position opcode operand := by
  cases opcode with
  | fail => exact settle_snd .onward false
  | unify =>
      simp only [executeTurn, execute, unifyTop, map_bind, settle_snd,
        bind_assoc]
  | native =>
      simp only [executeTurn, execute, callNative, map_bind]
      refine bind_congr fun machine => ?_
      cases machine.program.natives[operand.toNat]? with
      | none => rfl
      | some native =>
          cases native with
          | foreign key => rfl
          | builtin builtin => simp only [map_bind, settle_snd]
  | _ => simp only [executeTurn, map_bind, map_pure, bind_pure]

/-- Following calls changes nothing about the run. -/
theorem stepTurn_snd (fuel : Nat) : Prod.snd <$> stepTurn fuel = step fuel := by
  funext machine
  rw [step_eq]
  unfold stepTurn
  simp only [map_bind, executeTurn_snd]

/-- An instruction after which the run always goes on. -/
theorem executeTurn_ordinary {opcode : Opcode}
    (ordinary : opcode.isOrdinary = true) (fuel : Nat) (position : Int32)
    (operand : UInt32) :
    executeTurn fuel position opcode operand = do
      perform position opcode operand
      return (opcode.turn, .running) := by
  have general : executeTurn fuel position opcode operand = do
      return (opcode.turn, ← execute fuel position opcode operand) := by
    cases opcode <;> first | rfl | cases ordinary
  rw [general, execute_ordinary ordinary, bind_assoc]
  simp only [pure_bind]

/-- A test that is passed means what it is said to mean. -/
theorem settle_ends (turn : Turn) (success : Bool) (machine : Machine) :
    Ends (settle turn success machine)
      (fun outcome _ => outcome = (turn, .running) ∨ outcome.1 = .retreats)
      (fun _ _ => True) := by
  unfold settle
  split
  case isTrue => exact .inl rfl
  case isFalse =>
    rw [ends_bind]
    cases fail machine with
    | ok status after => exact .inr rfl
    | error fault after => trivial

/-- The run is over only if its last branch is given up. -/
theorem executeTurn_goesOn (fuel : Nat) (position : Int32) (opcode : Opcode)
    (operand : UInt32) (machine : Machine) :
    Ends (executeTurn fuel position opcode operand machine)
      (fun outcome _ => outcome.1 ≠ .retreats → outcome.2 ≠ .failed)
      (fun _ _ => True) := by
  have settled (turn : Turn) (success : Bool) (machine : Machine) :
      Ends (settle turn success machine)
        (fun outcome _ => outcome.1 ≠ .retreats → outcome.2 ≠ .failed)
        (fun _ _ => True) := by
    refine (settle_ends turn success machine).imp ?_ fun _ _ => id
    rintro outcome _ (rfl | retreats) goesOn
    · simp
    · exact absurd retreats goesOn
  by_cases ordinary : opcode.isOrdinary = true
  · rw [executeTurn_ordinary ordinary, ends_bind]
    cases perform position opcode operand machine with
    | ok _ after => exact fun _ => by simp
    | error fault after => trivial
  · cases opcode with
    | halt => exact fun _ => by simp
    | fail => exact settled _ _ _
    | unify =>
        simp only [executeTurn, ends_bind]
        cases unifyTop fuel machine with
        | ok success after => exact settled _ _ _
        | error fault after => trivial
    | proceed =>
        intro _
        dsimp only
        split <;> simp
    | native =>
        simp only [executeTurn, ends_bind, ends_get]
        cases machine.program.natives[operand.toNat]? with
        | none => trivial
        | some native =>
            cases native with
            | foreign key => exact fun _ => by simp
            | builtin builtin =>
                simp only [ends_bind]
                cases runBuiltin fuel builtin machine with
                | ok success after => exact settled _ _ _
                | error fault after => trivial
    | _ => exact absurd rfl ordinary

theorem stepTurn_goesOn (fuel : Nat) (machine : Machine) :
    Ends (stepTurn fuel machine)
      (fun outcome _ => outcome.1 ≠ .retreats → outcome.2 ≠ .failed)
      (fun _ _ => True) := by
  rw [stepTurn, ends_bind]
  cases advance machine with
  | ok fetched ready => exact executeTurn_goesOn fuel _ _ _ ready
  | error fault after => trivial

/-- No run fails by returning. -/
theorem stepTurn_returns (fuel : Nat) (machine : Machine) :
    Ends (stepTurn fuel machine)
      (fun outcome _ => outcome.1 = .returns → outcome.2 ≠ .failed)
      (fun _ _ => True) :=
  (stepTurn_goesOn fuel machine).imp
    (fun _ _ goesOn returns => goesOn (by simp [returns])) fun _ _ => id

end MachineM

theorem Machine.Next.stepTurn {machine ready : Machine} {position : Int32}
    {opcode : Opcode} {operand : UInt32}
    (next : machine.Next position opcode operand ready) (fuel : Nat) :
    MachineM.stepTurn fuel machine =
      MachineM.executeTurn fuel position opcode operand ready := by
  simp only [MachineM.stepTurn, bind, EStateM.bind, next.advances]

/-- A machine with its pending calls, innermost first, and with the calls that
were pending when each open choice point was opened, newest first. -/
structure Traced where
  machine : Machine
  calls : List Machine
  choices : List (List Machine)

namespace Traced

/-- The machine after a step, with its calls. -/
def follow (traced : Traced) (turn : Turn) (after : Machine) : Traced :=
  match turn with
  | .onward => { traced with machine := after }
  | .enters => ⟨after, after :: traced.calls, traced.choices⟩
  | .returns => ⟨after, traced.calls.tail, traced.choices⟩
  | .opens => ⟨after, traced.calls, traced.calls :: traced.choices⟩
  | .commits =>
      ⟨after, traced.calls,
        traced.choices.drop (traced.choices.length - after.level)⟩
  | .retreats => ⟨after, traced.choices.headD [], traced.choices.tail⟩

@[simp]
theorem follow_machine (traced : Traced) (turn : Turn) (after : Machine) :
    (traced.follow turn after).machine = after := by
  cases turn <;> rfl

/-- Code that has just been started, as a call with nothing before it. -/
def start (machine : Machine) : Traced :=
  ⟨machine, [machine], []⟩

/-- The runs from a machine on: steps are taken, the embedding program gives its
answers, and further solutions are asked for.  After a fault another solution may
be asked for.  The predicates of the embedding program only test: after a positive
answer the run goes on from the machine as it is, and after a negative answer or a
fault it retreats from there. -/
inductive Run (first : Machine) : Traced → Prop where
  | start : Run first (start first)
  | step {traced : Traced} {fuel : Nat} {turn : Turn} {status : Status}
      {after : Machine} (run : Run first traced)
      (stepped : MachineM.stepTurn fuel traced.machine =
        .ok (turn, status) after)
      (goesOn : status ≠ .failed) : Run first (traced.follow turn after)
  | retreat {traced : Traced} {after : Machine} (run : Run first traced)
      (retreated : MachineM.backtrack traced.machine = .ok true after) :
      Run first (traced.follow .retreats after)
  | recover {traced : Traced} {fuel : Nat} {fault : Fault}
      {stopped after : Machine} (run : Run first traced)
      (interrupted : MachineM.stepTurn fuel traced.machine =
        .error fault stopped)
      (retreated : MachineM.backtrack stopped = .ok true after) :
      Run first (traced.follow .retreats after)

/-- What a run goes on with. -/
inductive Next (traced : Traced) : Traced → Prop where
  | step {fuel : Nat} {turn : Turn} {status : Status} {after : Machine}
      (stepped : MachineM.stepTurn fuel traced.machine =
        .ok (turn, status) after)
      (goesOn : status ≠ .failed) : Next traced (traced.follow turn after)
  | retreat {after : Machine}
      (retreated : MachineM.backtrack traced.machine = .ok true after) :
      Next traced (traced.follow .retreats after)
  | recover {fuel : Nat} {fault : Fault} {stopped after : Machine}
      (interrupted : MachineM.stepTurn fuel traced.machine =
        .error fault stopped)
      (retreated : MachineM.backtrack stopped = .ok true after) :
      Next traced (traced.follow .retreats after)

/-- The runs from a machine on that meet calls and choice points of one kind
only. -/
inductive Through (kind : Traced → Prop) (first : Machine) : Traced → Prop where
  | start : Through kind first (start first)
  | goOn {traced later : Traced} (run : Through kind first traced)
      (next : traced.Next later) (allowed : kind later) :
      Through kind first later

theorem Run.next {first : Machine} {traced later : Traced}
    (run : Run first traced) (next : traced.Next later) : Run first later := by
  cases next with
  | step stepped goesOn => exact .step run stepped goesOn
  | retreat retreated => exact .retreat run retreated
  | recover interrupted retreated => exact .recover run interrupted retreated

/-- Runs are made by going on. -/
@[elab_as_elim]
theorem Run.byNext {first : Machine}
    {motive : ∀ traced, Run first traced → Prop}
    (start : motive (.start first) .start)
    (next : ∀ {traced later : Traced} (run : Run first traced)
      (next : traced.Next later), motive traced run →
        motive later (run.next next))
    {traced : Traced} (run : Run first traced) : motive traced run := by
  induction run with
  | start => exact start
  | step run stepped goesOn ih => exact next run (.step stepped goesOn) ih
  | retreat run retreated ih => exact next run (.retreat retreated) ih
  | recover run interrupted retreated ih =>
      exact next run (.recover interrupted retreated) ih

theorem Through.run {kind : Traced → Prop} {first : Machine} {traced : Traced}
    (through : Through kind first traced) : Run first traced := by
  induction through with
  | start => exact .start
  | goOn _ next _ ih => exact ih.next next

namespace Run

variable {first : Machine}

theorem exists_stepTurn {fuel : Nat} {machine after : Machine}
    {status : Status}
    (stepped : MachineM.step fuel machine = .ok status after) :
    ∃ turn, MachineM.stepTurn fuel machine = .ok (turn, status) after := by
  rw [← MachineM.stepTurn_snd] at stepped
  simp only [Functor.map, EStateM.map] at stepped
  split at stepped
  case h_1 pair last traced =>
    cases stepped
    exact ⟨pair.1, traced⟩
  case h_2 => cases stepped

/-- Whatever steps a machine takes, its calls can be followed. -/
theorem run {traced : Traced} (reached : Run first traced) {steps : Nat}
    {status : Status} {after : Machine}
    (ran : MachineM.run steps traced.machine = .ok status after)
    (goesOn : status ≠ .failed) :
    ∃ later, Run first later ∧ later.machine = after := by
  induction steps generalizing traced with
  | zero =>
      cases ran
      exact ⟨traced, reached, rfl⟩
  | succ steps ih =>
      simp only [MachineM.run, bind, EStateM.bind] at ran
      split at ran
      case h_2 => cases ran
      case h_1 next middle stepped =>
        obtain ⟨turn, followed⟩ := exists_stepTurn stepped
        have machine := traced.follow_machine turn middle
        cases next with
        | running =>
            exact ih (.step reached followed (by simp))
              (by rw [machine]; exact ran)
        | solved | awaiting key =>
            cases ran
            exact ⟨_, .step reached followed goesOn, machine⟩
        | failed =>
            cases ran
            exact absurd rfl goesOn

theorem proceed {traced : Traced} (reached : Run first traced) {steps : Nat}
    {before status : Status} {after : Machine}
    (ran : MachineM.proceed steps before traced.machine = .ok status after)
    (goesOn : status ≠ .failed) :
    ∃ later, Run first later ∧ later.machine = after := by
  cases before with
  | running => exact reached.run ran goesOn
  | solved | failed | awaiting key =>
      cases ran
      exact ⟨traced, reached, rfl⟩

/-- Looking for another solution is part of the run. -/
theorem resume {traced : Traced} (reached : Run first traced) {steps : Nat}
    {status : Status} {after : Machine}
    (ran : MachineM.resume steps traced.machine = .ok status after)
    (goesOn : status ≠ .failed) :
    ∃ later, Run first later ∧ later.machine = after := by
  simp only [MachineM.resume, MachineM.fail, bind, EStateM.bind] at ran
  cases result : MachineM.backtrack traced.machine with
  | error fault last =>
      rw [result] at ran
      cases ran
  | ok back last =>
      rw [result] at ran
      cases back with
      | true =>
          exact (Run.retreat reached result).proceed ran goesOn
      | false =>
          cases ran
          exact absurd rfl goesOn

/-- So is the answer of the embedding program. -/
theorem answer {traced : Traced} (reached : Run first traced) {steps : Nat}
    {success : Bool} {status : Status} {after : Machine}
    (ran : MachineM.answer steps success traced.machine = .ok status after)
    (goesOn : status ≠ .failed) :
    ∃ later, Run first later ∧ later.machine = after := by
  cases success with
  | true => exact reached.run ran goesOn
  | false => exact reached.resume ran goesOn

end Run

end Traced

end LogicMachine
