import LogicMachine.Proofs.Control.Discipline

/-!
# What is known along a run

Whatever is known of a machine and its calls when a run starts is known at any
time later, and if a fault or a failure ends the run, it is still known what going
back leads to.
-/

namespace LogicMachine

/-- The calls of a run are those that something is known of. -/
structure Outlook.Tracks (outlook : Outlook) (traced : Traced) : Prop where
  calls : traced.calls = outlook.calls.map Call.machine
  choices : traced.choices = outlook.choices.map (List.map Call.machine)

theorem Outlook.Moves.tracks {guarded reserved : Prop}
    {outlook later : Outlook}
    {traced : Traced} {turn : Turn} {after : Machine}
    (moves : outlook.Moves guarded reserved after turn later)
    (tracks : outlook.Tracks traced) :
    later.Tracks (traced.follow turn after) := by
  obtain ⟨calls, choices⟩ := tracks
  cases moves with
  | onward => exact ⟨calls, choices⟩
  | enters made =>
      refine ⟨?_, choices⟩
      rw [List.map_cons, made, ← calls]
      rfl
  | returns known =>
      refine ⟨?_, choices⟩
      rw [known] at calls
      show traced.calls.tail = _
      rw [calls, List.map_cons, List.tail_cons]
  | opens =>
      refine ⟨calls, ?_⟩
      rw [List.map_cons, ← calls, ← choices]
      rfl
  | commits =>
      refine ⟨calls, ?_⟩
      show traced.choices.drop _ = _
      rw [choices, List.length_map, List.map_drop]
  | retreats opened =>
      rw [opened] at choices
      constructor
      · show traced.choices.headD [] = _
        rw [choices, List.map_cons, List.headD_cons]
      · show traced.choices.tail = _
        rw [choices, List.map_cons, List.tail_cons]

namespace Traced

variable {first : Machine} {traced later : Traced}

/-- What every step keeps of the program is kept when a run goes on. -/
theorem Next.upholds {known : Program → Prop} [Program.Upkeep known]
    (next : traced.Next later) (holds : known traced.machine.program) :
    known later.machine.program := by
  cases next with
  | @step fuel turn status after stepped goesOn =>
      have steps := MachineM.stepTurn_upholds fuel traced.machine holds
      rw [stepped] at steps
      rw [follow_machine]
      exact steps
  | @retreat after retreated =>
      have back := MachineM.backtrack_upholds traced.machine holds
      rw [retreated] at back
      rw [follow_machine]
      exact back
  | @recover fuel fault stopped after interrupted retreated =>
      have steps := MachineM.stepTurn_upholds fuel traced.machine holds
      rw [interrupted] at steps
      have back := MachineM.backtrack_upholds stopped steps
      rw [retreated] at back
      rw [follow_machine]
      exact back

theorem Next.keeps (next : traced.Next later) :
    traced.machine.program.Keeps later.machine.program :=
  (next.upholds (.refl traced.machine.program) :
    traced.machine.program.Advances later.machine.program).grows.toKeeps

namespace Run

/-- What every step keeps of the program is kept along a run. -/
theorem upholds {known : Program → Prop} [Program.Upkeep known]
    (run : Run first traced) (holds : known first.program) :
    known traced.machine.program := by
  induction run using Run.byNext with
  | start => exact holds
  | next _ next ih => exact next.upholds ih

/-- Along a run nothing is taken back. -/
theorem advances (run : Run first traced) :
    first.program.Advances traced.machine.program :=
  run.upholds (.refl first.program)

theorem keeps (run : Run first traced) :
    first.program.Keeps traced.machine.program :=
  run.advances.grows.toKeeps

end Run

end Traced

variable [Atoms]

namespace Base

variable {base : Base} {outlook : Outlook} {machine : Machine}

/-- Whether a run goes on by a step or by going back, it is known what that leads
to. -/
theorem Known.goesOn {traced last : Traced}
    (known : base.Known outlook traced.machine) (next : traced.Next last)
    (within : last.machine.program.Keeps base.horizon) :
    ∃ turn after, last = traced.follow turn after ∧
      base.Leads outlook turn after := by
  cases next with
  | @step fuel turn status after stepped goesOn =>
      rw [Traced.follow_machine] at within
      have proceeds := known.step fuel
      rw [stepped] at proceeds
      have leads := proceeds within
      rw [if_neg goesOn] at leads
      exact ⟨turn, after, rfl, leads⟩
  | @retreat after retreated =>
      exact ⟨.retreats, after, rfl, known.halts.retreats retreated⟩
  | @recover fuel fault stopped after interrupted retreated =>
      rw [Traced.follow_machine] at within
      have back := MachineM.backtrack_advances stopped (.refl stopped.program)
      rw [retreated] at back
      have proceeds := known.step fuel
      rw [interrupted] at proceeds
      exact ⟨.retreats, after, rfl,
        (proceeds (back.grows.toKeeps.trans within)).retreats retreated⟩

/-! ## Runs that are not guarded -/

/-- What is known of a machine and its calls, without any regard to levels. -/
structure Good (base : Base) (outlook : Outlook) (machine : Machine) : Prop
    extends base.Known outlook machine where
  free : ¬ base.guarded

/-- A step in a run that is not guarded. -/
def Goes (base : Base) (outlook : Outlook) (turn : Turn) (after : Machine) :
    Prop :=
  ∃ later, outlook.Moves base.guarded base.reserved after turn later ∧
    base.Good later after

theorem Leads.goes {turn : Turn} {after : Machine}
    (leads : base.Leads outlook turn after) (free : ¬ base.guarded) :
    base.Goes outlook turn after := by
  obtain ⟨later, moves, known⟩ := leads
  exact ⟨later, moves, known fun _ guarded => absurd guarded free, free⟩

/-- Something is known of the machine and of its calls. -/
def Knows (base : Base) (traced : Traced) : Prop :=
  ∃ outlook : Outlook, base.Good outlook traced.machine ∧ outlook.Tracks traced

theorem Goes.knows {traced : Traced} {turn : Turn} {after : Machine}
    (goes : base.Goes outlook turn after) (tracks : outlook.Tracks traced) :
    base.Knows (traced.follow turn after) := by
  obtain ⟨later, moves, good⟩ := goes
  exact ⟨later, (traced.follow_machine turn after).symm ▸ good,
    moves.tracks tracks⟩

/-- What is known at the start is known all along. -/
theorem Knows.run {first : Machine} (knows : base.Knows (.start first))
    {traced : Traced} (run : Traced.Run first traced)
    (within : traced.machine.program.Keeps base.horizon) :
    base.Knows traced := by
  induction run using Traced.Run.byNext with
  | start => exact knows
  | next _ next ih =>
      obtain ⟨outlook, good, tracks⟩ := ih (next.keeps.trans within)
      obtain ⟨turn, after, rfl, leads⟩ := good.toKnown.goesOn next within
      exact (leads.goes good.free).knows tracks

/-! ## Attempts -/

/-- The run can go on, or at least go back, as its status says. -/
def Stays (base : Base) (status : Status) (machine : Machine) : Prop :=
  ∃ outlook : Outlook,
    if status = .failed then ¬ base.guarded ∧ base.Halts outlook machine
    else base.Good outlook machine

/-- All that is left is to go back. -/
def Stops (base : Base) (machine : Machine) : Prop :=
  ∃ outlook : Outlook, ¬ base.guarded ∧ base.Halts outlook machine

theorem Stays.stops {status : Status} (stays : base.Stays status machine) :
    base.Stops machine := by
  obtain ⟨outlook, known⟩ := stays
  split at known
  · exact ⟨outlook, known⟩
  · exact ⟨outlook, known.free, known.halts⟩

/-- An attempt at a solution goes on from what is known, whatever comes of it. -/
abbrev Attempts (base : Base) (result : EStateM.Result Fault Machine Status) :
    Prop :=
  Ends result
    (fun status after => after.program.Keeps base.horizon →
      base.Stays status after)
    (fun _ after => after.program.Keeps base.horizon → base.Stops after)

theorem attempts_of_proceeds {action : MachineM (Turn × Status)}
    (free : ¬ base.guarded) (proceeds : base.Proceeds outlook (action machine)) :
    base.Attempts ((Prod.snd <$> action) machine) := by
  simp only [Functor.map, EStateM.map]
  cases result : action machine with
  | error fault after =>
      rw [result] at proceeds
      exact fun within => ⟨outlook, free, proceeds within⟩
  | ok outcome after =>
      rw [result] at proceeds
      intro within
      have leads := proceeds within
      split at leads
      case isTrue failed =>
        refine ⟨outlook, ?_⟩
        rw [if_pos failed]
        exact ⟨free, leads⟩
      case isFalse goesOn =>
        obtain ⟨later, -, good⟩ := leads.goes free
        refine ⟨later, ?_⟩
        rw [if_neg goesOn]
        exact good

theorem Good.run (good : base.Good outlook machine)
    (steps : Nat) : base.Attempts (MachineM.run steps machine) := by
  induction steps generalizing outlook machine with
  | zero => exact fun _ => ⟨outlook, good⟩
  | succ steps ih =>
      have first := attempts_of_proceeds good.free (good.toKnown.step steps)
      rw [MachineM.stepTurn_snd] at first
      simp only [MachineM.run, Attempts, ends_bind]
      cases result : MachineM.step steps machine with
      | error fault middle =>
          rw [result] at first
          exact first
      | ok status middle =>
          rw [result] at first
          cases status with
          | running =>
              refine MachineM.ends_of_advances
                (MachineM.run_advances steps middle (.refl middle.program)) ?_
              intro within
              obtain ⟨later, known⟩ := first within
              exact ih known
          | solved | failed | awaiting key => exact first

theorem Stays.proceed {status : Status} (stays : base.Stays status machine)
    (steps : Nat) : base.Attempts (MachineM.proceed steps status machine) := by
  cases status with
  | running =>
      obtain ⟨outlook, good⟩ := stays
      exact Good.run good steps
  | solved | failed | awaiting key => exact fun _ => stays

/-- Looking for another solution. -/
theorem Stops.resume (stops : base.Stops machine) (steps : Nat) :
    base.Attempts (MachineM.resume steps machine) := by
  obtain ⟨outlook, free, halts⟩ := stops
  have back := attempts_of_proceeds free (halts.fails .onward)
  rw [MachineM.settle_snd] at back
  simp only [MachineM.resume, Attempts, ends_bind]
  change base.Attempts (MachineM.fail machine) at back
  cases result : MachineM.fail machine with
  | error fault middle =>
      rw [result] at back
      exact back
  | ok status middle =>
      rw [result] at back
      exact MachineM.ends_of_advances
        (MachineM.proceed_advances steps status middle (.refl middle.program))
        fun within => (back within).proceed steps

/-- The answer of the embedding program. -/
theorem Stays.answer {key : Nat}
    (stays : base.Stays (.awaiting key) machine) (steps : Nat)
    (success : Bool) :
    base.Attempts (MachineM.answer steps success machine) := by
  cases success with
  | true =>
      obtain ⟨outlook, good⟩ := stays
      exact Good.run good steps
  | false => exact stays.stops.resume steps

end Base

end LogicMachine
