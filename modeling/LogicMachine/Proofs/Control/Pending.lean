import LogicMachine.Proofs.Control.Calling
import LogicMachine.Proofs.Control.Dispatching
import LogicMachine.Proofs.Control.Retreat

/-!
# Pending calls and open choice points

A call that returns gives its caller the stack back on which the caller left its
record, and the caller goes on with its remaining goals.  A choice point leads
back to a call with the clauses that are left.  All of this is known of every
pending call and of every open choice point at any time.
-/

namespace LogicMachine

variable [Atoms]

namespace Base

/-- When the call returns, its caller has its record on the stack and goes on
with the rest of its goals. -/
inductive Resumes (base : Base) (caller call : Call) : Prop where
  | intro {desk : Desk} {activity : Activity} {position : Nat}
      {goals : List Goal} (sets : caller.Sets desk)
      (clear : desk.Clear Desk.anything activity)
      (stack : activity.stack = call.lower)
      (environment : activity.environment =
        call.machine.registers.environment)
      (continuation : call.machine.registers.continuation =
        .code (Int32.ofNat position))
      (rest : ∀ later, base.Footing later call [] →
        base.Body later caller desk goals position)

/-- The call went to the entry of its predicate. -/
def Enters (call : Call) : Prop :=
  ∃ predicate, call.machine.program.predicate? call.functor = some predicate ∧
    call.machine.registers.instruction =
      .code predicate.entry.toUInt32.toInt32

/-- A call that is given a level is given that of its caller. -/
structure Hands (base : Base) (caller call : Call) : Prop where
  scope : base.guarded → call.functor.takesLevel = true →
    call.scope = caller.scope
  passes : base.guarded → call.functor.takesLevel = true →
    caller.functor.passesLevel = true

/-- The calls that have not returned, innermost first.  The outermost one is
that of the query. -/
inductive Pending (base : Base) : List Call → Prop where
  | query {call : Call} (sound : call.Sound) (lower : call.lower = [])
      (continuation : call.machine.registers.continuation = .code (-1))
      (isScoped : base.Scoped call)
      (outside : base.guarded → call.functor.knowsLevel = false)
      (bottom : call.checkpoints = []) :
      Pending base [call]
  | call {call caller : Call} {others : List Call} (sound : call.Sound)
      (enters : Enters call) (resumes : base.Resumes caller call)
      (persists : caller.machine.store.Persists call.machine.store)
      (callers : Pending base (caller :: others))
      (isScoped : base.Scoped call) (hands : base.Hands caller call)
      (within : call.machine.program.Keeps base.horizon) :
      Pending base (call :: caller :: others)

namespace Pending

variable {base : Base} {call : Call} {others : List Call}

theorem sound (pending : base.Pending (call :: others)) : call.Sound := by
  cases pending with
  | query sound => exact sound
  | call sound => exact sound

theorem isScoped (pending : base.Pending (call :: others)) :
    base.Scoped call := by
  cases pending with
  | query _ _ _ isScoped => exact isScoped
  | call _ _ _ _ _ isScoped => exact isScoped

end Pending

/-- A choice point leads back to a call. -/
inductive Alternative (base : Base) : List Call → Checkpoint → Prop where
  | intro {call : Call} {others : List Call} {checkpoint : Checkpoint}
      {clauses : List Clause} {position : Nat}
      (pending : base.Pending (call :: others))
      (takesUp : base.TakesUp call.functor clauses position)
      (instruction : checkpoint.registers.instruction =
        .code (Int32.ofNat position))
      (environment : checkpoint.registers.environment =
        call.machine.registers.environment)
      (continuation : checkpoint.registers.continuation =
        call.machine.registers.continuation)
      (cutBase : checkpoint.registers.cutBase =
        call.machine.registers.cutBase)
      (stacked : checkpoint.store.Stacked call.stack)
      (tidy : checkpoint.store.Tidy)
      (persists : call.machine.store.Persists checkpoint.store)
      (several : base.guarded → call.functor.isSimple = false) :
      Alternative base (call :: others) checkpoint

/-- Whatever was open when a call was made is open below the choice points of
the call. -/
inductive Ordered (base : Base) : List (List Call) → List Checkpoint → Prop where
  | nil : Ordered base [] []
  | cons {call : Call} {others : List Call} {checkpoint : Checkpoint}
      {choices : List (List Call)} {checkpoints : List Checkpoint}
      (below : base.guarded → call.checkpoints <:+ checkpoints)
      (older : Ordered base choices checkpoints) :
      Ordered base ((call :: others) :: choices) (checkpoint :: checkpoints)

theorem Ordered.drop {base : Base} {choices : List (List Call)}
    {checkpoints : List Checkpoint} (ordered : base.Ordered choices checkpoints)
    (count : Nat) :
    base.Ordered (choices.drop count) (checkpoints.drop count) := by
  induction count generalizing choices checkpoints with
  | zero => exact ordered
  | succ count ih =>
      cases ordered with
      | nil => exact .nil
      | cons below older => exact ih older

end Base

/-- The pending calls of a run, those of each open choice point, and what stays
the same while the innermost call runs. -/
structure Outlook where
  setting : Setting
  calls : List Call
  choices : List (List Call)

namespace Base

/-- What does not depend on the machine. -/
structure Prepared (base : Base) (outlook : Outlook) : Prop where
  advances : base.program.Advances outlook.setting.program
  within : outlook.setting.program.Keeps base.horizon
  collected : ∀ words ∈ outlook.setting.collectors, ∀ word ∈ words,
    word.Plain
  alternatives : List.Forall₂ base.Alternative outlook.choices
    outlook.setting.checkpoints
  ordered : base.Ordered outlook.choices outlook.setting.checkpoints

/-- The innermost call heads for a turning point, or the run is over. -/
inductive Stands (base : Base) (outlook : Outlook) (machine : Machine) :
    Prop where
  | busy {call : Call} {others : List Call}
      (calls : outlook.calls = call :: others)
      (pending : base.Pending (call :: others))
      (spans : base.Spans outlook.setting call)
      (heads : Heads outlook.setting.Stays
        (base.Turns outlook.setting call) outlook.setting.Stays machine) :
      Stands base outlook machine
  | finished (calls : outlook.calls = [])
      (fits : outlook.setting.Stays machine)
      (instruction : machine.registers.instruction = .code (-1)) :
      Stands base outlook machine

variable {base : Base} {outlook : Outlook} {machine after : Machine}

theorem Stands.fits (stands : base.Stands outlook machine) :
    outlook.setting.Stays machine := by
  cases stands with
  | busy _ _ _ heads => exact heads.always
  | finished _ fits _ => exact fits

end Base

end LogicMachine
