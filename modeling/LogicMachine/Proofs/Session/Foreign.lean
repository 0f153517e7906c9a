import LogicMachine.Proofs.Code.Running
import LogicMachine.Session.Solve

/-!
# Predicates of the embedding program

A run that reaches a predicate of the embedding program hands the machine over.
The predicate may change everything about the machine but its program.  To the
program it does no more than a run does: it numbers functors, and it looks up
where predicates start, which makes room for those that are not known.
-/

namespace LogicMachine

/-- The later program comes from the given one by numbering functors, by looking
up where predicates start, and by reporting. -/
inductive Program.Consulted (program : Program) : Program → Prop
  | refl : Consulted program program
  | intern {before after : Program} {id : FunctorId} (functor : Functor)
      (consulted : Consulted program before)
      (ran : ProgramM.intern functor before = .ok id after) :
      Consulted program after
  | entryOf {before after : Program} {entry : Nat} (functor : Functor)
      (consulted : Consulted program before)
      (ran : ProgramM.entryOf functor before = .ok entry after) :
      Consulted program after
  | refused {before after : Program} {fault : Fault} (functor : Functor)
      (consulted : Consulted program before)
      (ran : ProgramM.entryOf functor before = .error fault after) :
      Consulted program after
  | report {before after : Program} (event : Event)
      (consulted : Consulted program before)
      (ran : ProgramM.report event before = .ok () after) :
      Consulted program after

theorem Program.Consulted.advances {program after : Program}
    (consulted : program.Consulted after) : program.Advances after := by
  induction consulted with
  | refl => exact .refl program
  | @intern before _ _ functor _ ran ih =>
      have step := ProgramM.intern_advances functor before
      rw [ran] at step
      exact ih.trans step.1
  | @entryOf before _ _ functor _ ran ih =>
      have step := ProgramM.entryOf_advances functor before
      rw [ran] at step
      exact ih.trans step.1
  | @refused before _ _ functor _ ran ih =>
      have step := ProgramM.entryOf_advances functor before
      rw [ran] at step
      exact step.2 ▸ ih
  | report event _ ran ih =>
      cases ran
      exact ih.trans (.journal _ _)

namespace MachineM

/-- Whether it ends well or in a fault, the action only consults the program. -/
def Consults (action : MachineM α) : Prop :=
  ∀ program : Program,
    Keeps (fun machine => program.Consulted machine.program) action

theorem Consults.advances {action : MachineM α} (consults : Consults action)
    (program : Program) : Keeps (Advanced program) action := by
  intro machine advanced
  exact (consults machine.program machine .refl).imp
    (fun _ _ consulted => advanced.trans consulted.advances)
    (fun _ _ consulted => advanced.trans consulted.advances)

namespace Consults

variable {α β : Type}

theorem pure (value : α) : Consults (Pure.pure value : MachineM α) :=
  fun _ => Keeps.pure value

theorem throw (fault : Fault) :
    Consults (MonadExcept.throw fault : MachineM α) :=
  fun _ => Keeps.throw fault

theorem bind {action : MachineM β} {next : β → MachineM α}
    (first : Consults action) (second : ∀ value, Consults (next value)) :
    Consults (action >>= next) :=
  fun program => (first program).bind fun value => second value program

theorem read (query : Machine → Except Fault α) :
    Consults (MachineM.read query) := by
  intro program machine consulted
  rw [ends_read]
  split <;> exact consulted

/-- Stores are worked on without the program, unification and copying
included. -/
theorem onStore (action : FunctorTable → StoreM α) :
    Consults (MachineM.onStore action) := by
  intro program machine consulted
  rw [ends_onStore]
  cases action machine.program.functors machine.store <;> exact consulted

theorem call (entry : UInt32) : Consults (MachineM.call entry) :=
  fun _ => Keeps.bind Keeps.get fun _ =>
    Keeps.modifying fun _ consulted => consulted

theorem intern (functor : Functor) :
    Consults (onProgram (ProgramM.intern functor)) := by
  intro program machine consulted
  rw [ends_onProgram]
  cases ran : ProgramM.intern functor machine.program with
  | ok id after => exact consulted.intern functor ran
  | error fault after =>
      have impossible := ProgramM.intern_advances functor machine.program
      rw [ran] at impossible
      exact impossible.elim

theorem entryOf (functor : Functor) :
    Consults (onProgram (ProgramM.entryOf functor)) := by
  intro program machine consulted
  rw [ends_onProgram]
  cases ran : ProgramM.entryOf functor machine.program with
  | ok entry after => exact consulted.entryOf functor ran
  | error fault after => exact consulted.refused functor ran

end Consults

end MachineM

/-- What a predicate of the embedding program does when it is reached.  It may
fail the goal, and it may end in a fault. -/
structure Foreign where
  act : MachineM Bool
  consults : MachineM.Consults act

namespace Foreign

/-- Unifies the first argument with an atom. -/
def greet (name : String) : Foreign where
  act := do
    let id ← MachineM.onProgram (ProgramM.intern (.constant name))
    let cell ← MachineM.pushCells .heap [.constant id]
    MachineM.unify 1 (← MachineM.argument 0) cell
  consults := .bind (.intern _) fun _ => .bind (.onStore _) fun _ =>
    .bind (.read _) fun _ => .onStore _

/-- Calls a predicate with the first argument, whether it is known or not. -/
def forward (name : String) : Foreign where
  act := do
    MachineM.push (← MachineM.load (← MachineM.argument 0))
    MachineM.call (← MachineM.onProgram (ProgramM.entryOf ⟨name, 1⟩)).toUInt32
    return true
  consults := .bind (.read _) fun _ => .bind (.read _) fun _ =>
    .bind (.onStore _) fun _ => .bind (.entryOf _) fun _ =>
      .bind (.call _) fun _ => .pure _

/-- Ends in a fault. -/
def refuse (fault : Fault) : Foreign where
  act := throw fault
  consults := .throw fault

end Foreign

end LogicMachine
