import LogicMachine.Proofs.Control.Sessions
import LogicMachine.Proofs.Session.Computing

/-!
# Returning from calls

Whenever a call returns, for the first time or once more after going back into
it, the caller finds its record, and below its operands the stack that it left.
-/

namespace LogicMachine

namespace Machine

/-- The machine is at the entry of a predicate with so many arguments. -/
def Enters (machine : Machine) (arity : Nat) : Prop :=
  ∃ functor predicate, functor.arity = arity ∧
    machine.program.predicate? functor = some predicate ∧
    machine.registers.instruction = .code predicate.entry.toUInt32.toInt32

/-- The machine is back from a call, seen by the machine right after the call was
made: it stands behind the call, with the record of the caller, and the stack
ends below the arguments of the call and is what it was up to there. -/
structure Returned (call after : Machine) (arity : Nat) : Prop where
  instruction : after.registers.instruction = call.registers.continuation
  environment : after.registers.environment = call.registers.environment
  pointer : after.store.pointer.toInt + arity = call.store.pointer.toInt
  slots : ∀ index ≤ after.store.pointer,
    after.store.load (.stack index) = call.store.load (.stack index)

end Machine

namespace Store

/-- Two stacks that begin in the same way. -/
theorem Stacked.load_common {store later : Store} {words others : List Word}
    (stacked : store.Stacked words) (longer : later.Stacked (words ++ others))
    (addressable : store.Addressable) (laterAddressable : later.Addressable)
    {index : Int32} (below : index ≤ store.pointer) :
    store.load (.stack index) = later.load (.stack index) := by
  by_cases negative : index < 0
  · simp only [load, wordAt?, if_pos negative]
  · have position : (index.toNatClampNeg : Int) = index.toInt :=
      Int32.cast_toNatClampNeg index (Int32.not_lt.mp negative)
    have inside : index.toNatClampNeg < words.length := by
      rw [stacked.pointer, Int32.le_iff_toInt_le,
        toInt_ofInt_pred (stacked.small addressable)] at below
      omega
    have same : index = Int32.ofNat index.toNatClampNeg := by
      rw [← Int32.toInt_inj, toInt_ofNat (by have := index.toInt_lt; omega),
        position]
    have here := stacked.load_eq addressable (List.getElem?_eq_getElem inside)
    have there := longer.load_eq laterAddressable
      ((List.getElem?_append_left inside).trans
        (List.getElem?_eq_getElem inside))
    rw [← same] at here there
    rw [here, there]

end Store

/-- The stack of a call goes on with its arguments. -/
theorem Call.Sound.returned [Atoms] {call : Call} (sound : call.Sound)
    {after : Machine} (addressable : after.store.Addressable)
    (returned : call.Returned after) :
    call.machine.Returned after call.functor.arity where
  instruction := returned.instruction
  environment := returned.environment
  pointer := by
    have lower := returned.stacked.small addressable
    have whole := sound.stacked.small sound.tidy.addressable
    rw [returned.stacked.pointer, sound.stacked.pointer,
      Store.toInt_ofInt_pred lower, Store.toInt_ofInt_pred whole, Call.stack,
      List.length_append, List.length_reverse, sound.arity]
    omega
  slots := fun _ below => returned.stacked.load_common sound.stacked addressable
    sound.tidy.addressable below

section Pending

variable [Atoms] {base : Base} {call : Call} {others : List Call}

theorem Base.Stands.pending {outlook : Outlook} {machine : Machine}
    (stands : base.Stands outlook machine)
    (calls : outlook.calls = call :: others) :
    base.Pending (call :: others) := by
  cases stands with
  | busy same pending _ _ =>
      rw [calls] at same
      exact same ▸ pending
  | finished none _ _ =>
      rw [calls] at none
      cases none

/-- A call that has a caller went to a predicate. -/
theorem Base.Pending.enters (pending : base.Pending (call :: others))
    (hasCaller : others ≠ []) : call.machine.Enters call.functor.arity := by
  cases pending with
  | query => exact absurd rfl hasCaller
  | call _ enters _ _ _ =>
      obtain ⟨predicate, known, instruction⟩ := enters
      exact ⟨call.functor, predicate, rfl, known, instruction⟩

end Pending

/-- The atoms are the constants of a program. -/
@[reducible]
def Program.atoms (program : Program) : Atoms where
  includes := fun id => ∃ functor, program.functors.get? id = some functor ∧
    functor.arity = 0

theorem Program.lists_atoms (program : Program) :
    letI := program.atoms
    program.Lists := by
  intro id functor found
  constructor
  · rintro ⟨other, known, isConstant⟩
    rw [found] at known
    cases known
    exact isConstant
  · exact fun isConstant => ⟨functor, found, isConstant⟩

namespace Traced.Run

/-- Whatever a session has been used for before, in every run of a query and
however often another solution has been asked for, a call that returns leads back
to its caller as the caller left it. -/
theorem returns_to_caller {config : Config} {journal : Journal}
    {session begun : Session} {last : Option Report} {goals : List Goal}
    {traced : Traced} {fuel : Nat} {status : Status} {after : Machine}
    (addressable : config.Addressable)
    (arises : Session.Arises config journal session last)
    (begins : SessionM.query 0 goals session = .ok .running begun)
    (run : Traced.Run begun.machine traced)
    (step : MachineM.stepTurn fuel traced.machine =
      .ok (.returns, status) after)
    (fits : after.program.Fits) :
    ∃ call others arity, traced.calls = call :: others ∧
      call.Returned after arity ∧ (others ≠ [] → call.Enters arity) := by
  let atoms := after.program.atoms
  have lists : after.program.Lists := after.program.lists_atoms
  have advances := MachineM.stepTurn_advances fuel traced.machine
    (.refl traced.machine.program)
  have goesOn := MachineM.stepTurn_returns fuel traced.machine
  rw [step] at advances goesOn
  have keepsRun := run.keeps.trans advances.grows.toKeeps
  obtain ⟨linkage, sound⟩ := arises.sound
  obtain ⟨later, -, keepsQuery⟩ :=
    sound.since_carried (SessionM.query_carries 0 goals)
  rw [Session.since_of_ok begins] at keepsQuery
  have settled := arises.settled fits lists addressable
    (keepsQuery.trans keepsRun)
  obtain ⟨base, same, knows⟩ :=
    Session.begun_of_query fits lists sound settled.tidy begins keepsRun
  obtain ⟨outlook, good, tracks⟩ :=
    knows.run run (same ▸ advances.grows.toKeeps)
  have proceeds := good.toKnown.step fuel
  rw [step] at proceeds
  have leads := proceeds (same ▸ .refl _)
  rw [if_neg (goesOn rfl)] at leads
  obtain ⟨_, moves, goodLater⟩ := leads.goes good.free
  cases moves with
  | @returns _ call others calls returned _ =>
      have pending := good.stands.pending calls
      refine ⟨call.machine, others.map Call.machine, call.functor.arity, ?_,
        pending.sound.returned goodLater.stands.fits.tidy.addressable returned,
        ?_⟩
      · rw [tracks.calls, calls, List.map_cons]
      · intro hasCaller
        exact pending.enters fun none => hasCaller (by rw [none, List.map_nil])

/-- A call that succeeds again and again returns a second time, after the goal
behind it has failed. -/
theorem returns_to_caller_repeat :
    ∃ (session begun : Session) (traced : Traced)
      (call first after : Machine) (arity : Nat),
      Session.Arises ⟨8, 32, 0, 1650, false⟩ .silent session none ∧
      SessionM.query 0 [⟨"repeat", []⟩, ⟨"fail", []⟩] session =
        .ok .running begun ∧
      Traced.Run begun.machine traced ∧
      MachineM.stepTurn 16 traced.machine = .ok (.returns, .running) after ∧
      traced.calls = [call, first] ∧
      call.Returned after arity ∧ call.Enters arity := by
  have computes : Session.Computes ⟨8, 32, 0, 1650, false⟩ .silent
      (Access.quick.query 0 [⟨"repeat", []⟩, ⟨"fail", []⟩])
      fun status begun => status = .running ∧
        begun.Leads (fun _ => True) 14 fun traced outcome after =>
          outcome = (.returns, .running) ∧ traced.calls.length = 2 ∧
            after.program.Fits := by
    decide +kernel
  rw [Access.query_quick] at computes
  obtain ⟨session, _, begun, created, begins, rfl, leads⟩ :=
    computes.exists_session
  obtain ⟨traced, _, after, run, step, rfl, two, fits⟩ := leads.exists_run
  obtain ⟨call, others, arity, calls, returned, enters⟩ :=
    returns_to_caller ⟨by decide, by decide, by decide⟩ (.create created) begins
      run.run step fits
  rw [calls] at two
  obtain ⟨first, rfl⟩ := List.length_eq_one_iff.mp (Nat.succ.inj two)
  exact ⟨session, begun, traced, call, first, after, arity, .create created,
    begins, run.run, step, calls, returned, enters (by simp)⟩

end Traced.Run

end LogicMachine
