import LogicMachine.Proofs.Matching.Scene

/-!
# Running a piece of code

A machine crosses a piece of code: it executes one instruction after the other
until it stands at the end of the code, gives its branch up on the way, or meets
a fault.  It gives up where it executes a failure or where a unification fails.
-/

namespace LogicMachine

namespace Machine

/-- The next instruction gives the branch up. -/
inductive GivesUp (fuel : Nat) (machine : Machine) : Prop where
  | fail {position : Int32} {operand : UInt32} {ready : Machine} :
      machine.Next position .fail operand ready → GivesUp fuel machine
  | unify {position : Int32} {operand : UInt32} {ready after : Machine} :
      machine.Next position .unify operand ready →
      MachineM.unifyTop fuel ready = .ok false after → GivesUp fuel machine

end Machine

/-- How the run of a piece of code ends. -/
inductive Finish where
  | arrived (machine : Machine)
  | gaveUp
  | faulted (fault : Fault) (machine : Machine)

/-- What is wanted at the end of the code, why a branch is given up, and on
which stores a unification may be stopped. -/
def Finish.Satisfies (wanted : Machine → Prop) (hopeless : Prop)
    (endless : Store → Prop) : Finish → Prop
  | .arrived machine => wanted machine
  | .gaveUp => hopeless
  | .faulted fault machine => Exhausts fault machine ∨
      fault = .diverged ∧ endless machine.store

theorem Finish.Satisfies.imp {wanted better : Machine → Prop}
    {hopeless worse : Prop} {endless cyclic : Store → Prop} {finish : Finish}
    (satisfies : finish.Satisfies wanted hopeless endless)
    (onArrival : ∀ machine, wanted machine → better machine)
    (onFailure : hopeless → worse)
    (onStop : ∀ store, endless store → cyclic store) :
    finish.Satisfies better worse cyclic := by
  cases finish with
  | arrived machine => exact onArrival machine satisfies
  | gaveUp => exact onFailure satisfies
  | faulted fault machine => exact Or.imp id (And.imp id (onStop _)) satisfies

namespace Machine

/-- The machine runs the code before a position, up to an end. -/
inductive Crosses (fuel stop : Nat) : Machine → Finish → Prop where
  | arrives {machine : Machine} :
      machine.registers.instruction = .code (Int32.ofNat stop) →
      Crosses fuel stop machine (.arrived machine)
  | givesUp {machine : Machine} :
      machine.registers.instruction ≠ .code (Int32.ofNat stop) →
      machine.GivesUp fuel → Crosses fuel stop machine .gaveUp
  | faults {machine after : Machine} {fault : Fault} :
      machine.registers.instruction ≠ .code (Int32.ofNat stop) →
      ¬ machine.GivesUp fuel →
      MachineM.step fuel machine = .error fault after →
      Crosses fuel stop machine (.faulted fault after)
  | steps {machine after : Machine} {finish : Finish} :
      machine.registers.instruction ≠ .code (Int32.ofNat stop) →
      ¬ machine.GivesUp fuel →
      MachineM.step fuel machine = .ok .running after →
      Crosses fuel stop after finish → Crosses fuel stop machine finish

/-- There is one end at most. -/
theorem Crosses.unique {fuel stop : Nat} {machine : Machine}
    {finish other : Finish} (crosses : machine.Crosses fuel stop finish)
    (again : machine.Crosses fuel stop other) : finish = other := by
  induction crosses with
  | arrives here =>
      cases again with
      | arrives => rfl
      | givesUp away => exact absurd here away
      | faults away => exact absurd here away
      | steps away => exact absurd here away
  | givesUp away gives =>
      cases again with
      | arrives here => exact absurd here away
      | givesUp => rfl
      | faults _ goes => exact absurd gives goes
      | steps _ goes => exact absurd gives goes
  | faults away goes failed =>
      cases again with
      | arrives here => exact absurd here away
      | givesUp _ gives => exact absurd gives goes
      | faults _ _ also =>
          rw [failed] at also
          cases also
          rfl
      | steps _ _ stepped =>
          rw [failed] at stepped
          cases stepped
  | steps away goes stepped _ ih =>
      cases again with
      | arrives here => exact absurd here away
      | givesUp _ gives => exact absurd gives goes
      | faults _ _ failed =>
          rw [stepped] at failed
          cases failed
      | steps _ _ also later =>
          rw [stepped] at also
          cases also
          exact ih later

/-- There is one next instruction. -/
theorem Next.unique {machine ready other : Machine}
    {position place : Int32} {opcode instead : Opcode}
    {operand argument : UInt32}
    (next : machine.Next position opcode operand ready)
    (again : machine.Next place instead argument other) :
    opcode = instead ∧ ready = other := by
  have first := next.advances
  rw [again.advances] at first
  cases first
  exact ⟨rfl, rfl⟩

theorem Next.ne_stop {machine ready : Machine} {position stop : Nat}
    {opcode : Opcode} {operand : UInt32}
    (next : machine.Next (Int32.ofNat position) opcode operand ready)
    (below : position < stop) (small : stop < 2 ^ 31) :
    machine.registers.instruction ≠ .code (Int32.ofNat stop) := by
  intro here
  have offset := next.offset
  rw [here] at offset
  have same : Int32.ofNat stop = Int32.ofNat position := offset
  have values := congrArg Int32.toNatClampNeg same
  rw [Store.toNatClampNeg_ofNat small,
    Store.toNatClampNeg_ofNat (Nat.lt_trans below small)] at values
  exact Nat.ne_of_gt below values

namespace Crosses

variable {fuel stop : Nat} {machine ready after : Machine} {finish : Finish}
  {position : Int32} {opcode : Opcode} {operand : UInt32}

/-- An instruction after which the run always goes on. -/
theorem ordinary (next : machine.Next position opcode operand ready)
    (away : machine.registers.instruction ≠ .code (Int32.ofNat stop))
    (isOrdinary : opcode.isOrdinary = true)
    (performed : MachineM.perform position opcode operand ready =
      .ok () after)
    (crosses : after.Crosses fuel stop finish) :
    machine.Crosses fuel stop finish := by
  refine .steps away ?_ ?_ crosses
  · rintro (other | ⟨other, -⟩)
    · cases (next.unique other).1
      cases isOrdinary
    · cases (next.unique other).1
      cases isOrdinary
  · rw [next.step, MachineM.execute_ordinary isOrdinary]
    simp only [bind, EStateM.bind, performed]
    rfl

/-- A unification that succeeds. -/
theorem unified (next : machine.Next position .unify operand ready)
    (away : machine.registers.instruction ≠ .code (Int32.ofNat stop))
    (succeeds : MachineM.unifyTop fuel ready = .ok true after)
    (crosses : after.Crosses fuel stop finish) :
    machine.Crosses fuel stop finish := by
  refine .steps away ?_ ?_ crosses
  · rintro (other | ⟨other, failed⟩)
    · cases (next.unique other).1
    · cases (next.unique other).2
      cases succeeds.symm.trans failed
  · rw [next.step, MachineM.execute_unify]
    simp only [bind, EStateM.bind, succeeds]
    rfl

end Crosses

/-- Runs the code before an end for a bounded number of instructions, and tells
whether it comes to the end. -/
def arrives (fuel stop : Nat) : Nat → Machine → Bool
  | 0, machine => machine.registers.instruction == .code (Int32.ofNat stop)
  | bound + 1, machine =>
      machine.registers.instruction == .code (Int32.ofNat stop) ||
        match MachineM.advance machine with
        | .error _ _ => false
        | .ok (position, opcode, operand) ready =>
            if opcode.isOrdinary then
              match MachineM.perform position opcode operand ready with
              | .error _ _ => false
              | .ok _ after => arrives fuel stop bound after
            else if opcode = .unify then
              match MachineM.unifyTop fuel ready with
              | .ok true after => arrives fuel stop bound after
              | _ => false
            else false

/-- A run that comes to the end does so as well if its unifications may take
more steps. -/
theorem crosses_of_arrives {fuel more stop : Nat} (enough : fuel ≤ more)
    {bound : Nat} {machine : Machine}
    (comes : machine.arrives fuel stop bound = true) :
    ∃ last, machine.Crosses more stop (.arrived last) := by
  induction bound generalizing machine with
  | zero => exact ⟨machine, .arrives (eq_of_beq comes)⟩
  | succ bound ih =>
      by_cases here : machine.registers.instruction = .code (Int32.ofNat stop)
      · exact ⟨machine, .arrives here⟩
      simp only [arrives, Bool.or_eq_true, beq_iff_eq, here, false_or] at comes
      split at comes
      case h_1 => cases comes
      case h_2 position opcode operand ready advances =>
        have next := next_of_advance advances
        split at comes
        case isTrue isOrdinary =>
          split at comes
          case h_1 => cases comes
          case h_2 after performed =>
            obtain ⟨last, crosses⟩ := ih comes
            exact ⟨last, .ordinary next here isOrdinary performed crosses⟩
        case isFalse =>
          split at comes
          case isFalse => cases comes
          case isTrue isUnify =>
            subst isUnify
            split at comes
            case h_2 => cases comes
            case h_1 after succeeds =>
              obtain ⟨last, crosses⟩ := ih comes
              exact ⟨last, .unified next here
                (MachineM.unifyTop_more enough succeeds) crosses⟩

end Machine

/-- Crossing code may be reasoned about from the end of the code. -/
theorem closes_crosses {fuel stop : Nat} (small : stop < 2 ^ 31)
    {wanted : Machine → Prop} {hopeless : Prop} {context : Context}
    {endless : Nat → Store → Prop} :
    Closes context {fuel} stop hopeless endless
      (fun machine => ∃ finish, machine.Crosses fuel stop finish ∧
        finish.Satisfies wanted hopeless (endless fuel)) where
  quiet := by
    intro machine ready position opcode operand below _ _ next isQuiet
      performs
    have away := next.ne_stop below small
    have goes : ¬ machine.GivesUp fuel := by
      rintro (other | ⟨other, -⟩)
      · cases (next.unique other).1
        cases isQuiet
      · cases (next.unique other).1
        cases isQuiet
    have step := next.step fuel
    have isOrdinary := Opcode.isOrdinary_of_isQuiet isQuiet
    rw [MachineM.execute_ordinary isOrdinary] at step
    simp only [bind, EStateM.bind] at step
    cases performed : MachineM.perform (Int32.ofNat position) opcode operand
        ready with
    | ok value after =>
        rw [performed] at performs
        obtain ⟨finish, crosses, satisfies⟩ := performs
        exact ⟨finish, .ordinary next away isOrdinary performed crosses,
          satisfies⟩
    | error fault after =>
        rw [performed] at step performs
        exact ⟨_, .faults away goes step, .inl performs.1⟩
  fail := by
    intro machine ready position operand below _ _ next hopeless
    exact ⟨.gaveUp, .givesUp (next.ne_stop below small) (.fail next), hopeless⟩
  unify := by
    intro machine ready position operand below _ _ next each
    have unifies := each fuel rfl
    have away := next.ne_stop below small
    have goes (notFalse : ∀ after,
        MachineM.unifyTop fuel ready ≠ .ok false after) :
        ¬ machine.GivesUp fuel := by
      rintro (other | ⟨other, failed⟩)
      · cases (next.unique other).1
      · rw [← (next.unique other).2] at failed
        exact notFalse _ failed
    have step := next.step fuel
    rw [MachineM.execute_unify] at step
    simp only [bind, EStateM.bind] at step
    cases unified : MachineM.unifyTop fuel ready with
    | ok success after =>
        rw [unified] at step unifies
        cases success with
        | true =>
            obtain ⟨finish, crosses, satisfies⟩ := unifies
            exact ⟨finish, .unified next away unified crosses, satisfies⟩
        | false =>
            exact ⟨.gaveUp, .givesUp away (.unify next unified), unifies.1⟩
    | error fault after =>
        rw [unified] at step unifies
        exact ⟨_, .faults away (goes (by simp [unified])) step, unifies.1⟩

end LogicMachine
