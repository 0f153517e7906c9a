import Mathlib.Algebra.BigOperators.Fin
import LogicMachine.Machine.Basic

/-!
# How actions end

The actions of the store, the program and the machine share one shape: they end
with a value or with a fault, and in a new state either way.  `Ends` says what
holds at the end.  The lemmas below open one construct of an action at a time,
so the proof about an action follows the text of the action.
-/

namespace LogicMachine

/-- The first condition holds of the value and the state at a regular end, the
second one of the fault and the state at any other. -/
def Ends (result : EStateM.Result ε σ α) (regular : α → σ → Prop)
    (faulty : ε → σ → Prop) : Prop :=
  match result with
  | .ok value state => regular value state
  | .error fault state => faulty fault state

instance {result : EStateM.Result ε σ α} {regular : α → σ → Prop}
    {faulty : ε → σ → Prop} [∀ value state, Decidable (regular value state)]
    [∀ fault state, Decidable (faulty fault state)] :
    Decidable (Ends result regular faulty) :=
  match result with
  | .ok value state => inferInstanceAs (Decidable (regular value state))
  | .error fault state => inferInstanceAs (Decidable (faulty fault state))

section Constructs

variable {ε σ α β : Type} {state : σ} {regular : α → σ → Prop}
  {faulty : ε → σ → Prop}

theorem Ends.imp {result : EStateM.Result ε σ α} {weaker : α → σ → Prop}
    {weakerFault : ε → σ → Prop} (ends : Ends result regular faulty)
    (onRegular : ∀ value final, regular value final → weaker value final)
    (onFault : ∀ fault final, faulty fault final → weakerFault fault final) :
    Ends result weaker weakerFault := by
  cases result with
  | ok value final => exact onRegular value final ends
  | error fault final => exact onFault fault final ends

/-- What an action ends with when it never faults. -/
theorem Ends.exists_ok {result : EStateM.Result ε σ α}
    (ends : Ends result regular fun _ _ => False) :
    ∃ value final, result = .ok value final ∧ regular value final := by
  cases result with
  | ok value final => exact ⟨value, final, rfl, ends⟩
  | error fault final => cases ends

theorem Ends.and {result : EStateM.Result ε σ α} {other : α → σ → Prop}
    {otherFault : ε → σ → Prop} (ends : Ends result regular faulty)
    (alsoEnds : Ends result other otherFault) :
    Ends result (fun value final => regular value final ∧ other value final)
      (fun fault final => faulty fault final ∧ otherFault fault final) := by
  cases result with
  | ok value final => exact ⟨ends, alsoEnds⟩
  | error fault final => exact ⟨ends, alsoEnds⟩

@[simp]
theorem ends_ok {value : α} {final : σ} :
    Ends (.ok value final : EStateM.Result ε σ α) regular faulty ↔
      regular value final :=
  Iff.rfl

@[simp]
theorem ends_error {fault : ε} {final : σ} :
    Ends (.error fault final : EStateM.Result ε σ α) regular faulty ↔
      faulty fault final :=
  Iff.rfl

@[simp]
theorem ends_pure {value : α} :
    Ends ((pure value : EStateM ε σ α) state) regular faulty ↔
      regular value state :=
  Iff.rfl

@[simp]
theorem ends_bind {action : EStateM ε σ β} {next : β → EStateM ε σ α} :
    Ends ((action >>= next) state) regular faulty ↔
      Ends (action state)
        (fun value later => Ends (next value later) regular faulty)
        faulty := by
  simp only [bind, EStateM.bind]
  cases action state <;> rfl

@[simp]
theorem ends_map {action : EStateM ε σ β} {apply : β → α} :
    Ends ((apply <$> action) state) regular faulty ↔
      Ends (action state) (fun value => regular (apply value)) faulty := by
  simp only [Functor.map, EStateM.map]
  cases action state <;> rfl

@[simp]
theorem ends_throw {fault : ε} :
    Ends ((throw fault : EStateM ε σ α) state) regular faulty ↔
      faulty fault state :=
  Iff.rfl

theorem get_apply {state : σ} :
    (get : EStateM ε σ σ) state = .ok state state :=
  rfl

theorem modifyGet_apply {update : σ → α × σ} {state : σ} :
    (modifyGet update : EStateM ε σ α) state =
      .ok (update state).1 (update state).2 :=
  rfl

@[simp]
theorem ends_get {onState : σ → σ → Prop} :
    Ends ((get : EStateM ε σ σ) state) onState faulty ↔ onState state state :=
  Iff.rfl

@[simp]
theorem ends_modify {update : σ → σ} {onUnit : PUnit → σ → Prop} :
    Ends ((modify update : EStateM ε σ PUnit) state) onUnit faulty ↔
      onUnit ⟨⟩ (update state) :=
  Iff.rfl

@[simp]
theorem ends_modifyGet {update : σ → α × σ} :
    Ends ((modifyGet update : EStateM ε σ α) state) regular faulty ↔
      regular (update state).1 (update state).2 :=
  Iff.rfl

@[simp]
theorem ends_discard {action : EStateM ε σ β} {onUnit : PUnit → σ → Prop} :
    Ends ((discard action) state) onUnit faulty ↔
      Ends (action state) (fun _ final => onUnit ⟨⟩ final) faulty := by
  simp only [discard, Functor.discard, Functor.mapConst, Function.comp,
    EStateM.map, Function.const]
  cases action state <;> rfl

end Constructs

/-- An action that keeps a condition on the state, also when it faults. -/
def Keeps (invariant : σ → Prop) (action : EStateM ε σ α) : Prop :=
  ∀ state, invariant state →
    Ends (action state) (fun _ => invariant) (fun _ => invariant)

namespace Keeps

variable {ε σ α β : Type} {invariant : σ → Prop}

theorem pure (value : α) :
    Keeps invariant (Pure.pure value : EStateM ε σ α) :=
  fun _ holds => holds

theorem throw (fault : ε) :
    Keeps invariant (MonadExcept.throw fault : EStateM ε σ α) :=
  fun _ holds => holds

theorem get : Keeps invariant (MonadState.get : EStateM ε σ σ) :=
  fun _ holds => holds

theorem bind {action : EStateM ε σ β} {next : β → EStateM ε σ α}
    (first : Keeps invariant action)
    (second : ∀ value, Keeps invariant (next value)) :
    Keeps invariant (action >>= next) := by
  intro state holds
  rw [ends_bind]
  exact (first state holds).imp (fun value later => second value later)
    (fun _ _ kept => kept)

theorem modifying {update : σ → σ}
    (kept : ∀ state, invariant state → invariant (update state)) :
    Keeps invariant (modify update : EStateM ε σ PUnit) :=
  kept

theorem forM {action : β → EStateM ε σ PUnit} {items : List β}
    (each : ∀ item ∈ items, Keeps invariant (action item)) :
    Keeps invariant (items.forM action) := by
  induction items with
  | nil => exact Keeps.pure _
  | cons item rest ih =>
      refine Keeps.bind (each item List.mem_cons_self) fun _ => ih ?_
      intro later member
      exact each later (List.mem_cons_of_mem _ member)

end Keeps

namespace StoreM

@[simp]
theorem ends_read {query : Store → Except Fault α} {store : Store}
    {regular : α → Store → Prop} {faulty : Fault → Store → Prop} :
    Ends (read query store) regular faulty ↔
      match query store with
      | .ok value => regular value store
      | .error fault => faulty fault store := by
  unfold read
  cases query store <;> rfl

end StoreM

namespace MachineM

@[simp]
theorem ends_read {query : Machine → Except Fault α} {machine : Machine}
    {regular : α → Machine → Prop} {faulty : Fault → Machine → Prop} :
    Ends (read query machine) regular faulty ↔
      match query machine with
      | .ok value => regular value machine
      | .error fault => faulty fault machine := by
  unfold read
  cases query machine <;> rfl

@[simp]
theorem ends_onStore {action : FunctorTable → StoreM α} {machine : Machine}
    {regular : α → Machine → Prop} {faulty : Fault → Machine → Prop} :
    Ends (onStore action machine) regular faulty ↔
      Ends (action machine.program.functors machine.store)
        (fun value store => regular value { machine with store })
        (fun fault store => faulty fault { machine with store }) := by
  obtain ⟨store, registers, program, collectors⟩ := machine
  simp only [onStore]
  cases action program.functors store <;> rfl

@[simp]
theorem ends_onProgram {action : ProgramM α} {machine : Machine}
    {regular : α → Machine → Prop} {faulty : Fault → Machine → Prop} :
    Ends (onProgram action machine) regular faulty ↔
      Ends (action machine.program)
        (fun value program => regular value { machine with program })
        (fun fault program => faulty fault { machine with program }) := by
  obtain ⟨store, registers, program, collectors⟩ := machine
  simp only [onProgram]
  cases action program <;> rfl

end MachineM

end LogicMachine
